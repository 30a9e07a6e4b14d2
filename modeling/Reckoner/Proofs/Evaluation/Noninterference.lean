import Reckoner.Proofs.Evaluation.Concord

/-!
# References bound what evaluation depends on

`Context.Reaches c o`: the least set of names with the references of the operand `o` and, for each
user function in it, the references of that function.  Contexts that coincide on this set give the
same result for `o` and still coincide on it afterwards, memory included
(`Operand.evaluate_depends_on_references`).

Parameters are bound in the same variables as everything else, so a function called from a body sees
the parameters of its callers.  It refers to them by name, and these names are in the set.
-/

namespace Reckoner

/-- The names that the value of an operand may hang on: those that it refers to, and those that user
functions among them refer to. -/
inductive Context.Reaches (c : Context) (o : Operand) : String → Prop where
  | refers {n : String} (member : n ∈ o.references) : Reaches c o n
  | through {n m : String} {f : UserFunction} (reached : Reaches c o n)
      (function : c.user? n = some f) (member : m ∈ f.references) : Reaches c o m

def Context.reach (c : Context) (o : Operand) : Set String := {n | c.Reaches o n}

/-- Two contexts give the same values and functions to the names of a set, with what the functions
remember. -/
structure Context.Coincide (R : Set String) (c d : Context) : Prop where
  values : ∀ n ∈ R, c.valueOf? n = d.valueOf? n
  functions : c.Alike R d

/-- No function of a context calls one of its own parameters. -/
def Context.ParamsUncalled (c : Context) : Prop :=
  ∀ n f body p, c.user? n = some f → f.body = some body → p ∈ f.params → ¬ body.Calls p

namespace Context

variable {c d : Context} {o : Operand}

/-- A set with the references of the operand that is closed under those of user functions has all
names reached. -/
theorem Reaches.mem_of_closed {R : Set String} (hrefers : ∀ n ∈ o.references, n ∈ R)
    (hclosed : ∀ n ∈ R, ∀ f, c.user? n = some f → ∀ m ∈ f.references, m ∈ R) {n : String}
    (h : c.Reaches o n) : n ∈ R := by
  induction h with
  | refers member => exact hrefers _ member
  | through _ function member ih => exact hclosed _ ih _ function _ member

/-- The bodies of functions that are reached use names that are reached and their parameters. -/
theorem within_reaches (hrand : ¬ c.Reaches o "rand") (hrandint : ¬ c.Reaches o "randint")
    (hparams : c.ParamsUncalled) {n : String} (hn : c.Reaches o n) {f : UserFunction}
    {body : Operand} (hf : c.user? n = some f) (hbody : f.body = some body) :
    body.Within (c.reach o) f.params := by
  have hcalls : ∀ m, body.Calls m → c.Reaches o m := by
    intro m hm
    have hfree : m ∉ f.params := fun hp => hparams n f body m hf hbody hp hm
    refine .through hn hf (UserFunction.mem_references.2 ⟨body, hbody, ?_, hfree⟩)
    exact Operand.mem_references_of_calls hm
  refine ⟨fun m hm => ?_, hcalls, fun h => hrand (hcalls _ h), fun h => hrandint (hcalls _ h)⟩
  by_cases hp : m ∈ f.params
  · exact .inr hp
  · refine .inl (.through hn hf (UserFunction.mem_references.2 ⟨body, hbody, ?_, hp⟩))
    exact Operand.mem_references_iff.2 (.inl hm)

end Context

/-- **Noninterference.** Two contexts of the same numerics, depth and ceiling that coincide on the
names reached from an operand give the same value or the same fault for it, and coincide on these
names afterwards.  Chance must not be reached, and no function calls one of its own parameters. -/
theorem Operand.evaluate_depends_on_references (o : Operand) (c d : Context) (hnamed : c.Named)
    (hparams : c.ParamsUncalled) (hnumerics : c.numerics = d.numerics)
    (hdepth : c.depth = d.depth) (hceiling : c.ceiling = d.ceiling)
    (hrand : ¬ c.Reaches o "rand") (hrandint : ¬ c.Reaches o "randint")
    (hcoincide : Context.Coincide (c.reach o) c d) :
    (o.evaluate.run c).1 = (o.evaluate.run d).1 ∧
      Context.Coincide (c.reach o) (o.evaluate.run c).2 (o.evaluate.run d).2 := by
  have hconcord : Context.Concord (fun _ => False) (c.reach o) [] c d := {
    numerics := hnumerics
    depth := hdepth
    ceiling_le := Nat.le_of_eq hceiling
    ceiling := .inl hceiling
    values := fun n hn => hcoincide.values n (hn.resolve_right List.not_mem_nil)
    bound := fun n hn => absurd hn List.not_mem_nil
    alike := hcoincide.functions
    named := hnamed
    bodies := fun n hn f body hf hbody =>
      Context.within_reaches hrand hrandint hparams hn hf hbody }
  have hcalls : ∀ n, o.Calls n → c.Reaches o n := fun n hn => .refers (mem_references_of_calls hn)
  have hwithin : o.Within (c.reach o) [] := {
    vars := fun n hn => .inl (.refers (mem_references_iff.2 (.inl hn)))
    calls := hcalls
    rand := fun h => hrand (hcalls _ h)
    randint := fun h => hrandint (hcalls _ h) }
  have hlevels : c.levels = d.levels := by
    unfold Context.levels
    rw [hceiling, hdepth]
  have htracks := Evaluation.tracks_evalAt (Nat.le_of_eq hlevels) (.inl hlevels) hwithin hconcord
  rcases htracks with ⟨_, hfalse, _⟩ | ⟨hresult, hafter⟩
  · exact hfalse.elim
  · exact ⟨hresult, fun n hn => hafter.values n (.inl hn), hafter.alike⟩

/-- The function `f[x]=x+g[k]`. -/
def scopedCaller : UserFunction :=
  .define ["x"] (some (.expression [.operand (.var "x"), .operator ⟨'+'⟩,
    .operand (.call "g" [.var "k"])]))

/-- The function `g[k]=k*x`, which reads the parameter of its caller. -/
def scopedCallee : UserFunction :=
  .define ["k"] (some (.expression [.operand (.var "k"), .operator ⟨'*'⟩, .operand (.var "x")]))

/-- A context with these two functions and with `k` equal to `2`. -/
def scopedContext : Context :=
  (((Context.empty .standard).setVariable "k" 2).setFunction "f" (.user scopedCaller)).setFunction
    "g" (.user scopedCallee)

/-- The same context with a variable `u` and a function `h[u]=u` beside. -/
def widerContext : Context :=
  (scopedContext.setVariable "u" 7).setFunction "h" (.user (.define ["u"] (some (.var "u"))))

/-- The operand `sum[j,1,2,f[j]]`. -/
def scopedSum : Operand :=
  .call "sum" [.var "j", .numeral 1 "1", .numeral 2 "2", .call "f" [.var "j"]]

theorem function?_scopedContext {n : String} {f : Function}
    (h : scopedContext.function? n = some f) : f = .user scopedCaller ∨ f = .user scopedCallee := by
  unfold scopedContext at h
  rw [Context.function?_setFunction, Context.function?_setFunction] at h
  split at h
  · cases h
    exact .inr rfl
  · split at h
    · cases h
      exact .inl rfl
    · simp at h

/-- What the sum reaches is neither beside these functions nor random. -/
theorem reaches_scopedSum {n : String} (h : scopedContext.Reaches scopedSum n) :
    n ∉ ["u", "h", "rand", "randint"] := by
  have hrefers : ∀ m ∈ ["u", "h", "rand", "randint"], m ∉ scopedSum.references := by decide
  have hcaller : ∀ m ∈ ["u", "h", "rand", "randint"], m ∉ scopedCaller.references := by decide
  have hcallee : ∀ m ∈ ["u", "h", "rand", "randint"], m ∉ scopedCallee.references := by decide
  refine h.mem_of_closed (fun n hn hmem => hrefers n hmem hn) fun n _ f hf m hm hmem => ?_
  rcases function?_scopedContext (Context.user?_eq_some.1 hf) with heq | heq
  · cases heq
    exact hcaller m hmem hm
  · cases heq
    exact hcallee m hmem hm

theorem paramsUncalled_scopedContext : scopedContext.ParamsUncalled := by
  intro n f body p hf hbody hp
  rcases function?_scopedContext (Context.user?_eq_some.1 hf) with heq | heq
  · cases heq
    cases hbody
    cases List.mem_singleton.1 hp
    simp
  · cases heq
    cases hbody
    simp

theorem named_scopedContext : scopedContext.Named := by
  intro n b hb
  rcases function?_scopedContext hb with heq | heq <;> cases heq

theorem coincide_widerContext :
    Context.Coincide (scopedContext.reach scopedSum) scopedContext widerContext where
  values n hn := by
    have hne : "u" ≠ n := fun heq => reaches_scopedSum hn (heq ▸ by decide)
    show _ = (scopedContext.setVariable "u" 7).valueOf? n
    rw [Context.valueOf?_setVariable, if_neg hne]
  functions n hn := by
    have hne : "h" ≠ n := fun heq => reaches_scopedSum hn (heq ▸ by decide)
    rw [widerContext, Context.function?_setFunction, if_neg hne]
    rfl

/-- The sum has the same value in the wider context, and `f` remembers the same values there. -/
theorem Operand.evaluate_depends_on_references_of_sum :
    (scopedSum.evaluate.run scopedContext).1 = .ok 7 ∧
      (scopedSum.evaluate.run scopedContext).1 = (scopedSum.evaluate.run widerContext).1 ∧
      Context.Coincide (scopedContext.reach scopedSum) (scopedSum.evaluate.run scopedContext).2
        (scopedSum.evaluate.run widerContext).2 := by
  refine ⟨by decide +kernel, ?_⟩
  exact evaluate_depends_on_references scopedSum scopedContext widerContext named_scopedContext
    paramsUncalled_scopedContext rfl rfl rfl (fun h => reaches_scopedSum h (by decide))
    (fun h => reaches_scopedSum h (by decide)) coincide_widerContext

end Reckoner
