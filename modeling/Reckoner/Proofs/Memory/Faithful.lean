import Reckoner.Proofs.Evaluation.Chance
import Reckoner.Proofs.Memory.Means

/-!
# Faithful contexts

While an operand is evaluated, the context differs from the one that the evaluation started in by
the values of parameters and counters and by what functions remember.

1. `Context.Disciplined B g`: the parameters of functions and the counters in their bodies are names
   of `B`, and these names are neither functions nor referred to by any (`Context.Separated`).
2. `Context.Faithful B g c`: `c` is `g` up to the values of names of `B` and up to memory, and what
   its functions remember is what their bodies mean in `g`.
3. Evaluation keeps contexts faithful and computes the meaning of operands (`means_evalAt`).
-/

namespace Reckoner

open Filter Reckoner.Action Evaluation

/-- What a function remembers is what its body means in a context. -/
def UserFunction.RemembersIn (g : Context) (f : UserFunction) : Prop :=
  ∀ args value, args.length = f.arity → f.memo.find? args = some value →
    ∃ body, f.body = some body ∧
      ∀ᶠ m in atTop, ((meaningAt m body).run (g.bindAll [] (f.params.zip args)).2).1 = .ok value

theorem UserFunction.remembersIn_forget (g : Context) (f : UserFunction) :
    f.forget.RemembersIn g := by
  intro args value _ hmemo
  rw [show f.forget.memo = Table.empty from rfl, Table.find?_empty] at hmemo
  cases hmemo

namespace Context

/-- Functions have names of a set as parameters; these names are neither functions nor referred to
by any. -/
structure Separated (B : Set String) (g : Context) : Prop where
  names : ∀ n f, g.user? n = some f → n ∉ B
  references : ∀ n f, g.user? n = some f → ∀ r ∈ f.references, r ∉ B
  params : ∀ n f, g.user? n = some f → f.body ≠ none → ∀ p ∈ f.params, p ∈ B

/-- Bound names are apart from the other ones, also in the bodies of functions. -/
structure Disciplined (B : Set String) (g : Context) : Prop extends Separated B g where
  builtins : ∀ n b, g.function? n = some (.builtin b) → b.name = n
  bodies : ∀ n f body, g.user? n = some f → f.body = some body → body.CallsWithin B

/-- A context is another one up to bound names and memory, and its memory is right. -/
structure Faithful (B : Set String) (g c : Context) : Prop where
  numerics : c.numerics = g.numerics
  values : ∀ n, n ∉ B → c.valueOf? n = g.valueOf? n
  functions : ∀ n, (c.function? n).map Function.forget = (g.function? n).map Function.forget
  memory : ∀ n f, c.user? n = some f → f.RemembersIn g

variable {B : Set String} {g c d : Context}

/-! ## User functions -/

theorem exists_user?_of_forget_eq {n : String}
    (h : (c.function? n).map Function.forget = (d.function? n).map Function.forget)
    {f : UserFunction} (hf : c.user? n = some f) :
    ∃ f', d.user? n = some f' ∧ f'.forget = f.forget := by
  rw [user?_eq_some.1 hf] at h
  obtain ⟨fn, hfn, hforget⟩ := Option.map_eq_some_iff.1 h.symm
  cases fn with
  | builtin b => cases hforget
  | user f' => exact ⟨f', user?_eq_some.2 hfn, Function.user.inj hforget⟩

theorem Separated.user?_eq_none (h : Separated B g) {n : String} (hn : n ∈ B) :
    g.user? n = none :=
  Option.eq_none_iff_forall_ne_some.2 fun f hf => h.names n f hf hn

section Subset

variable
  (hsub : ∀ n fn, c.function? n = some fn → (g.function? n).map Function.forget = some fn.forget)

include hsub in
theorem exists_user?_of_subset {n : String} {f : UserFunction} (hf : c.user? n = some f) :
    ∃ f', g.user? n = some f' ∧ f'.forget = f.forget := by
  have hn := hsub n _ (user?_eq_some.1 hf)
  rw [← Option.map_some, ← user?_eq_some.1 hf] at hn
  exact exists_user?_of_forget_eq hn.symm hf

include hsub in
theorem Separated.of_subset (h : Separated B g) : Separated B c where
  names n f hf := by
    obtain ⟨f', hf', -⟩ := exists_user?_of_subset hsub hf
    exact h.names n f' hf'
  references n f hf r hr := by
    obtain ⟨f', hf', hforget⟩ := exists_user?_of_subset hsub hf
    refine h.references n f' hf' r ?_
    rwa [← UserFunction.references_forget, hforget]
  params n f hf hbody p hp := by
    obtain ⟨f', hf', hforget⟩ := exists_user?_of_subset hsub hf
    rw [← UserFunction.body_forget, ← hforget] at hbody
    rw [← UserFunction.params_forget, ← hforget] at hp
    exact h.params n f' hf' hbody p hp

include hsub in
/-- Discipline is not a matter of memory, and fewer functions keep it. -/
theorem Disciplined.of_subset (h : Disciplined B g) : Disciplined B c where
  toSeparated := h.toSeparated.of_subset hsub
  builtins n b hb := by
    obtain ⟨fn, hfn, hforget⟩ := Option.map_eq_some_iff.1 (hsub n _ hb)
    cases fn with
    | builtin b' =>
      cases hforget
      exact h.builtins n _ hfn
    | user f => cases hforget
  bodies n f body hf hbody := by
    obtain ⟨f', hf', hforget⟩ := exists_user?_of_subset hsub hf
    rw [← UserFunction.body_forget, ← hforget] at hbody
    exact h.bodies n f' body hf' hbody

end Subset

theorem Disciplined.of_forget_eq (h : Disciplined B g)
    (heq : ∀ n, (c.function? n).map Function.forget = (g.function? n).map Function.forget) :
    Disciplined B c :=
  h.of_subset fun n fn hfn => by rw [← heq, hfn, Option.map_some]

/-! ## Faithful contexts agree -/

theorem Faithful.disciplined (h : Faithful B g c) (hg : Disciplined B g) : Disciplined B c :=
  hg.of_forget_eq h.functions

/-- Contexts that are the same up to bound names and memory agree on the other names. -/
theorem Disciplined.agree (h : Disciplined B c) (hnumerics : c.numerics = d.numerics)
    (hvalues : ∀ n, n ∉ B → c.valueOf? n = d.valueOf? n)
    (hfunctions : ∀ n, (c.function? n).map Function.forget = (d.function? n).map Function.forget) :
    Agree {n | n ∉ B} c d where
  numerics := hnumerics
  values := hvalues
  functions n _ := hfunctions n
  closed n _ f hf := h.references n f hf
  params n _ f hf hbody p hp :=
    ⟨hfunctions p, h.user?_eq_none (h.params n f hf hbody p hp)⟩

/-- The body of a function means the same in a faithful context. -/
theorem Faithful.run_body (h : Faithful B g c) (hg : Disciplined B g) {name : String}
    {f : UserFunction} (hf : c.user? name = some f) {body : Operand} (hbody : f.body = some body)
    {args : List Number} (harity : ¬ args.length ≠ f.arity) (m : Nat) :
    ((meaningAt m body).run (c.bare.bindAll [] (f.params.zip args)).2).1 =
      ((meaningAt m body).run (g.bindAll [] (f.params.zip args)).2).1 := by
  have hfunctions : ∀ n, (c.bare.function? n).map Function.forget =
      (g.function? n).map Function.forget :=
    fun n => (c.map_forget_invalidateAll n).trans (h.functions n)
  have hagree : Agree {n | n ∉ B} c.bare g :=
    (hg.of_forget_eq hfunctions).agree h.numerics h.values hfunctions
  have hdisciplined := h.disciplined hg
  refine run_body_congr (fun D o => steady_meaningAt m) hagree (hdisciplined.references name f hf)
    (fun p hp => ⟨hfunctions p, ?_⟩) hbody harity
  have hsome : f.body ≠ none := by
    rw [hbody]
    exact Option.some_ne_none body
  rw [user?_bare, hdisciplined.user?_eq_none (hdisciplined.params name f hf hsome p hp)]
  rfl

/-! ## What keeps contexts faithful -/

/-- Only values of bound names and the depth may change. -/
theorem Faithful.of_eq (h : Faithful B g c) (hnumerics : d.numerics = c.numerics)
    (hvalues : ∀ n, n ∉ B → d.valueOf? n = c.valueOf? n) (hfunctions : d.functions = c.functions) :
    Faithful B g d := by
  have hfunction : ∀ n, d.function? n = c.function? n := fun n => by
    unfold function?
    rw [hfunctions]
  refine ⟨hnumerics.trans h.numerics, fun n hn => (hvalues n hn).trans (h.values n hn),
    fun n => ?_, fun n f hf => h.memory n f ?_⟩
  · rw [hfunction, h.functions]
  · rwa [user?_eq_some, ← hfunction, ← user?_eq_some]

theorem Faithful.bindable {n : String} (hn : n ∈ B) : Bindable (Faithful B g) n where
  set c value h := h.of_eq rfl (fun r hr => by
    rw [valueOf?_setVariable, if_neg (ne_of_mem_of_not_mem hn hr)]) rfl
  erase c h := h.of_eq rfl (fun r hr => by
    rw [valueOf?_eraseVariable, if_neg (ne_of_mem_of_not_mem hn hr)]) rfl

theorem Faithful.remember (h : Faithful B g c) {name : String} {f : UserFunction}
    (hf : c.user? name = some f) {body : Operand} (hbody : f.body = some body) {args : List Number}
    {value : Number}
    (hvalue : ∀ᶠ m in atTop,
      ((meaningAt m body).run (g.bindAll [] (f.params.zip args)).2).1 = .ok value) :
    Faithful B g (c.updateUser name (fun f => f.remember args value)) := by
  have hforget := c.updateUser_remember name args value
  have hfunction : ∀ n, (c.updateUser name (fun f => f.remember args value)).function? n =
      if name = n then some (.user (f.remember args value)) else c.function? n := fun n => by
    unfold updateUser
    rw [hf]
    exact function?_setFunction c name n _
  refine ⟨(congrArg Context.numerics hforget).trans h.numerics, fun n hn => ?_, fun n => ?_,
    fun n f' hf' => ?_⟩
  · have hn' := congrArg (fun c => c.valueOf? n) hforget
    exact hn'.trans (h.values n hn)
  · have hn' := congrArg (fun c => c.function? n) hforget
    simp only [function?_invalidateAll] at hn'
    exact hn'.trans (h.functions n)
  · rw [user?_eq_some, hfunction] at hf'
    split at hf'
    · cases hf'
      intro args' value' hlength hmemo
      rw [show (f.remember args value).memo = f.memo.put args value from rfl,
        Table.find?_put] at hmemo
      split at hmemo
      · next heq =>
        subst heq
        cases hmemo
        exact ⟨body, hbody, hvalue⟩
      · exact h.memory name f hf args' value' hlength hmemo
    · exact h.memory n f' (user?_eq_some.2 hf')

end Context

/-! ## Evaluation computes the meaning of operands -/

namespace Evaluation

section Operands

variable {G : Context → Prop} {call : String → List Operand → Action Number}
  {call' : Nat → String → List Operand → Action Number}

theorem means_reading {α : Type} (f : Numerics → Except Fault α) :
    Means G (Action.context >>= fun c => Action.ofExcept (f c.numerics))
      (fun _ => Action.context >>= fun c => Action.ofExcept (f c.numerics)) :=
  .context_bind fun c hc => Means.ofExcept (f c.numerics) c hc

theorem means_evalVariable (name : String) :
    Means G (evalVariable name) (fun _ => evalVariable name) := by
  refine .context_bind fun c hc => ?_
  rw [Context.valueOf?_bare]
  split
  · exact Means.pure _ c hc
  · exact Means.fail _ c hc

theorem means_evalTokens {ts : List (Token Operand)}
    (hparts : ∀ o, .operand o ∈ ts →
      Means G (evalOperand call o) (fun m => evalOperand (call' m) o)) (r : Reducer Number) :
    Means G (evalTokens call ts r) (fun m => evalTokens (call' m) ts r) := by
  induction ts generalizing r with
  | nil =>
    simp only [evalTokens]
    exact .pure r
  | cons t ts ih =>
    have hts := fun o h => hparts o (List.mem_cons_of_mem _ h)
    cases t with
    | operand o =>
      simp only [evalTokens]
      split
      · exact (hparts o (by simp)).bind fun value => ih hts _
      · exact .fail _
    | operator op =>
      simp only [evalTokens, ← bind_assoc]
      exact (means_reading fun m => r.pushOperator (algebra m) op).bind fun r => ih hts r
    | grouper g =>
      simp only [evalTokens, ← bind_assoc]
      exact (means_reading fun m => r.pushGrouper (algebra m) g).bind fun r => ih hts r

theorem means_evalOperand {B : Set String}
    (hcall : ∀ name args, (Operand.call name args).CallsWithin B →
      Means G (call name args) (fun m => call' m name args))
    {o : Operand} (ho : o.CallsWithin B) :
    Means G (evalOperand call o) (fun m => evalOperand (call' m) o) := by
  induction o using Operand.induction with
  | numeral value text =>
    simp only [evalOperand]
    exact .pure value
  | var name =>
    simp only [evalOperand]
    exact means_evalVariable name
  | expression tokens ih =>
    simp only [evalOperand]
    refine (means_evalTokens (fun o hmem => ih o hmem (ho.token hmem)) _).bind fun r => ?_
    exact means_reading fun m => r.finish (algebra m)
  | call name args _ =>
    simp only [evalOperand]
    exact hcall name args ho

end Operands

section Calls

variable {B : Set String} {g : Context} {eval : Operand → Action Number}

theorem means_evalReduction {eval' : Nat → Operand → Action Number} {name : String}
    {args : List Operand}
    (heval : ∀ arg ∈ args, Means (Context.Faithful B g) (eval arg) (fun m => eval' m arg))
    (hcounter : ∀ counter first last term, args = [.var counter, first, last, term] → counter ∈ B) :
    Means (Context.Faithful B g) (evalReduction eval name args)
      (fun m => evalReduction (eval' m) name args) := by
  unfold evalReduction
  split
  · next counter first last term =>
    have hmem := hcounter counter first last term rfl
    have hbounds : Means (Context.Faithful B g) (evalBounds eval name counter first last term)
        (fun m => evalBounds (eval' m) name counter first last term) := by
      unfold evalBounds
      refine (heval first (by simp)).bind fun a => (heval last (by simp)).bind fun b => ?_
      split
      · exact .fail _
      · split
        · exact .context_bind fun c hc => Means.fail _ c hc
        · exact means_countTerms (Context.Faithful.bindable hmem) (heval term (by simp)) name _ _
    refine .context_bind fun c hc => ?_
    rw [Context.isTaken_bare]
    split
    · exact Means.fail _ c hc
    · exact hbounds c hc
  · exact .fail _
  · exact .fail _

/-- Without chance, a built-in function depends on its arguments and the numerics only. -/
theorem means_callBuiltin {b : Builtin} (hb : b.isRandom = false) (args : List Number)
    {c : Context} (hc : Context.Faithful B g c) :
    MeansAt (Context.Faithful B g) c (callBuiltin b args)
      (fun _ => Action.ofExcept (b.call c.numerics 0 args)) := by
  have hrun := run_callBuiltin hb args c
  refine ⟨?_, ?_, fun _ => .of_forall fun _ => ?_⟩
  · rwa [hrun]
  · rw [hrun]
  · rw [hrun]
    rfl

variable (hg : Context.Disciplined B g)
  (heval : ∀ o : Operand, o.CallsWithin B →
    Means (Context.Faithful B g) (eval o) (fun m => meaningAt m o))

include hg heval in
/-- The body of a function gives its value, and the function may remember it. -/
theorem means_body {c : Context} (hc : Context.Faithful B g c) {name : String} {f : UserFunction}
    (hf : c.user? name = some f) {body : Operand} (hbody : f.body = some body) {args : List Number}
    (harity : ¬ args.length ≠ f.arity) :
    MeansAt (Context.Faithful B g) c
      (do
        let value ← Action.binding (f.params.zip args) (eval body)
        Action.change (fun c => c.updateUser name (fun f => f.remember args value))
        pure value)
      (fun m => Action.binding (f.params.zip args) (meaningAt m body)) := by
  have hdisciplined := hc.disciplined hg
  have hparams : ∀ n ∈ (f.params.zip args).map Prod.fst, Bindable (Context.Faithful B g) n := by
    intro n hn
    rw [map_fst_zip_params harity] at hn
    refine Context.Faithful.bindable (hdisciplined.params name f hf ?_ n hn)
    rw [hbody]
    exact Option.some_ne_none body
  have hmeans := Means.binding hparams (heval body (hdisciplined.bodies name f body hf hbody))
  obtain ⟨r, c', hrun, hkeeps, hleaves, hresult⟩ := (hmeans c hc).exists_run
  cases r with
  | error fault =>
    refine ⟨?_, ?_, fun hne => ?_⟩
    · rwa [run_bind_of_error hrun]
    · rwa [run_bind_of_error hrun]
    · rw [run_bind_of_error hrun] at hne ⊢
      exact hresult fun heq => hne (by cases heq; rfl)
  | ok value =>
    have hvalue := hresult nofun
    refine ⟨?_, ?_, fun _ => ?_⟩
    · rw [run_bind_of_ok hrun]
      -- the function now may remember more than it did before its body was evaluated
      have hfunction := congrArg (fun c => c.function? name) hleaves
      simp only [Context.function?_invalidateAll] at hfunction
      obtain ⟨f', hf', hforget⟩ := Context.exists_user?_of_forget_eq hfunction.symm hf
      have hparams' : f'.params = f.params := (congrArg UserFunction.params hforget :)
      have hbody' : f'.body = some body := (congrArg UserFunction.body hforget :).trans hbody
      refine hkeeps.remember hf' hbody' (hvalue.mono fun m hm => ?_)
      rw [run_binding] at hm
      rw [hparams', ← hc.run_body hg hf hbody harity]
      exact congrArg Prod.fst hm
    · rw [run_bind_of_ok hrun]
      exact (c'.updateUser_remember name args value).trans hleaves
    · rw [run_bind_of_ok hrun]
      exact hvalue

include hg heval in
/-- A user function gives its value, from memory or by its body. -/
theorem means_callUser {c : Context} (hc : Context.Faithful B g c) {name : String}
    {f : UserFunction} (hf : c.user? name = some f) (args : List Number) :
    MeansAt (Context.Faithful B g) c (callUser eval name f args)
      (fun m => userMeaning (meaningAt m) name f args) := by
  unfold callUser userMeaning
  split
  · exact Means.fail _ c hc
  · next harity =>
    cases hcase : f.baseCases.find? args with
    | some value => exact Means.pure value c hc
    | none =>
      cases hmemo : f.memo.find? args with
      | some value =>
        obtain ⟨body, hbody, hvalue⟩ := hc.memory name f hf args value (not_not.1 harity) hmemo
        rw [hbody]
        refine ⟨hc, rfl, fun _ => hvalue.mono fun m hm => ?_⟩
        show (Action.binding (f.params.zip args) (meaningAt m body)).run c.bare = _
        refine Prod.ext ?_ (run_binding_snd (fun c => ?_) _ c.bare)
        · rw [run_binding, hc.run_body hg hf hbody harity, hm]
          rfl
        · exact (steady_meaningAt (D := Set.univ) m (fun _ _ => trivial) c).1
      | none =>
        cases hbody : f.body with
        | none => exact Means.context_bind (fun c hc => Means.fail _ c hc) c hc
        | some body => exact means_body hg heval hc hf hbody harity

include hg heval in
theorem means_callFunction {name : String} (hrand : name ≠ "rand") (hrandint : name ≠ "randint")
    (args : List Number) :
    Means (Context.Faithful B g) (callFunction eval name args)
      (fun m => functionMeaning (meaningAt m) name args) := by
  refine .context_bind fun c hc => ?_
  rw [Context.function?_bare]
  cases hfunction : c.function? name with
  | none => exact Means.fail _ c hc
  | some f =>
    cases f with
    | builtin b =>
      have hnamed : c.Named := (hc.disciplined hg).builtins
      exact means_callBuiltin (hnamed.isRandom_eq_false hfunction hrand hrandint) args hc
    | user f => exact means_callUser hg heval hc (Context.user?_eq_some.2 hfunction) args

include hg heval in
theorem means_evalCall {name : String} {args : List Operand}
    (h : (Operand.call name args).CallsWithin B) :
    Means (Context.Faithful B g) (evalCall eval name args)
      (fun m => callMeaning (meaningAt m) name args) := by
  have hargs := fun arg (harg : arg ∈ args) => heval arg (h.argument harg)
  unfold evalCall callMeaning
  split
  · next hname =>
    refine means_evalReduction hargs fun counter first last term heq => ?_
    refine h.counters counter ⟨name, first, last, term, hname, ?_⟩
    rw [heq]
    exact .self
  · refine .context_bind fun c hc => ?_
    rw [Context.hasFunction_bare]
    split
    · refine (Means.mapM hargs).bind (fun values => ?_) c hc
      exact means_callFunction hg heval (Operand.ne_of_not_calls h.rand)
        (Operand.ne_of_not_calls h.randint) values
    · exact Means.fail _ c hc

end Calls

/-- Evaluation with any number of levels left computes the meaning of an operand. -/
theorem means_evalAt {B : Set String} {g : Context} (hg : Context.Disciplined B g) (levels : Nat)
    {o : Operand} (ho : o.CallsWithin B) :
    Means (Context.Faithful B g) (evalAt levels o) (fun m => meaningAt m o) := by
  induction levels generalizing o with
  | zero => exact means_evalOperand (fun _ _ _ => .tooDeep) ho
  | succ levels ih =>
    show Means _ _ (fun m => evalOperand (callMeaningAt m) o)
    refine means_evalOperand (fun name args h => ?_) ho
    refine Means.shift (Means.deeper (fun c n hc => ?_) (means_evalCall hg (fun o => ih) h))
    exact hc.of_eq rfl (fun _ _ => rfl) rfl

end Evaluation

end Reckoner
