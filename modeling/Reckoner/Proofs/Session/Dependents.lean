import Reckoner.Proofs.Memory.Dependence
import Reckoner.Proofs.Operand.Occurs
import Reckoner.Proofs.Session.Effect

/-!
# What a changed name makes functions forget

`Context.Depends calls c base f`: the function `f` meets a condition, or it calls a function of `c`
that depends on it; `calls` says which calls count.

1. `Context.Forgot c n`: there is a set of names with `n` in it that is closed under referrers, and
   the functions that refer to the set remember nothing.  Invalidating a name gives this, and what a
   session does afterwards keeps it.
2. A successful line that changes the meaning of a name leaves it forgotten
   (`Session.Effect.forgot`).  So the functions that depend on it through free calls, which are
   calls of names that are no parameters, remember nothing (`Session.changed_name_is_forgotten`).
3. A call of a name that is also a parameter is no reference.  A function that makes such a call
   goes on remembering values of a former definition (`Session.parameter_call_is_remembered`).
-/

namespace Reckoner

/-! ## Dependence -/

namespace UserFunction

/-- The body calls the function of a name. -/
def Calls (f : UserFunction) (n : String) : Prop := ∃ body, f.body = some body ∧ body.Calls n

/-- The body calls the function of a name that is no parameter. -/
def CallsFreely (f : UserFunction) (n : String) : Prop := f.Calls n ∧ n ∉ f.params

/-- The body uses a variable that is no parameter. -/
def UsesFreely (f : UserFunction) (n : String) : Prop :=
  (∃ body, f.body = some body ∧ Operand.Occurs (.var n) body) ∧ n ∉ f.params

variable {f : UserFunction} {n : String}

theorem CallsFreely.mem_references (h : f.CallsFreely n) : n ∈ f.references := by
  obtain ⟨⟨body, hbody, hcalls⟩, hparams⟩ := h
  exact UserFunction.mem_references.2
    ⟨body, hbody, Operand.mem_references_iff.2 (.inr hcalls), hparams⟩

theorem UsesFreely.mem_references (h : f.UsesFreely n) : n ∈ f.references := by
  obtain ⟨⟨body, hbody, hoccurs⟩, hparams⟩ := h
  exact UserFunction.mem_references.2
    ⟨body, hbody, Operand.mem_references_iff.2 (.inl hoccurs), hparams⟩

end UserFunction

namespace Context

/-- A function meets a condition itself or through a function that it calls. -/
inductive Depends (calls : UserFunction → String → Prop) (c : Context)
    (base : UserFunction → Prop) : UserFunction → Prop where
  | direct {f : UserFunction} (meets : base f) : Depends calls c base f
  | through {f g : UserFunction} {name : String} (call : calls f name)
      (callee : c.user? name = some g) (depends : Depends calls c base g) : Depends calls c base f

/-! ## Forgotten names -/

/-- No function remembers anything that refers to a name, directly or through other functions. -/
def Forgot (c : Context) (n : String) : Prop :=
  ∃ names : Names, n ∈ names ∧ c.ClosedNames names ∧
    ∀ name f, c.user? name = some f → refersTo (.user f) names = true → f.memo = .empty

variable {c d : Context} {n : String}

@[simp] theorem refersTo_forget (f : Function) (names : Names) :
    refersTo f.forget names = refersTo f names := by
  cases f <;> rfl

theorem valueOf?_invalidate (c : Context) (name other : String) :
    (c.invalidate name).valueOf? other = c.valueOf? other := rfl

theorem ClosedNames.sheds {names : Names} (h : c.ClosedNames names) (hsheds : c.Sheds d) :
    d.ClosedNames names := by
  intro name g hg hrefers
  rcases hsheds name with hname | hname
  · exact h name g (hname ▸ hg) hrefers
  · rw [hname, Option.map_eq_some_iff] at hg
    obtain ⟨f, hf, rfl⟩ := hg
    rw [refersTo_forget] at hrefers
    exact h name f hf hrefers

theorem forgot_invalidate (c : Context) (n : String) : (c.invalidate n).Forgot n := by
  refine ⟨c.affected n, c.self_mem_affected n,
    (c.closedNames_affected n).sheds (c.sheds_invalidate n), fun name g hg hrefers => ?_⟩
  rw [user?_eq_some, function?_invalidate, Option.map_eq_some_iff] at hg
  obtain ⟨f, hf, hfg⟩ := hg
  split at hfg
  · cases f with
    | builtin b => cases hfg
    | user f =>
      cases hfg
      rfl
  · next hkept =>
    subst hfg
    exact absurd hrefers hkept

theorem forgot_invalidateAll (c : Context) (n : String) : c.invalidateAll.Forgot n := by
  refine ⟨c.affected n, c.self_mem_affected n,
    (c.closedNames_affected n).sheds c.sheds_invalidateAll, fun name g hg _ => ?_⟩
  rw [user?_invalidateAll, Option.map_eq_some_iff] at hg
  obtain ⟨f, -, rfl⟩ := hg
  rfl

namespace Forgot

theorem setVariable (h : c.Forgot n) (name : String) (value : Number) :
    (c.setVariable name value).Forgot n := h

theorem invalidate (h : c.Forgot n) (name : String) : (c.invalidate name).Forgot n := by
  obtain ⟨names, hn, hclosed, hempty⟩ := h
  refine ⟨names, hn, hclosed.sheds (c.sheds_invalidate name), fun other g hg hrefers => ?_⟩
  obtain ⟨f, hf, rfl | rfl⟩ := (c.sheds_invalidate name).exists_user? hg
  · exact hempty other g hf hrefers
  · rfl

/-- What depends on a forgotten name through free calls remembers nothing. -/
theorem memo_eq_empty (h : c.Forgot n) {base : UserFunction → Prop}
    (hbase : ∀ f, base f → n ∈ f.references) {name : String} {f : UserFunction}
    (hf : c.user? name = some f) (hdepends : Depends UserFunction.CallsFreely c base f) :
    f.memo = .empty := by
  obtain ⟨names, hn, hclosed, hempty⟩ := h
  refine hempty name f hf ?_
  clear hf
  induction hdepends with
  | direct hmeets => exact refersTo_iff.2 ⟨n, hbase _ hmeets, hn⟩
  | through hcall hcallee _ ih =>
    exact refersTo_iff.2 ⟨_, hcall.mem_references, hclosed _ _ (user?_eq_some.1 hcallee) ih⟩

end Forgot

end Context

/-! ## Lines that change a name -/

namespace Command

def DefinesFunction (n : String) : Command → Prop
  | .define (.function name _ _) => name = n
  | .define (.baseCase name _ _) => name = n
  | _ => False

/-- The command sets a variable; every value becomes that of `ans`. -/
def SetsVariable (n : String) : Command → Prop
  | .define (.var name _) => name = n ∨ "ans" = n
  | .evaluate _ => "ans" = n
  | _ => False

/-- A command defines a function, or the function of the name is another one afterwards. -/
def ChangesFunction (command : Command) (c d : Context) (n : String) : Prop :=
  command.DefinesFunction n ∨
    (d.function? n).map Function.forget ≠ (c.function? n).map Function.forget

/-- A command sets a variable, or the variable has another value or none afterwards. -/
def ChangesVariable (command : Command) (c d : Context) (n : String) : Prop :=
  command.SetsVariable n ∨ d.valueOf? n ≠ c.valueOf? n

def Changes (command : Command) (c d : Context) (n : String) : Prop :=
  command.ChangesFunction c d n ∨ command.ChangesVariable c d n

end Command

namespace Session

open Command

variable {c d : Context} {n : String}

/-- A command that has a name invalidated at its end and changes nothing elsewhere. -/
theorem forgot_of_elsewhere {command : Command} {name : String}
    (hn : command.Changes c (d.invalidate name) n)
    (hdefines : command.DefinesFunction n → name = n) (hsets : command.SetsVariable n → name = n)
    (hfunction : name ≠ n →
      (d.function? n).map Function.forget = (c.function? n).map Function.forget)
    (hvalue : name ≠ n → d.valueOf? n = c.valueOf? n) : (d.invalidate name).Forgot n := by
  by_cases hname : name = n
  · rw [hname]
    exact d.forgot_invalidate n
  · rcases hn with (h | h) | (h | h)
    · exact absurd (hdefines h) hname
    · exact absurd (((d.sheds_invalidate name).map_forget_eq n).trans (hfunction hname)) h
    · exact absurd (hsets h) hname
    · exact absurd (hvalue hname) h

theorem forgot_install {command : Command} {name : String} {f : Function}
    (hn : command.Changes c ((c.setFunction name f).invalidate name) n)
    (hdefines : command.DefinesFunction n → name = n) (hsets : ¬ command.SetsVariable n) :
    ((c.setFunction name f).invalidate name).Forgot n := by
  refine forgot_of_elsewhere hn hdefines (fun h => absurd h hsets) (fun hname => ?_) fun _ => rfl
  rw [Context.function?_setFunction, if_neg hname]

theorem not_changes_of_isQuiet {command : Command} (h : command.isQuiet = true) :
    ¬ command.Changes c c n := by
  cases command with
  | define definition => cases h
  | evaluate source => cases h
  | _ => rintro ((h | h) | (h | h)) <;> first | exact h | exact h rfl

/-- A name whose meaning a command changed is forgotten. -/
theorem Effect.forgot {command : Command} {output : String}
    (h : Effect c command (.ok output) d) (hn : command.Changes c d n) : d.Forgot n := by
  cases h with
  | quiet hquiet => exact absurd hn (not_changes_of_isQuiet hquiet)
  | function hfree hchecked _ => exact forgot_install hn id id
  | baseCase hfree harity => exact forgot_install hn id id
  | @var name _ _ d value hconstant hcommand hgrows =>
    by_cases hname : name = n
    · -- the name is forgotten first, and setting `ans` keeps it so
      rw [hname]
      exact ((Context.forgot_invalidate _ n).setVariable _ _).invalidate _
    · refine forgot_of_elsewhere hn False.elim (fun h => h.resolve_left hname) (fun _ => ?_)
        fun hans => ?_
      · calc _ = (d.function? n).map Function.forget :=
              ((d.setVariable name value).sheds_invalidate name).map_forget_eq n
          _ = (c.function? n).map Function.forget := hgrows.map_forget_eq n
      · rw [Context.valueOf?_setVariable, if_neg hans, Context.valueOf?_invalidate,
          Context.valueOf?_setVariable, if_neg hname, hgrows.valueOf?_eq]
  | value hgrows =>
    refine forgot_of_elsewhere hn False.elim id (fun _ => hgrows.map_forget_eq n) fun hans => ?_
    rw [Context.valueOf?_setVariable, if_neg hans, hgrows.valueOf?_eq]
  | eraseVariable hconstant =>
    refine forgot_of_elsewhere hn False.elim False.elim (fun _ => rfl) fun hname => ?_
    rw [Context.valueOf?_eraseVariable, if_neg hname]
  | eraseFunction hbuiltin =>
    refine forgot_of_elsewhere hn False.elim False.elim (fun hname => ?_) fun _ => rfl
    rw [Context.function?_eraseFunction, if_neg hname]
  | precision p => exact Context.forgot_invalidateAll _ n
  | reset => exact Context.forgot_invalidateAll _ n

/-- A line is answered without a fault. -/
def Succeeds (c : Context) (line : String) : Prop :=
  ∃ reply, ((execute line).run c).1 = .ok reply ∧ reply.kind = none

/-- **Changed names.** After a successful line that changes a function, the functions that call it
freely remember nothing, and neither do the functions that depend on one of these through free
calls.  After one that changes a variable, the same holds of the functions that use it freely. -/
theorem changed_name_is_forgotten (c : Context) (line n : String) (hsuccess : Succeeds c line) :
    let d := ((execute line).run c).2
    ((Command.ofLine line).ChangesFunction c d n → ∀ name f, d.user? name = some f →
      d.Depends UserFunction.CallsFreely (fun g => g.CallsFreely n) f → f.memo = .empty) ∧
    ((Command.ofLine line).ChangesVariable c d n → ∀ name f, d.user? name = some f →
      d.Depends UserFunction.CallsFreely (fun g => g.UsesFreely n) f → f.memo = .empty) := by
  intro d
  have hforgot : (Command.ofLine line).Changes c d n → d.Forgot n := by
    intro hn
    obtain ⟨reply, hreply, hkind⟩ := hsuccess
    rcases effect_execute hreply with ⟨-, output, heffect⟩ | ⟨hsome, -⟩
    · exact heffect.forgot hn
    · exact absurd hkind hsome
  constructor
  · intro hn name f hf hdepends
    refine (hforgot (.inl hn)).memo_eq_empty (fun g hg => ?_) hf hdepends
    exact hg.mem_references
  · intro hn name f hf hdepends
    refine (hforgot (.inr hn)).memo_eq_empty (fun g hg => ?_) hf hdepends
    exact hg.mem_references

/-! ### Callers -/

/-- The function whose call is the whole body. -/
def callee? (f : UserFunction) : Option String :=
  match f.body with
  | some (.call name _) => some name
  | _ => none

/-- The variable that is the whole body. -/
def returned? (f : UserFunction) : Option String :=
  match f.body with
  | some (.var name) => some name
  | _ => none

theorem calls_of_callee? {f : UserFunction} (h : callee? f = some n) : f.Calls n := by
  unfold callee? at h
  split at h
  · next name args hbody =>
    cases h
    exact ⟨_, hbody, args, .self⟩
  · cases h

theorem occurs_of_returned? {f : UserFunction} (h : returned? f = some n) :
    ∃ body, f.body = some body ∧ Operand.Occurs (.var n) body := by
  unfold returned? at h
  split at h
  · next name hbody =>
    cases h
    exact ⟨_, hbody, .self⟩
  · cases h

/-- What the body of a function consists of, and the parameters. -/
def shape (f : UserFunction) : Option String × Option String × List String :=
  (callee? f, returned? f, f.params)

theorem exists_callsFreely {name callee : String} {other : Option String} {params : List String}
    (h : (d.user? name).map shape = some (some callee, other, params)) (hfree : callee ∉ params) :
    ∃ f, d.user? name = some f ∧ f.CallsFreely callee := by
  obtain ⟨f, hf, hshape⟩ := Option.map_eq_some_iff.1 h
  simp only [shape, Prod.mk.injEq] at hshape
  exact ⟨f, hf, calls_of_callee? hshape.1, hshape.2.2 ▸ hfree⟩

theorem exists_usesFreely {name used : String} {other : Option String} {params : List String}
    (h : (d.user? name).map shape = some (other, some used, params)) (hfree : used ∉ params) :
    ∃ f, d.user? name = some f ∧ f.UsesFreely used := by
  obtain ⟨f, hf, hshape⟩ := Option.map_eq_some_iff.1 h
  simp only [shape, Prod.mk.injEq] at hshape
  exact ⟨f, hf, occurs_of_returned? hshape.2.1, hshape.2.2 ▸ hfree⟩

/-- A variable `a`, a function `f` that gives its value, a function `g` that calls `f`, and a
function `h` that calls `g` and remembers a value. -/
def callers : Context :=
  after (.fresh .standard) ["a=2", "f[t]=a", "g[t]=f[t]", "h[t]=g[t]", "h[3]"]

/-- Redefining `f` and setting `a` both reach the caller of the caller of `f`. -/
theorem changed_name_is_forgotten_by_callers :
    (callers.user? "h").map (fun h => h.memo.size) = some 1 ∧
      (∃ h, ((execute "f[t]=7").run callers).2.user? "h" = some h ∧ h.memo = .empty) ∧
      ∃ h, ((execute "a=5").run callers).2.user? "h" = some h ∧ h.memo = .empty := by
  refine ⟨by decide +kernel, ?_, ?_⟩
  · have hline : Command.ofLine "f[t]=7" = .define (.function "f" ["t"] "7") := by decide +kernel
    have hrun : ((execute "f[t]=7").run callers).1 = .ok (.ofOutput "f[t] := 7") ∧
        (((execute "f[t]=7").run callers).2.user? "h").map shape = some (some "g", none, ["t"]) ∧
        (((execute "f[t]=7").run callers).2.user? "g").map shape =
          some (some "f", none, ["t"]) := by decide +kernel
    obtain ⟨h, hh, hcalls⟩ := exists_callsFreely hrun.2.1 (by decide)
    obtain ⟨g, hg, hbase⟩ := exists_callsFreely hrun.2.2 (by decide)
    have hforgotten := changed_name_is_forgotten callers "f[t]=7" "f" ⟨_, hrun.1, rfl⟩
    exact ⟨h, hh, hforgotten.1 (.inl (hline ▸ rfl)) "h" h hh (.through hcalls hg (.direct hbase))⟩
  · have hline : Command.ofLine "a=5" = .define (.var "a" "5") := by decide +kernel
    have hrun : ((execute "a=5").run callers).1 = .ok (.ofOutput "a := 5") ∧
        (((execute "a=5").run callers).2.user? "h").map shape = some (some "g", none, ["t"]) ∧
        (((execute "a=5").run callers).2.user? "g").map shape = some (some "f", none, ["t"]) ∧
        (((execute "a=5").run callers).2.user? "f").map shape =
          some (none, some "a", ["t"]) := by decide +kernel
    obtain ⟨h, hh, hcalls⟩ := exists_callsFreely hrun.2.1 (by decide)
    obtain ⟨g, hg, hcalls'⟩ := exists_callsFreely hrun.2.2.1 (by decide)
    obtain ⟨f, hf, hbase⟩ := exists_usesFreely hrun.2.2.2 (by decide)
    have hforgotten := changed_name_is_forgotten callers "a=5" "a" ⟨_, hrun.1, rfl⟩
    exact ⟨h, hh, hforgotten.2 (.inl (hline ▸ .inl rfl)) "h" h hh
      (.through hcalls hg (.through hcalls' hf (.direct hbase)))⟩

/-- A function that calls the function `x` and has a parameter `x` as well remembers its value from
before `x` was redefined, and goes on giving it. -/
theorem parameter_call_is_remembered :
    let c := after (.fresh .standard) ["f[x]=x[1]", "x[y]=y", "f[2]"]
    let d := ((execute "x[y]=y*10").run c).2
    Succeeds c "x[y]=y*10" ∧ (Command.ofLine "x[y]=y*10").ChangesFunction c d "x" ∧
      (∃ f, d.user? "f" = some f ∧
        d.Depends UserFunction.Calls (fun g => g.Calls "x") f ∧ f.memo ≠ .empty) ∧
      ((execute "f[2]").run d).1 = .ok (.ofOutput "1") ∧
      ((execute "f[2]").run d.invalidateAll).1 = .ok (.ofOutput "10") := by
  intro c d
  have hline : Command.ofLine "x[y]=y*10" = .define (.function "x" ["y"] "y*10") := by
    decide +kernel
  have hrun : ((execute "x[y]=y*10").run c).1 = .ok (.ofOutput "x[y] := y*10") ∧
      (d.user? "f").map (fun f => (callee? f, f.memo.find? [2])) = some (some "x", some 1) ∧
      ((execute "f[2]").run d).1 = .ok (.ofOutput "1") ∧
      ((execute "f[2]").run d.invalidateAll).1 = .ok (.ofOutput "10") := by decide +kernel
  obtain ⟨hreply, hmap, hstale⟩ := hrun
  obtain ⟨f, hf, hshape⟩ := Option.map_eq_some_iff.1 hmap
  rw [Prod.mk.injEq] at hshape
  refine ⟨⟨_, hreply, rfl⟩, .inl (hline ▸ rfl),
    ⟨f, hf, .direct (calls_of_callee? hshape.1), fun hempty => ?_⟩, hstale⟩
  rw [hempty, Table.find?_empty] at hshape
  cases hshape.2

end Session

end Reckoner
