import Reckoner.Proofs.Memory.Bare
import Reckoner.Proofs.Session.Steps

/-!
# Actions that do not look at memory

`Action.Blind act`: in contexts that only differ in what functions remember, the action gives the
same result and leaves contexts that only differ in that.  All that a session does apart from
evaluation is blind.
-/

namespace Reckoner

namespace Action

variable {α β : Type}

/-- The same result in two contexts, and contexts afterwards that only differ in memory. -/
structure SameIn (act : Action α) (c d : Context) : Prop where
  result : (act.run c).1 = (act.run d).1
  state : (act.run c).2.invalidateAll = (act.run d).2.invalidateAll

/-- The action does not look at memory. -/
def Blind (act : Action α) : Prop :=
  ∀ c d : Context, c.invalidateAll = d.invalidateAll → SameIn act c d

theorem Blind.pure (a : α) : Blind (Pure.pure a : Action α) := fun _ _ h => ⟨rfl, h⟩

theorem Blind.fail (fault : Fault) : Blind (Action.fail fault : Action α) := fun _ _ h => ⟨rfl, h⟩

theorem Blind.ofExcept (x : Except Fault α) : Blind (Action.ofExcept x) := fun _ _ h => ⟨rfl, h⟩

/-- A change that can as well be made after all is forgotten. -/
theorem Blind.change {f : Context → Context}
    (h : ∀ c : Context, (f c).invalidateAll = (f c.invalidateAll).invalidateAll) :
    Blind (Action.change f) := by
  intro c d hcd
  refine ⟨rfl, ?_⟩
  show (f c).invalidateAll = (f d).invalidateAll
  rw [h c, h d, hcd]

/-- What is read from the context may be read after all is forgotten. -/
theorem Blind.context_bind {next : Context → Action β}
    (hread : ∀ c : Context, next c.invalidateAll = next c) (hnext : ∀ c, Blind (next c)) :
    Blind (Action.context >>= next) := by
  intro c d hcd
  have heq : next d = next c := by rw [← hread d, ← hcd, hread c]
  have hsame := hnext c c d hcd
  refine ⟨?_, ?_⟩
  · rw [run_context_bind, run_context_bind, heq]
    exact hsame.result
  · rw [run_context_bind, run_context_bind, heq]
    exact hsame.state

/-- One action after another, where the second one does not look at memory. -/
theorem SameIn.bind {act : Action α} {next : α → Action β} {c d : Context} (h : SameIn act c d)
    (hnext : ∀ a, Blind (next a)) : SameIn (act >>= next) c d := by
  obtain ⟨hresult, hstate⟩ := h
  rcases hc : act.run c with ⟨r, c'⟩
  rcases hd : act.run d with ⟨r', d'⟩
  rw [hc, hd] at hresult hstate
  simp only at hresult hstate
  subst hresult
  cases r with
  | error fault => exact ⟨by rw [run_bind_of_error hc, run_bind_of_error hd],
      by rw [run_bind_of_error hc, run_bind_of_error hd]; exact hstate⟩
  | ok a =>
    have hsame := hnext a c' d' hstate
    exact ⟨by rw [run_bind_of_ok hc, run_bind_of_ok hd]; exact hsame.result,
      by rw [run_bind_of_ok hc, run_bind_of_ok hd]; exact hsame.state⟩

theorem Blind.bind {act : Action α} {next : α → Action β} (h : Blind act)
    (hnext : ∀ a, Blind (next a)) : Blind (act >>= next) :=
  fun c d hcd => (h c d hcd).bind hnext

end Action

open Reckoner.Action

/-! ## Listings -/

namespace Function

theorem descriptionLines_forget (p : Precision) (name : String) (f : Function) :
    f.forget.descriptionLines p name = f.descriptionLines p name := by
  cases f <;> rfl

end Function

namespace Context

variable (c : Context)

theorem functionLines_invalidateAll (test : String → Bool) :
    c.invalidateAll.functionLines test = c.functionLines test := by
  unfold functionLines
  rw [show c.invalidateAll.functions.toList =
    c.functions.toList.map (fun entry => (entry.1, entry.2.forget)) from Std.ExtTreeMap.toList_map]
  rw [List.filter_map, List.flatMap_map]
  simp only [Function.descriptionLines_forget, precision_invalidateAll]
  rfl

@[simp] theorem listing_invalidateAll : c.invalidateAll.listing = c.listing := by
  unfold listing listingLines
  rw [functionLines_invalidateAll, functionLines_invalidateAll]
  rfl

/-! ## Changes -/

theorem setFunction_invalidateAll (name : String) (f : Function) :
    (c.setFunction name f).invalidateAll = (c.invalidateAll.setFunction name f).invalidateAll := by
  refine invalidateAll_congr rfl (fun other => ?_) rfl rfl rfl rfl
  rw [function?_setFunction, function?_setFunction]
  split
  · rfl
  · exact (c.map_forget_invalidateAll other).symm

theorem eraseFunction_invalidateAll (name : String) :
    (c.eraseFunction name).invalidateAll = (c.invalidateAll.eraseFunction name).invalidateAll := by
  refine invalidateAll_congr rfl (fun other => ?_) rfl rfl rfl rfl
  rw [function?_eraseFunction, function?_eraseFunction]
  split
  · rfl
  · exact (c.map_forget_invalidateAll other).symm

theorem function?_reset (name : String) :
    c.reset.function? name =
      if Builtin.isName name then (c.function? name).map Function.forget else none := by
  unfold reset
  rw [function?_invalidateAll]
  have hfilter : (c.functions.filter (fun name _ => Builtin.isName name))[name]? =
      if Builtin.isName name then c.functions[name]? else none := by
    rw [Std.ExtTreeMap.getElem?_filter']
    cases c.functions[name]? with
    | none => simp
    | some f => simp [Option.filter]
  show ((c.functions.filter (fun name _ => Builtin.isName name))[name]?).map _ = _
  rw [hfilter]
  split <;> rfl

theorem reset_invalidateAll : c.reset.invalidateAll = c.invalidateAll.reset.invalidateAll := by
  refine invalidateAll_congr rfl (fun other => ?_) rfl rfl rfl rfl
  rw [function?_reset, function?_reset]
  split
  · rw [map_forget_invalidateAll]
  · rfl

theorem setPrecision_invalidateAll (p : Precision) :
    (c.setPrecision p).invalidateAll = (c.invalidateAll.setPrecision p).invalidateAll := by
  refine congrArg invalidateAll ?_
  show _ = ((c.rescale p).invalidateAll).invalidateAll
  rw [invalidateAll_invalidateAll]
  rfl

end Context

/-- A change with what depends on a name forgotten afterwards. -/
theorem Action.Blind.change_invalidate {f : Context → Context} (name : String)
    (h : ∀ c : Context, (f c).invalidateAll = (f c.invalidateAll).invalidateAll) :
    Blind (Action.change fun c => (f c).invalidate name) := by
  refine .change fun c => ?_
  rw [Context.invalidate_invalidateAll, Context.invalidate_invalidateAll, h]

namespace Session

/-! ## Definitions -/

theorem checkParams_invalidateAll (c : Context) (function : String) (seen params : List String) :
    checkParams c.invalidateAll function seen params = checkParams c function seen params :=
  checkParams_congr function (fun param _ => c.isTaken_invalidateAll param) seen

theorem redefine_map_forget (former : Option UserFunction) (params : List String) (body : Operand) :
    redefine (former.map UserFunction.forget) params body = redefine former params body := by
  cases former <;> rfl

theorem blind_install (name : String) (f : UserFunction) : Blind (install name f) := by
  refine (Blind.change_invalidate name fun c => c.setFunction_invalidateAll name (.user f)).bind
    fun _ => ?_
  exact .context_bind (fun _ => rfl) fun _ => .pure _

theorem blind_compile (source : String) : Blind (Evaluation.compile source) :=
  .context_bind (fun _ => rfl) fun _ => .ofExcept _

theorem blind_defineFunction (name : String) (params : List String) (body : String) :
    Blind (defineFunction name params body) := by
  unfold defineFunction
  split
  · exact .fail _
  · refine .context_bind (fun c => ?_) fun c => ?_
    · rw [checkParams_invalidateAll, Context.user?_invalidateAll]
      simp only [redefine_map_forget]
    · split
      · exact .fail _
      · exact (blind_compile body).bind fun o => blind_install name _

theorem blind_defineBaseCase (name : String) (args : List String) (value : String) :
    Blind (defineBaseCase name args value) := by
  unfold defineBaseCase
  split
  · exact .fail _
  · refine .context_bind (fun c => ?_) fun c => ?_
    · -- the host may remember values, but it is made to forget them before it is installed
      rw [Context.user?_invalidateAll]
      cases c.user? name with
      | none => rfl
      | some f => rfl
    · refine (Blind.ofExcept _).bind fun args => (Blind.ofExcept _).bind fun value => ?_
      dsimp only
      split
      · exact .fail _
      · exact blind_install name _

theorem blind_assign (name : String) (value : Number) : Blind (assign name value) := by
  refine .change_invalidate name fun c => ?_
  rw [Context.setVariable_invalidateAll, Context.invalidateAll_invalidateAll]

/-! ## Commands -/

theorem blind_delete (name : String) : Blind (delete name) := by
  refine .context_bind (fun c => ?_) fun c => ?_
  · rw [Context.hasFunction_invalidateAll]
    rfl
  · split
    · split
      · exact .pure _
      · refine (Blind.change_invalidate name fun c => ?_).bind fun _ => .pure _
        rw [Context.eraseVariable_invalidateAll, Context.invalidateAll_invalidateAll]
    · split
      · split
        · exact .pure _
        · exact (Blind.change_invalidate name fun c => c.eraseFunction_invalidateAll name).bind
            fun _ => .pure _
      · exact .pure _

theorem blind_setPrecision (word : String) : Blind (setPrecision word) := by
  unfold setPrecision
  split
  · exact .pure _
  · exact (Blind.change fun c => c.setPrecision_invalidateAll _).bind fun _ => .pure _

theorem blind_perform {command : Command} (h : command.source? = none) :
    Blind (perform command) := by
  cases command with
  | nothing => exact .pure _
  | exit => exact .pure _
  | delete name => exact blind_delete name
  | deleteUsage => exact .pure _
  | showPrecision => exact .context_bind (fun _ => rfl) fun _ => .pure _
  | setPrecision word => exact blind_setPrecision word
  | precisionUsage => exact .pure _
  | tooLong => exact .fail _
  | reset => exact (Blind.change fun c => c.reset_invalidateAll).bind fun _ => .pure _
  | help => exact .pure _
  | environment =>
    refine .context_bind (fun c => ?_) fun _ => .pure _
    rw [Context.listing_invalidateAll]
  | define definition =>
    cases definition with
    | function name params body => cases h
    | baseCase name args value => exact blind_defineBaseCase name args value
    | var name value => cases h
  | evaluate source => cases h

end Session

end Reckoner
