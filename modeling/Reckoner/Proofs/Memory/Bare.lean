import Mathlib.Tactic.Common
import Reckoner.Action

/-!
# Contexts without what functions remember

`Context.invalidateAll` takes away what the functions of a context remember.  It does not change
anything else that can be read, and what is done to variables and functions can as well be done
after it.  Where only some functions forget, the contexts are related by `Context.Sheds`.
`Context.bare` also takes away how deep calls are and the source of digits, which the meaning of an
operand does not hang on either.
-/

namespace Reckoner

namespace UserFunction

@[simp] theorem params_forget (f : UserFunction) : f.forget.params = f.params := rfl

@[simp] theorem body_forget (f : UserFunction) : f.forget.body = f.body := rfl

@[simp] theorem references_forget (f : UserFunction) : f.forget.references = f.references := rfl

end UserFunction

namespace Function

@[simp] theorem forget_forget (f : Function) : f.forget.forget = f.forget := by
  cases f <;> rfl

@[simp] theorem references_forget (f : Function) : f.forget.references = f.references := by
  cases f <;> rfl

@[simp] theorem user?_forget (f : Function) : f.forget.user? = f.user?.map UserFunction.forget := by
  cases f <;> rfl

end Function

namespace Context

variable (c : Context)

/-! ## What can be read -/

theorem user?_eq_some {c : Context} {n : String} {f : UserFunction} :
    c.user? n = some f ↔ c.function? n = some (.user f) := by
  unfold user?
  cases c.function? n with
  | none => simp
  | some h =>
    cases h with
    | builtin b => simp [Function.user?]
    | user h => simp [Function.user?]

theorem user?_updateUser (name other : String)
    (change : UserFunction → UserFunction) :
    (c.updateUser name change).user? other =
      if name = other then (c.user? other).map change else c.user? other := by
  unfold updateUser
  split
  · next f hf =>
    unfold user?
    rw [function?_setFunction]
    by_cases h : name = other
    · subst h
      have hf' : (c.function? name).bind Function.user? = some f := hf
      simp [hf', Function.user?]
    · simp [h]
  · next hf =>
    by_cases h : name = other
    · subst h
      simp [hf]
    · simp [h]

@[simp] theorem function?_invalidateAll (name : String) :
    c.invalidateAll.function? name = (c.function? name).map Function.forget := by
  simp [invalidateAll, function?]

@[simp] theorem user?_invalidateAll (name : String) :
    c.invalidateAll.user? name = (c.user? name).map UserFunction.forget := by
  unfold user?
  rw [function?_invalidateAll]
  cases c.function? name with
  | none => rfl
  | some f => simp

theorem hasFunction_eq (name : String) : c.hasFunction name = (c.function? name).isSome :=
  Std.ExtTreeMap.contains_eq_isSome_getElem?

theorem hasVariable_eq (name : String) : c.hasVariable name = (c.valueOf? name).isSome :=
  Std.ExtTreeMap.contains_eq_isSome_getElem?

@[simp] theorem hasFunction_invalidateAll (name : String) :
    c.invalidateAll.hasFunction name = c.hasFunction name := by
  rw [hasFunction_eq, hasFunction_eq, function?_invalidateAll, Option.isSome_map]

@[simp] theorem precision_invalidateAll : c.invalidateAll.precision = c.precision := rfl

@[simp] theorem isTaken_invalidateAll (name : String) :
    c.invalidateAll.isTaken name = c.isTaken name := by
  unfold isTaken
  rw [hasFunction_invalidateAll]
  rfl

theorem ext_of_function? {c d : Context} (hvars : c.vars = d.vars)
    (hfunctions : ∀ name, c.function? name = d.function? name)
    (hnumerics : c.numerics = d.numerics) (hceiling : c.ceiling = d.ceiling)
    (hdepth : c.depth = d.depth) (hchance : c.chance = d.chance) : c = d := by
  have hmap : c.functions = d.functions := Std.ExtTreeMap.ext_getElem? hfunctions
  obtain ⟨vars, functions, numerics, ceiling, depth, chance⟩ := c
  simp only at hvars hmap hnumerics hceiling hdepth hchance
  rw [hvars, hmap, hnumerics, hceiling, hdepth, hchance]

/-! ## What can be changed -/

theorem invalidateAll_congr {c d : Context} (hvars : c.vars = d.vars)
    (hfunctions : ∀ name, (c.function? name).map Function.forget =
      (d.function? name).map Function.forget) (hnumerics : c.numerics = d.numerics)
    (hceiling : c.ceiling = d.ceiling) (hdepth : c.depth = d.depth)
    (hchance : c.chance = d.chance) :
    c.invalidateAll = d.invalidateAll := by
  refine ext_of_function? hvars (fun name => ?_) hnumerics hceiling hdepth hchance
  rw [function?_invalidateAll, function?_invalidateAll, hfunctions]

/-- Some functions of a context may have forgotten what they remembered. -/
def Sheds (c d : Context) : Prop :=
  ∀ name, d.function? name = c.function? name ∨
    d.function? name = (c.function? name).map Function.forget

theorem sheds_invalidateAll : c.Sheds c.invalidateAll :=
  fun name => .inr (c.function?_invalidateAll name)

theorem Sheds.map_forget_eq {c d : Context} (h : c.Sheds d) (name : String) :
    (d.function? name).map Function.forget = (c.function? name).map Function.forget := by
  rcases h name with h | h
  · rw [h]
  · rw [h, Option.map_map]
    exact congrArg (fun f => (c.function? name).map f) (funext Function.forget_forget)

theorem Sheds.exists_user? {c d : Context} (h : c.Sheds d) {name : String} {g : UserFunction}
    (hg : d.user? name = some g) : ∃ f, c.user? name = some f ∧ (g = f ∨ g = f.forget) := by
  unfold user? at hg ⊢
  rcases h name with h | h
  · exact ⟨g, h ▸ hg, .inl rfl⟩
  · rw [h] at hg
    cases hf : c.function? name with
    | none =>
      rw [hf] at hg
      cases hg
    | some f =>
      rw [hf, Option.map_some, Option.bind_some, Function.user?_forget,
        Option.map_eq_some_iff] at hg
      obtain ⟨f', hf', rfl⟩ := hg
      exact ⟨f', hf', .inr rfl⟩

theorem map_forget_invalidateAll (name : String) :
    (c.invalidateAll.function? name).map Function.forget =
      (c.function? name).map Function.forget :=
  c.sheds_invalidateAll.map_forget_eq name

@[simp] theorem invalidateAll_invalidateAll : c.invalidateAll.invalidateAll = c.invalidateAll :=
  invalidateAll_congr rfl (fun name => c.map_forget_invalidateAll name) rfl rfl rfl rfl

theorem setVariable_invalidateAll (name : String) (value : Number) :
    c.invalidateAll.setVariable name value = (c.setVariable name value).invalidateAll := rfl

theorem eraseVariable_invalidateAll (name : String) :
    c.invalidateAll.eraseVariable name = (c.eraseVariable name).invalidateAll := rfl

theorem restore_invalidateAll (saved : String × Option Number) :
    c.invalidateAll.restore saved = (c.restore saved).invalidateAll := by
  unfold restore
  split <;> rfl

theorem close_invalidateAll (scope : Scope) :
    c.invalidateAll.close scope = (c.close scope).invalidateAll := by
  induction scope generalizing c with
  | nil => rfl
  | cons saved scope ih =>
    show (c.invalidateAll.restore saved).close scope = ((c.restore saved).close scope).invalidateAll
    rw [restore_invalidateAll, ih]

theorem updateUser_remember (name : String) (args : List Number) (value : Number) :
    (c.updateUser name (fun f => f.remember args value)).invalidateAll = c.invalidateAll := by
  unfold updateUser
  split
  · next f hf =>
    refine invalidateAll_congr rfl (fun other => ?_) rfl rfl rfl rfl
    rw [function?_setFunction]
    split
    · next h =>
      subst h
      unfold user? at hf
      cases hfun : c.function? name with
      | none => rw [hfun] at hf; cases hf
      | some g =>
        rw [hfun] at hf
        cases g with
        | builtin b => cases hf
        | user g =>
          cases hf
          rfl
    · rfl
  · rfl

theorem function?_invalidate (name other : String) :
    (c.invalidate name).function? other =
      (c.function? other).map (fun f => if refersTo f (c.affected name) then f.forget else f) := by
  simp [invalidate, function?]

theorem sheds_invalidate (name : String) : c.Sheds (c.invalidate name) := by
  intro other
  rw [function?_invalidate]
  cases c.function? other with
  | none => exact .inl rfl
  | some f =>
    rw [Option.map_some, Option.map_some]
    split
    · exact .inr rfl
    · exact .inl rfl

theorem invalidate_invalidateAll (name : String) :
    (c.invalidate name).invalidateAll = c.invalidateAll := by
  exact invalidateAll_congr rfl (c.sheds_invalidate name).map_forget_eq rfl rfl rfl rfl

/-! ## Bare contexts -/

/-- The context without what functions remember, without the depth of calls and without chance. -/
def bare : Context :=
  { c.invalidateAll with ceiling := 0, depth := 0, chance := fun _ => ⟨0, Nat.zero_lt_succ 9⟩ }

theorem bare_of_invalidateAll_eq {c d : Context} (h : c.invalidateAll = d.invalidateAll) :
    c.bare = d.bare := by
  unfold bare
  rw [h]

@[simp] theorem function?_bare (name : String) :
    c.bare.function? name = (c.function? name).map Function.forget :=
  c.function?_invalidateAll name

@[simp] theorem user?_bare (name : String) :
    c.bare.user? name = (c.user? name).map UserFunction.forget :=
  c.user?_invalidateAll name

@[simp] theorem valueOf?_bare (name : String) : c.bare.valueOf? name = c.valueOf? name := rfl

@[simp] theorem hasFunction_bare (name : String) : c.bare.hasFunction name = c.hasFunction name :=
  c.hasFunction_invalidateAll name

@[simp] theorem isTaken_bare (name : String) : c.bare.isTaken name = c.isTaken name :=
  c.isTaken_invalidateAll name

theorem bindAll_bare (scope : Scope) (bindings : List (String × Number)) :
    c.bare.bindAll scope bindings =
      ((c.bindAll scope bindings).1, (c.bindAll scope bindings).2.bare) := by
  induction bindings generalizing c scope with
  | nil => rfl
  | cons binding bindings ih => exact ih (c.setVariable binding.1 binding.2) _

end Context

end Reckoner
