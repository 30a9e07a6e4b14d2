import Reckoner.Proofs.Memory.Bare

/-!
# Contexts that only gained memory

`Context.Grows c d`: `d` has the variables, the numerics, the depth and the definitions of `c`, and
its functions remember what they remembered in `c` and possibly more.  What is new in memory belongs
to a function with a body, has as many arguments as the function and is not one of its base cases.

Growth is reflexive and transitive, and it does not get lost when a variable is set, erased or
restored on both sides.
-/

namespace Reckoner

/-! ## Functions -/

/-- A function is another one that may remember more. -/
structure UserFunction.Grows (f g : UserFunction) : Prop where
  params : g.params = f.params
  body : g.body = f.body
  references : g.references = f.references
  baseCases : g.baseCases = f.baseCases
  kept : ∀ args value, f.memo.find? args = some value → g.memo.find? args = some value
  gained : ∀ args value, g.memo.find? args = some value → f.memo.find? args = some value ∨
    args.length = f.arity ∧ f.baseCases.find? args = none ∧ f.body ≠ none

namespace UserFunction.Grows

variable {f g h : UserFunction}

theorem refl (f : UserFunction) : f.Grows f :=
  ⟨rfl, rfl, rfl, rfl, fun _ _ h => h, fun _ _ h => .inl h⟩

theorem trans (hfg : f.Grows g) (hgh : g.Grows h) : f.Grows h where
  params := hgh.params.trans hfg.params
  body := hgh.body.trans hfg.body
  references := hgh.references.trans hfg.references
  baseCases := hgh.baseCases.trans hfg.baseCases
  kept args value hf := hgh.kept args value (hfg.kept args value hf)
  gained args value hh := by
    rcases hgh.gained args value hh with hg | ⟨hlength, hbase, hbody⟩
    · exact hfg.gained args value hg
    · rw [arity, hfg.params] at hlength
      rw [hfg.baseCases] at hbase
      rw [hfg.body] at hbody
      exact .inr ⟨hlength, hbase, hbody⟩

/-- A value may be remembered at arguments for which nothing was known at first, also if the
function came to remember one there in the meantime. -/
theorem remember (hfg : f.Grows g) {args : List Number} (hlength : args.length = f.arity)
    (hbase : f.baseCases.find? args = none) (hmemo : f.memo.find? args = none)
    (hbody : f.body ≠ none) (value : Number) : f.Grows (g.remember args value) where
  params := hfg.params
  body := hfg.body
  references := hfg.references
  baseCases := hfg.baseCases
  kept key old hold := by
    have hne : args ≠ key := by
      rintro rfl
      rw [hmemo] at hold
      cases hold
    show (g.memo.put args value).find? key = some old
    rw [Table.find?_put, if_neg hne]
    exact hfg.kept key old hold
  gained key new hnew := by
    by_cases heq : args = key
    · subst heq
      exact .inr ⟨hlength, hbase, hbody⟩
    · refine hfg.gained key new ?_
      rwa [show (g.remember args value).memo = g.memo.put args value from rfl, Table.find?_put,
        if_neg heq] at hnew

theorem forget_eq (hfg : f.Grows g) : g.forget = f.forget := by
  obtain ⟨params, body, baseCases, memo⟩ := f
  obtain ⟨params', body', baseCases', memo'⟩ := g
  obtain ⟨rfl, rfl, -, rfl, -, -⟩ := hfg
  rfl

end UserFunction.Grows

/-- A function is another one, which may remember more if the user defined it. -/
inductive Function.Grows : Function → Function → Prop where
  | builtin (b : Builtin) : Grows (.builtin b) (.builtin b)
  | user {f g : UserFunction} (h : f.Grows g) : Grows (.user f) (.user g)

namespace Function.Grows

theorem refl : (f : Function) → f.Grows f
  | .builtin b => .builtin b
  | .user f => .user (.refl f)

theorem trans {f g h : Function} (hfg : f.Grows g) (hgh : g.Grows h) : f.Grows h := by
  cases hfg with
  | builtin b => exact hgh
  | user hfg =>
    cases hgh with
    | user hgh => exact .user (hfg.trans hgh)

theorem forget_eq {f g : Function} (h : f.Grows g) : g.forget = f.forget := by
  cases h with
  | builtin b => rfl
  | user h => exact congrArg Function.user h.forget_eq

end Function.Grows

/-! ## Contexts -/

/-- A context is another one in which functions may remember more. -/
structure Context.Grows (c d : Context) : Prop where
  vars : d.vars = c.vars
  numerics : d.numerics = c.numerics
  ceiling : d.ceiling = c.ceiling
  depth : d.depth = c.depth
  functions : ∀ name, Option.Rel Function.Grows (c.function? name) (d.function? name)

namespace Context

variable {c d d' : Context}

theorem grows_of_functions_eq (hvars : d.vars = c.vars) (hnumerics : d.numerics = c.numerics)
    (hceiling : d.ceiling = c.ceiling) (hdepth : d.depth = c.depth)
    (hfunctions : d.functions = c.functions) : c.Grows d := by
  refine ⟨hvars, hnumerics, hceiling, hdepth, fun name => ?_⟩
  rw [function?, function?, hfunctions]
  cases c.functions[name]? with
  | none => exact .none
  | some f => exact .some (.refl f)

namespace Grows

theorem refl (c : Context) : c.Grows c := grows_of_functions_eq rfl rfl rfl rfl rfl

theorem trans (h : c.Grows d) (h' : d.Grows d') : c.Grows d' where
  vars := h'.vars.trans h.vars
  numerics := h'.numerics.trans h.numerics
  ceiling := h'.ceiling.trans h.ceiling
  depth := h'.depth.trans h.depth
  functions name := by
    have hc := h.functions name
    have hd := h'.functions name
    cases hf : c.function? name with
    | none =>
      rw [hf] at hc
      generalize d.function? name = x at hc hd
      cases hc
      exact hd
    | some f =>
      rw [hf] at hc
      generalize d.function? name = x at hc hd
      cases hc with
      | some hfg =>
        generalize d'.function? name = y at hd
        cases hd with
        | some hgh => exact .some (hfg.trans hgh)

theorem valueOf?_eq (h : c.Grows d) (name : String) : d.valueOf? name = c.valueOf? name := by
  rw [valueOf?, valueOf?, h.vars]

theorem map_forget_eq (h : c.Grows d) (name : String) :
    (d.function? name).map Function.forget = (c.function? name).map Function.forget := by
  have hname := h.functions name
  generalize c.function? name = x at hname ⊢
  generalize d.function? name = y at hname ⊢
  cases hname with
  | none => rfl
  | some hfg => exact congrArg some hfg.forget_eq

theorem exists_user? (h : c.Grows d) {name : String} {f : UserFunction}
    (hf : c.user? name = some f) : ∃ g, d.user? name = some g ∧ f.Grows g := by
  have hname := h.functions name
  unfold user? at hf ⊢
  generalize c.function? name = x at hname hf
  generalize d.function? name = y at hname ⊢
  cases hname with
  | none => cases hf
  | some hfg =>
    cases hfg with
    | builtin b => cases hf
    | user hfg =>
      cases hf
      exact ⟨_, rfl, hfg⟩

theorem exists_user?_before (h : c.Grows d) {name : String} {g : UserFunction}
    (hg : d.user? name = some g) : ∃ f, c.user? name = some f ∧ f.Grows g := by
  have hname := h.functions name
  unfold user? at hg ⊢
  generalize d.function? name = y at hname hg
  generalize c.function? name = x at hname ⊢
  cases hname with
  | none => cases hg
  | some hfg =>
    cases hfg with
    | builtin b => cases hg
    | user hfg =>
      cases hg
      exact ⟨_, rfl, hfg⟩

theorem function?_builtin (h : c.Grows d) {name : String} {b : Builtin}
    (hb : c.function? name = some (.builtin b)) : d.function? name = some (.builtin b) := by
  have hname := h.functions name
  rw [hb] at hname
  generalize d.function? name = x at hname ⊢
  cases hname with
  | some hgrows =>
    cases hgrows
    rfl

theorem hasFunction_eq (h : c.Grows d) (name : String) :
    d.hasFunction name = c.hasFunction name := by
  rw [Context.hasFunction_eq, Context.hasFunction_eq, ← Option.isSome_map (f := Function.forget),
    h.map_forget_eq name, Option.isSome_map]

theorem isTaken_eq (h : c.Grows d) (name : String) : d.isTaken name = c.isTaken name := by
  unfold isTaken
  rw [h.hasFunction_eq, hasVariable_eq, hasVariable_eq, h.valueOf?_eq]

/-! ### Variables and scopes -/

theorem setVariable (h : c.Grows d) (name : String) (value : Number) :
    (c.setVariable name value).Grows (d.setVariable name value) :=
  ⟨congrArg (fun vars => vars.insert name value) h.vars, h.numerics, h.ceiling, h.depth,
    h.functions⟩

theorem eraseVariable (h : c.Grows d) (name : String) :
    (c.eraseVariable name).Grows (d.eraseVariable name) :=
  ⟨congrArg (fun vars => vars.erase name) h.vars, h.numerics, h.ceiling, h.depth, h.functions⟩

theorem restore (h : c.Grows d) (saved : String × Option Number) :
    (c.restore saved).Grows (d.restore saved) := by
  obtain ⟨name, old⟩ := saved
  cases old with
  | none => exact h.eraseVariable name
  | some value => exact h.setVariable name value

theorem close (h : c.Grows d) (scope : Scope) : (c.close scope).Grows (d.close scope) := by
  induction scope generalizing c d with
  | nil => exact h
  | cons saved scope ih => exact ih (h.restore saved)

theorem leave {c d : Context} (h : Grows { c with depth := c.depth + 1 } d) : c.Grows d.leave := by
  refine ⟨h.vars, h.numerics, h.ceiling, ?_, h.functions⟩
  show d.depth - 1 = c.depth
  rw [h.depth]
  rfl

/-- A user function may remember a value where it knew none. -/
theorem remember (h : c.Grows d) {name : String} {f : UserFunction} (hf : c.user? name = some f)
    {args : List Number} (hlength : args.length = f.arity)
    (hbase : f.baseCases.find? args = none) (hmemo : f.memo.find? args = none)
    (hbody : f.body ≠ none) (value : Number) :
    c.Grows (d.updateUser name (fun f => f.remember args value)) := by
  obtain ⟨g, hg, hfg⟩ := h.exists_user? hf
  have hupdate : d.updateUser name (fun f => f.remember args value) =
      d.setFunction name (.user (g.remember args value)) := by
    unfold updateUser
    rw [hg]
  rw [hupdate]
  refine ⟨h.vars, h.numerics, h.ceiling, h.depth, fun other => ?_⟩
  rw [function?_setFunction]
  split
  · next heq =>
    subst heq
    rw [user?_eq_some.1 hf]
    exact .some (.user (hfg.remember hlength hbase hmemo hbody value))
  · exact h.functions other

end Grows

end Context

end Reckoner
