import Reckoner.Context.Basic

/-!
# Binding scopes

A scope binds names among the variables and keeps what they were before.  Closing it undoes the
bindings from the last to the first.
-/

namespace Reckoner

/-- What the names bound in a scope were before, the last binding first. -/
abbrev Scope := List (String × Option Number)

namespace Context

def restore (c : Context) (saved : String × Option Number) : Context :=
  match saved.2 with
  | some value => c.setVariable saved.1 value
  | none => c.eraseVariable saved.1

def bind (c : Context) (scope : Scope) (name : String) (value : Number) : Scope × Context :=
  ((name, c.valueOf? name) :: scope, c.setVariable name value)

/-- Binds names in a scope, one after the other. -/
def bindAll (c : Context) (scope : Scope) : List (String × Number) → Scope × Context
  | [] => (scope, c)
  | (name, value) :: rest =>
    let (scope, c) := c.bind scope name value
    c.bindAll scope rest

/-- Closes a scope. -/
def close (c : Context) (scope : Scope) : Context := scope.foldl restore c

/-! ## Closing undoes binding -/

theorem restore_setVariable (c : Context) (name : String) (value : Number) :
    (c.setVariable name value).restore (name, c.valueOf? name) = c := by
  have hvars : ((c.setVariable name value).restore (name, c.valueOf? name)).vars = c.vars := by
    apply Std.ExtTreeMap.ext_getElem?
    intro other
    cases h : c.valueOf? name with
    | some old =>
      have ho : c.vars[name]? = some old := h
      simp only [restore, setVariable, Std.ExtTreeMap.getElem?_insert]
      grind
    | none =>
      have ho : c.vars[name]? = none := h
      simp only [restore, setVariable, eraseVariable, Std.ExtTreeMap.getElem?_insert,
        Std.ExtTreeMap.getElem?_erase]
      grind
  unfold restore at hvars ⊢
  split at hvars <;> exact congrArg (fun vars => { c with vars := vars }) hvars

theorem close_bind (c : Context) (scope : Scope) (name : String) (value : Number) :
    (c.bind scope name value).2.close (c.bind scope name value).1 = c.close scope := by
  show List.foldl restore ((c.setVariable name value).restore (name, c.valueOf? name)) scope = _
  rw [restore_setVariable]
  rfl

/-- Closing a scope right after binding names in it leaves no trace of them. -/
theorem close_bindAll (c : Context) (scope : Scope) (bindings : List (String × Number)) :
    (c.bindAll scope bindings).2.close (c.bindAll scope bindings).1 = c.close scope := by
  induction bindings generalizing c scope with
  | nil => rfl
  | cons binding rest ih =>
    obtain ⟨name, value⟩ := binding
    calc ((c.bind scope name value).2.bindAll (c.bind scope name value).1 rest).2.close
          ((c.bind scope name value).2.bindAll (c.bind scope name value).1 rest).1
        = (c.bind scope name value).2.close (c.bind scope name value).1 := ih _ _
      _ = c.close scope := close_bind c scope name value

end Context

end Reckoner
