import Reckoner.Context.Scope

/-!
# Nested scopes

Scopes are opened and closed like brackets.  While they are open, names are bound in the innermost
one, and the variables bound in any of them may be set and erased.

1. Restoring a name makes what happened to it before not matter (`restore_restore`,
   `close_restore`).
2. Closing all open scopes, the innermost first, gives the same context after each step of a
   well-nested sequence (`unwound_perform`); so a sequence that closes all its scopes ends where it
   began (`performAll_wellNested`).
-/

namespace Reckoner

/-! ## Restoring names -/

namespace Context

theorem valueOf?_restore (c : Context) (saved : String × Option Number) (other : String) :
    (c.restore saved).valueOf? other = if saved.1 = other then saved.2 else c.valueOf? other := by
  obtain ⟨name, _ | value⟩ := saved
  · exact valueOf?_eraseVariable c name other
  · exact valueOf?_setVariable c name other value

/-- Contexts that differ at most in their variables are equal if each name has the same value. -/
theorem eq_of_valueOf? {c d : Context} (hvars : d = { c with vars := d.vars })
    (h : ∀ name, d.valueOf? name = c.valueOf? name) : d = c := by
  have hsame : d.vars = c.vars := Std.ExtTreeMap.ext_getElem? fun name => h name
  rw [hvars, hsame]

theorem restore_eq (c : Context) (saved : String × Option Number) :
    c.restore saved = { c with vars := (c.restore saved).vars } := by
  obtain ⟨name, _ | value⟩ := saved <;> rfl

/-- The last restoring of a name counts. -/
theorem restore_restore (c : Context) (name : String) (x y : Option Number) :
    (c.restore (name, x)).restore (name, y) = c.restore (name, y) := by
  refine eq_of_valueOf? ?_ fun other => ?_
  · rw [restore_eq (c.restore (name, x)), restore_eq c (name, x), restore_eq c (name, y)]
  · simp only [valueOf?_restore]
    split <;> rfl

theorem restore_comm (c : Context) {name other : String} (h : name ≠ other) (x y : Option Number) :
    (c.restore (name, x)).restore (other, y) = (c.restore (other, y)).restore (name, x) := by
  refine eq_of_valueOf? ?_ fun any => ?_
  · rw [restore_eq (c.restore (name, x)), restore_eq (c.restore (other, y)), restore_eq c (name, x),
      restore_eq c (other, y)]
  · simp only [valueOf?_restore]
    by_cases hname : name = any
    · have hother : other ≠ any := fun ho => h (hname.trans ho.symm)
      rw [if_neg hother, if_pos hname, if_pos hname]
    · rw [if_neg hname, if_neg hname]

/-- What happens to a name that a scope has bound is undone when the scope is closed. -/
theorem close_restore (c : Context) {scope : Scope} {name : String}
    (h : name ∈ scope.map Prod.fst) (x : Option Number) :
    (c.restore (name, x)).close scope = c.close scope := by
  induction scope generalizing c with
  | nil => cases h
  | cons saved scope ih =>
    obtain ⟨other, y⟩ := saved
    show ((c.restore (name, x)).restore (other, y)).close scope = (c.restore (other, y)).close scope
    by_cases hname : name = other
    · rw [hname, restore_restore]
    · have hmem : name ∈ scope.map Prod.fst := (List.mem_cons.1 h).resolve_left hname
      rw [restore_comm c hname, ih _ hmem]

theorem close_append (c : Context) (inner outer : Scope) :
    c.close (inner ++ outer) = (c.close inner).close outer :=
  List.foldl_append

end Context

/-! ## Steps -/

/-- What can be done with scopes and variables. -/
inductive ScopeStep where
  | opening
  | bind (name : String) (value : Number)
  | set (name : String) (value : Number)
  | erase (name : String)
  | closing

/-- A context and the scopes that are open in it, the innermost first. -/
structure Scoped where
  context : Context
  scopes : List Scope

namespace Scoped

/-- Carries a step out.  Without an open scope there is nothing to bind in or to close. -/
def perform (s : Scoped) : ScopeStep → Scoped
  | .opening => ⟨s.context, [] :: s.scopes⟩
  | .bind name value =>
    match s.scopes with
    | [] => s
    | scope :: outer =>
      ⟨(s.context.bind scope name value).2, (s.context.bind scope name value).1 :: outer⟩
  | .set name value => ⟨s.context.setVariable name value, s.scopes⟩
  | .erase name => ⟨s.context.eraseVariable name, s.scopes⟩
  | .closing =>
    match s.scopes with
    | [] => s
    | scope :: outer => ⟨s.context.close scope, outer⟩

def performAll (s : Scoped) (steps : List ScopeStep) : Scoped := steps.foldl perform s

def names (s : Scoped) : List (List String) := s.scopes.map (List.map Prod.fst)

/-- The context after closing all open scopes. -/
def unwound (s : Scoped) : Context := s.context.close s.scopes.flatten

end Scoped

namespace ScopeStep

/-- The names bound in each open scope after a step, if the step can be taken: names are bound in an
open scope, and only variables that are bound in an open scope are set or erased. -/
def after? (names : List (List String)) : ScopeStep → Option (List (List String))
  | .opening => some ([] :: names)
  | .bind name _ =>
    match names with
    | [] => none
    | inner :: outer => some ((name :: inner) :: outer)
  | .set name _ | .erase name => if name ∈ names.flatten then some names else none
  | .closing => names.tail?

/-- Whether steps can be taken where no scope is open, and close every scope that they open. -/
def WellNested (steps : List ScopeStep) : Prop := steps.foldlM after? [] = some []

instance instDecidableWellNested (steps : List ScopeStep) : Decidable (WellNested steps) :=
  inferInstanceAs (Decidable (steps.foldlM after? [] = some []))

end ScopeStep

namespace Scoped

variable {s : Scoped} {step : ScopeStep} {after : List (List String)}

/-- The names that are bound are known from the steps alone. -/
theorem names_perform (h : step.after? s.names = some after) : (s.perform step).names = after := by
  obtain ⟨c, scopes⟩ := s
  cases step with
  | opening => exact Option.some.inj h
  | bind name value =>
    cases scopes with
    | nil => cases h
    | cons scope outer => exact Option.some.inj h
  | set name value | erase name =>
    simp only [ScopeStep.after?] at h
    split at h
    · exact Option.some.inj h
    · cases h
  | closing =>
    cases scopes with
    | nil => cases h
    | cons scope outer => exact Option.some.inj h

/-- A variable that is bound in an open scope can be given any value, or none. -/
theorem unwound_restore {c : Context} {scopes : List Scope} {name : String}
    (h : name ∈ (names ⟨c, scopes⟩).flatten) (x : Option Number) :
    unwound ⟨c.restore (name, x), scopes⟩ = unwound ⟨c, scopes⟩ := by
  refine c.close_restore ?_ x
  rwa [List.map_flatten]

/-- A step that can be taken does not change what is left when all open scopes are closed. -/
theorem unwound_perform (h : step.after? s.names = some after) :
    (s.perform step).unwound = s.unwound := by
  obtain ⟨c, scopes⟩ := s
  cases step with
  | opening => rfl
  | bind name value =>
    cases scopes with
    | nil => rfl
    | cons scope outer =>
      show ((c.bind scope name value).2.close ((c.bind scope name value).1 ++ outer.flatten)) =
        c.close (scope ++ outer.flatten)
      rw [Context.close_append, Context.close_append, Context.close_bind]
  | set name value =>
    simp only [ScopeStep.after?] at h
    split at h
    · next hmem => exact unwound_restore hmem (some value)
    · cases h
  | erase name =>
    simp only [ScopeStep.after?] at h
    split at h
    · next hmem => exact unwound_restore hmem none
    · cases h
  | closing =>
    cases scopes with
    | nil => rfl
    | cons scope outer => exact (c.close_append scope outer.flatten).symm

/-- The same for steps that can be taken one after the other. -/
theorem unwound_performAll {steps : List ScopeStep}
    (h : steps.foldlM ScopeStep.after? s.names = some after) :
    (s.performAll steps).names = after ∧ (s.performAll steps).unwound = s.unwound := by
  induction steps generalizing s with
  | nil => exact ⟨Option.some.inj h, rfl⟩
  | cons step steps ih =>
    obtain ⟨names', hstep, hsteps⟩ := Option.bind_eq_some_iff.1 h
    rw [← names_perform hstep] at hsteps
    obtain ⟨hnames, hunwound⟩ := ih hsteps
    exact ⟨hnames, hunwound.trans (unwound_perform hstep)⟩

/-- **Scopes.** Well-nested steps end with no scope open and leave the context as it was: the same
names have values, and the same ones. -/
theorem performAll_wellNested (c : Context) {steps : List ScopeStep}
    (h : ScopeStep.WellNested steps) : performAll ⟨c, []⟩ steps = ⟨c, []⟩ := by
  obtain ⟨hnames, hunwound⟩ := unwound_performAll (s := ⟨c, []⟩) h
  have hscopes : (performAll ⟨c, []⟩ steps).scopes = [] := List.map_eq_nil_iff.1 hnames
  rcases hend : performAll ⟨c, []⟩ steps with ⟨d, scopes⟩
  rw [hend] at hscopes hunwound
  obtain rfl : scopes = [] := hscopes
  exact congrArg (Scoped.mk · []) hunwound

/-- A name that has a value and one that has none, each bound in two scopes, one of them twice, and
set and erased in between. -/
def tangledSteps : List ScopeStep :=
  [.opening, .bind "e" 1, .bind "x" 2, .bind "e" 3, .opening, .bind "x" 4, .erase "e", .set "x" 5,
    .bind "e" 6, .closing, .erase "x", .closing]

theorem performAll_tangledSteps :
    ScopeStep.WellNested tangledSteps ∧
      performAll ⟨.fresh .standard, []⟩ tangledSteps = ⟨.fresh .standard, []⟩ := by
  have h : ScopeStep.WellNested tangledSteps := by decide
  exact ⟨h, performAll_wellNested _ h⟩

end Scoped

end Reckoner
