import Reckoner.Context.Scope

/-!
# Actions on a context

An action changes a context and gives a result or a fault; the changes made before a fault stay.
-/

namespace Reckoner

/-- A computation that reads and changes a context and may fail. -/
@[ext]
structure Action (α : Type) where
  run : Context → Except Fault α × Context

namespace Action

variable {α β γ : Type}

/-- The action that only gives a result. -/
@[always_inline, inline]
protected def pure (a : α) : Action α := ⟨fun c => (.ok a, c)⟩

/-- One action after another, unless the first one fails. -/
@[always_inline, inline]
protected def bind (act : Action α) (next : α → Action β) : Action β :=
  ⟨fun c =>
    match act.run c with
    | (.ok a, c) => (next a).run c
    | (.error fault, c) => (.error fault, c)⟩

@[always_inline]
instance instMonad : Monad Action where
  pure := Action.pure
  bind := Action.bind

@[inline]
def fail (fault : Fault) : Action α := ⟨fun c => (.error fault, c)⟩

/-- Reads the context. -/
@[inline]
def context : Action Context := ⟨fun c => (.ok c, c)⟩

/-- Changes the context. -/
@[inline]
def change (f : Context → Context) : Action Unit := ⟨fun c => (.ok (), f c)⟩

/-- The result of a computation that does not look at the context. -/
@[inline]
def ofExcept (result : Except Fault α) : Action α := ⟨fun c => (result, c)⟩

/-- Runs an action one call deeper. -/
def deeper (act : Action α) : Action α :=
  ⟨fun c =>
    match c.enter with
    | .error fault => (.error fault, c)
    | .ok c =>
      match act.run c with
      | (result, c) => (result, c.leave)⟩

/-- Runs an action with names bound, and makes them what they were before, whatever happens. -/
def binding (bindings : List (String × Number)) (act : Action α) : Action α :=
  ⟨fun c =>
    match c.bindAll [] bindings with
    | (scope, c) =>
      match act.run c with
      | (result, c) => (result, c.close scope)⟩

/-- Runs an action with another number of working digits, and goes back to the former one, whatever
happens. -/
def withDigits (digits : Nat) (act : Action α) : Action α :=
  ⟨fun c =>
    match act.run { c with numerics := c.numerics.setDigits digits } with
    | (result, d) => (result, { d with numerics := d.numerics.setDigits c.numerics.digits })⟩

/-! ## Laws -/

@[simp] theorem run_pure (a : α) (c : Context) : (pure a : Action α).run c = (.ok a, c) := rfl

theorem run_bind (act : Action α) (next : α → Action β) (c : Context) :
    (act >>= next).run c =
      match act.run c with
      | (.ok a, c) => (next a).run c
      | (.error fault, c) => (.error fault, c) := rfl

@[simp] theorem run_fail (fault : Fault) (c : Context) :
    (fail fault : Action α).run c = (.error fault, c) := rfl

@[simp] theorem run_context (c : Context) : context.run c = (.ok c, c) := rfl

@[simp] theorem run_change (f : Context → Context) (c : Context) :
    (change f).run c = (.ok (), f c) := rfl

@[simp] theorem run_ofExcept (result : Except Fault α) (c : Context) :
    (ofExcept result).run c = (result, c) := rfl

theorem run_bind_of_ok {act : Action α} {next : α → Action β} {c c' : Context} {a : α}
    (h : act.run c = (.ok a, c')) : (act >>= next).run c = (next a).run c' := by
  rw [run_bind, h]

theorem run_bind_of_error {act : Action α} {next : α → Action β} {c c' : Context} {fault : Fault}
    (h : act.run c = (.error fault, c')) : (act >>= next).run c = (.error fault, c') := by
  rw [run_bind, h]

@[simp] theorem run_context_bind (next : Context → Action β) (c : Context) :
    (context >>= next).run c = (next c).run c := rfl

@[simp] theorem run_change_bind (f : Context → Context) (next : Unit → Action β) (c : Context) :
    (change f >>= next).run c = (next ()).run (f c) := rfl

@[simp] theorem run_ofExcept_ok_bind (a : α) (next : α → Action β) (c : Context) :
    (ofExcept (.ok a) >>= next).run c = (next a).run c := rfl

theorem run_deeper_of_error {act : Action α} {c : Context} {fault : Fault}
    (h : c.enter = .error fault) : (deeper act).run c = (.error fault, c) := by
  simp only [deeper, h]

theorem run_deeper_of_ok {act : Action α} {c c' : Context} (h : c.enter = .ok c') :
    (deeper act).run c = ((act.run c').1, (act.run c').2.leave) := by
  simp only [deeper, h]

theorem run_binding (bindings : List (String × Number)) (act : Action α) (c : Context) :
    (binding bindings act).run c =
      ((act.run (c.bindAll [] bindings).2).1,
        (act.run (c.bindAll [] bindings).2).2.close (c.bindAll [] bindings).1) := rfl

theorem run_withDigits (digits : Nat) (act : Action α) (c : Context) :
    (withDigits digits act).run c =
      ((act.run { c with numerics := c.numerics.setDigits digits }).1,
        let d := (act.run { c with numerics := c.numerics.setDigits digits }).2
        { d with numerics := d.numerics.setDigits c.numerics.digits }) := rfl

theorem bind_pure_id (act : Action α) : (act >>= fun a => pure (id a)) = act := by
  ext1
  funext c
  rw [run_bind]
  rcases act.run c with ⟨_ | _, _⟩ <;> rfl

theorem bind_assoc' (act : Action α) (f : α → Action β) (g : β → Action γ) :
    act >>= f >>= g = act >>= fun a => f a >>= g := by
  ext1
  funext c
  simp only [run_bind]
  rcases act.run c with ⟨_ | _, _⟩ <;> rfl

instance instLawfulMonad : LawfulMonad Action :=
  LawfulMonad.mk' Action bind_pure_id (fun _ _ => rfl) bind_assoc'

end Action

end Reckoner
