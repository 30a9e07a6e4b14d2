import Reckoner.Evaluation
import Reckoner.Proofs.Outcome

/-!
# What an action keeps, gives and fails with

`Yields I Q R act`: on contexts with the property `I`, the action leaves a context with this
property, gives only results in `R` and fails only with faults in `Q`.  One rule for each way to
build an action.
-/

namespace Reckoner

/-- Properties of contexts that only speak of the functions, and not of what they remember. -/
structure Stable (I : Context → Prop) : Prop where
  functions : ∀ {c c' : Context}, c'.functions = c.functions → I c → I c'
  remember : ∀ {c : Context} (name : String) (args : List Number) (value : Number), I c →
    I (c.updateUser name (fun f => f.remember args value))

namespace Action

variable {α β : Type} {I : Context → Prop} {Q : Fault → Prop} {R : α → Prop} {S : β → Prop}

/-- The action keeps a property of contexts, gives results in `R` and fails with faults in `Q`. -/
def Yields (I : Context → Prop) (Q : Fault → Prop) (R : α → Prop) (act : Action α) : Prop :=
  ∀ c, I c → I (act.run c).2 ∧ (∀ a, (act.run c).1 = .ok a → R a) ∧
    ∀ fault, (act.run c).1 = .error fault → Q fault

theorem Yields.pure {a : α} (h : R a) : Yields I Q R (Pure.pure a) :=
  fun _ hc => ⟨hc, fun b hb => (by cases hb; exact h), fun fault hf => (by cases hf)⟩

theorem Yields.fail {fault : Fault} (h : Q fault) : Yields I Q R (Action.fail fault) :=
  fun _ hc => ⟨hc, fun b hb => (by cases hb), fun f hf => (by cases hf; exact h)⟩

theorem Yields.context : Yields I Q I Action.context :=
  fun _ hc => ⟨hc, fun b hb => (by cases hb; exact hc), fun f hf => (by cases hf)⟩

theorem Yields.change {f : Context → Context} (h : ∀ c, I c → I (f c)) :
    Yields I Q (fun _ => True) (Action.change f) :=
  fun c hc => ⟨h c hc, fun _ _ => trivial, fun _ hf => (by cases hf)⟩

theorem Yields.ofExcept {x : Except Fault α} (hok : ∀ a, x = .ok a → R a)
    (herror : ∀ fault, x = .error fault → Q fault) : Yields I Q R (Action.ofExcept x) :=
  fun _ hc => ⟨hc, hok, herror⟩

theorem Yields.bind {act : Action α} {next : α → Action β} (h : Yields I Q R act)
    (hn : ∀ a, R a → Yields I Q S (next a)) : Yields I Q S (act >>= next) := by
  intro c hc
  obtain ⟨hc', hok, herror⟩ := h c hc
  rcases hrun : act.run c with ⟨x, c'⟩
  rw [hrun] at hc' hok herror
  cases x with
  | error fault =>
    rw [run_bind_of_error hrun]
    exact ⟨hc', fun b hb => (by cases hb), fun f hf => (by cases hf; exact herror fault rfl)⟩
  | ok a =>
    rw [run_bind_of_ok hrun]
    exact hn a (hok a rfl) c' hc'

/-! ## Depth, scopes and lists -/

theorem Yields.deeper {act : Action α} (hI : Stable I) (hQ : Q (.depth .recursion))
    (h : Yields I Q R act) : Yields I Q R (Action.deeper act) := by
  intro c hc
  cases he : c.enter with
  | error fault =>
    have hfault : fault = .depth .recursion := by
      unfold Context.enter at he
      split at he
      · cases he
      · cases he; rfl
    rw [run_deeper_of_error he]
    exact ⟨hc, fun b hb => (by cases hb), fun f hf => (by cases hf; rw [hfault]; exact hQ)⟩
  | ok c' =>
    obtain ⟨_, rfl⟩ := (Context.enter_eq_ok_iff c c').1 he
    rw [run_deeper_of_ok he]
    have hin : I { c with depth := c.depth + 1 } := hI.functions (c := c) rfl hc
    obtain ⟨hc', hok, herror⟩ := h _ hin
    exact ⟨hI.functions (c := (act.run _).2) rfl hc', hok, herror⟩

theorem functions_bindAll (c : Context) (scope : Scope) (bindings : List (String × Number)) :
    (c.bindAll scope bindings).2.functions = c.functions := by
  induction bindings generalizing c scope with
  | nil => rfl
  | cons binding rest ih => exact ih (c.setVariable binding.1 binding.2) _

theorem functions_close (c : Context) (scope : Scope) :
    (c.close scope).functions = c.functions := by
  induction scope generalizing c with
  | nil => rfl
  | cons saved rest ih =>
    refine (ih (c.restore saved)).trans ?_
    unfold Context.restore
    split <;> rfl

theorem Yields.binding {act : Action α} (hI : Stable I) (bindings : List (String × Number))
    (h : Yields I Q R act) : Yields I Q R (Action.binding bindings act) := by
  intro c hc
  rw [run_binding]
  obtain ⟨hc', hok, herror⟩ :=
    h (c.bindAll [] bindings).2 (hI.functions (functions_bindAll c [] bindings) hc)
  exact ⟨hI.functions (functions_close _ _) hc', hok, herror⟩

theorem Yields.withDigits {act : Action α} (hI : Stable I) (digits : Nat) (h : Yields I Q R act) :
    Yields I Q R (Action.withDigits digits act) := by
  intro c hc
  obtain ⟨hc', hok, herror⟩ :=
    h { c with numerics := c.numerics.setDigits digits } (hI.functions (c := c) rfl hc)
  exact ⟨hI.functions (c := (act.run _).2) rfl hc', hok, herror⟩

theorem Yields.mapM {f : α → Action β} {xs : List α}
    (h : ∀ x ∈ xs, Yields I Q (fun _ => True) (f x)) :
    Yields I Q (fun _ => True) (xs.mapM f) := by
  induction xs with
  | nil => rw [List.mapM_nil]; exact .pure trivial
  | cons x xs ih =>
    rw [List.mapM_cons]
    refine (h x (by simp)).bind fun _ _ => ?_
    exact (ih fun y hy => h y (by simp [hy])).bind fun _ _ => .pure trivial

theorem Yields.countUp {w : Nat} {last : Dyadic} {stuck : Action α} {step : Dyadic → α → Action α}
    (hstuck : Yields I Q (fun _ => True) stuck)
    (hstep : ∀ k a, Yields I Q (fun _ => True) (step k a)) (fuel : Nat) (k : Dyadic) (a : α) :
    Yields I Q (fun _ => True) (Binary.countUp w last stuck step fuel k a) := by
  induction fuel generalizing k a with
  | zero => exact hstuck
  | succ fuel ih =>
    unfold Binary.countUp
    split
    · exact (hstep k a).bind fun b _ => ih _ b
    · exact .pure trivial

end Action

end Reckoner
