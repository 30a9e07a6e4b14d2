import Mathlib.Order.Filter.AtTopBot.Basic
import Reckoner.Proofs.Memory.Meaning

/-!
# Actions that compute a meaning

`Means G act act'`: on contexts with the property `G`, the action keeps this property, leaves the
context as it was up to what functions remember, and unless calls nest too deep its result is the
one that the actions `act' m` without memory give in the bare context, for all large `m`.  One rule
for each way to build an action.
-/

namespace Reckoner

open Filter

namespace Action

variable {α β : Type} {G : Context → Prop}

/-- The action computes a meaning in a context. -/
structure MeansAt (G : Context → Prop) (c : Context) (act : Action α) (act' : Nat → Action α) :
    Prop where
  keeps : G (act.run c).2
  leaves : (act.run c).2.invalidateAll = c.invalidateAll
  result : (act.run c).1 ≠ .error (.depth .recursion) →
    ∀ᶠ m in atTop, (act' m).run c.bare = ((act.run c).1, c.bare)

def Means (G : Context → Prop) (act : Action α) (act' : Nat → Action α) : Prop :=
  ∀ c, G c → MeansAt G c act act'

variable {act : Action α} {act' : Nat → Action α} {next : α → Action β} {next' : Nat → α → Action β}

theorem Means.pure (a : α) : Means G (Pure.pure a) (fun _ => Pure.pure a) :=
  fun _ hc => ⟨hc, rfl, fun _ => .of_forall fun _ => rfl⟩

theorem Means.fail (fault : Fault) :
    Means G (Action.fail fault : Action α) (fun _ => .fail fault) :=
  fun _ hc => ⟨hc, rfl, fun _ => .of_forall fun _ => rfl⟩

/-- Where calls nest too deep nothing is said about the result. -/
theorem Means.tooDeep : Means G (Action.fail (.depth .recursion) : Action α) act' :=
  fun _ hc => ⟨hc, rfl, fun h => absurd rfl h⟩

theorem Means.ofExcept (x : Except Fault α) :
    Means G (Action.ofExcept x) (fun _ => Action.ofExcept x) :=
  fun _ hc => ⟨hc, rfl, fun _ => .of_forall fun _ => rfl⟩

theorem Means.context_bind {next : Context → Action β} {next' : Nat → Context → Action β}
    (h : ∀ c, G c → MeansAt G c (next c) (fun m => next' m c.bare)) :
    Means G (Action.context >>= next) (fun m => Action.context >>= next' m) :=
  fun c hc => ⟨(h c hc).keeps, (h c hc).leaves, (h c hc).result⟩

theorem MeansAt.exists_run {c : Context} (h : MeansAt G c act act') :
    ∃ r c', act.run c = (r, c') ∧ G c' ∧ c'.invalidateAll = c.invalidateAll ∧
      (r ≠ .error (.depth .recursion) → ∀ᶠ m in atTop, (act' m).run c.bare = (r, c.bare)) :=
  ⟨_, _, rfl, h.keeps, h.leaves, h.result⟩

theorem Means.bind (h : Means G act act') (hn : ∀ a, Means G (next a) (fun m => next' m a)) :
    Means G (act >>= next) (fun m => act' m >>= next' m) := by
  intro c hc
  obtain ⟨r, c', hrun, hkeeps, hleaves, hresult⟩ := (h c hc).exists_run
  cases r with
  | error fault =>
    refine ⟨?_, ?_, fun hne => ?_⟩
    · rwa [run_bind_of_error hrun]
    · rwa [run_bind_of_error hrun]
    · rw [run_bind_of_error hrun] at hne ⊢
      refine (hresult fun heq => hne ?_).mono fun m hm => run_bind_of_error hm
      cases heq
      rfl
  | ok a =>
    have hnext := hn a c' hkeeps
    refine ⟨?_, ?_, fun hne => ?_⟩
    · rw [run_bind_of_ok hrun]
      exact hnext.keeps
    · rw [run_bind_of_ok hrun, hnext.leaves, hleaves]
    · rw [run_bind_of_ok hrun] at hne ⊢
      filter_upwards [hresult nofun, hnext.result hne] with m hm hm'
      rw [run_bind_of_ok hm, ← Context.bare_of_invalidateAll_eq hleaves, hm']

theorem Means.mapM {f : α → Action β} {f' : Nat → α → Action β} {xs : List α}
    (h : ∀ x ∈ xs, Means G (f x) (fun m => f' m x)) :
    Means G (xs.mapM f) (fun m => xs.mapM (f' m)) := by
  induction xs with
  | nil =>
    simp only [List.mapM_nil]
    exact .pure _
  | cons x xs ih =>
    simp only [List.mapM_cons]
    refine (h x (by simp)).bind fun y => ?_
    exact (ih fun x hx => h x (by simp [hx])).bind fun ys => .pure _

/-- What is meant for large `m` may be looked up one level later. -/
theorem Means.shift (h : Means G act (fun m => act' (m + 1))) : Means G act act' := by
  intro c hc
  refine ⟨(h c hc).keeps, (h c hc).leaves, fun hne => ?_⟩
  obtain ⟨k, hk⟩ := eventually_atTop.1 ((h c hc).result hne)
  refine eventually_atTop.2 ⟨k + 1, fun m hm => ?_⟩
  obtain ⟨m, rfl⟩ := Nat.exists_eq_add_of_le' (Nat.le_of_add_left_le hm)
  exact hk m (Nat.le_of_add_le_add_right hm)

/-- Going one call deeper does not change what is meant. -/
theorem Means.deeper (hG : ∀ c n, G c → G { c with depth := n }) (h : Means G act act') :
    Means G (Action.deeper act) act' := by
  intro c hc
  cases he : c.enter with
  | error fault =>
    have hfault : fault = .depth .recursion := by
      unfold Context.enter at he
      split at he
      · cases he
      · cases he
        rfl
    refine ⟨?_, ?_, fun hne => ?_⟩
    · rwa [run_deeper_of_error he]
    · rw [run_deeper_of_error he]
    · rw [run_deeper_of_error he, hfault] at hne
      exact absurd rfl hne
  | ok c' =>
    obtain ⟨_, rfl⟩ := (Context.enter_eq_ok_iff c c').1 he
    have hact := h _ (hG c (c.depth + 1) hc)
    refine ⟨?_, ?_, fun hne => ?_⟩
    · rw [run_deeper_of_ok he]
      exact hG _ _ hact.keeps
    · rw [run_deeper_of_ok he]
      have hleaves := congrArg Context.leave hact.leaves
      exact hleaves
    · rw [run_deeper_of_ok he] at hne ⊢
      exact hact.result hne

/-! ## Bound names -/

/-- Giving a name a value, or taking its value away, keeps the property. -/
structure Bindable (G : Context → Prop) (n : String) : Prop where
  set : ∀ c value, G c → G (c.setVariable n value)
  erase : ∀ c, G c → G (c.eraseVariable n)

theorem Bindable.restore {n : String} (h : Bindable G n) {c : Context} (hc : G c)
    (old : Option Number) : G (c.restore (n, old)) := by
  cases old with
  | none => exact h.erase c hc
  | some value => exact h.set c value hc

/-- Binding keeps the property, and closing the scope afterwards keeps it too. -/
theorem Bindable.bindAll {bindings : List (String × Number)}
    (h : ∀ n ∈ bindings.map Prod.fst, Bindable G n) {c : Context} (hc : G c) (scope : Scope)
    (hscope : ∀ saved ∈ scope, Bindable G saved.1) :
    G (c.bindAll scope bindings).2 ∧
      ∀ saved ∈ (c.bindAll scope bindings).1, Bindable G saved.1 := by
  induction bindings generalizing c scope with
  | nil => exact ⟨hc, hscope⟩
  | cons binding bindings ih =>
    have hname := h binding.1 (by simp)
    refine ih (fun n hn => h n (by simp [hn])) (hname.set c binding.2 hc)
      ((binding.1, c.valueOf? binding.1) :: scope) fun saved hsaved => ?_
    rcases List.mem_cons.1 hsaved with rfl | hsaved
    · exact hname
    · exact hscope saved hsaved

theorem Bindable.close {scope : Scope} (h : ∀ saved ∈ scope, Bindable G saved.1) {c : Context}
    (hc : G c) : G (c.close scope) := by
  induction scope generalizing c with
  | nil => exact hc
  | cons saved scope ih =>
    refine ih (fun saved hsaved => h saved (by simp [hsaved])) ?_
    exact (h saved (by simp)).restore hc saved.2

theorem Means.binding {bindings : List (String × Number)}
    (hG : ∀ n ∈ bindings.map Prod.fst, Bindable G n) (h : Means G act act') :
    Means G (Action.binding bindings act) (fun m => Action.binding bindings (act' m)) := by
  intro c hc
  obtain ⟨hbound, hscope⟩ := Bindable.bindAll hG hc [] (by simp)
  have hact := h _ hbound
  refine ⟨Bindable.close hscope hact.keeps, ?_, fun hne => ?_⟩
  · rw [run_binding, ← Context.close_invalidateAll, hact.leaves, Context.close_invalidateAll,
      Context.close_bindAll]
    rfl
  · refine (hact.result hne).mono fun m hm => ?_
    have hclose := c.bare.close_bindAll [] bindings
    rw [Context.bindAll_bare] at hclose
    rw [run_binding, run_binding, Context.bindAll_bare, hm]
    exact congrArg (Prod.mk _) hclose

end Action

namespace Evaluation

open Reckoner.Action

/-! ## Summation and product -/

section Terms

variable {G : Context → Prop} {term : Action Number} {term' : Nat → Action Number}
variable (w : Nat) (name counter : String) (last : Dyadic)

/-- The steps of a summation leave the context as it was up to the counter, and so do those of its
meaning. -/
theorem run_termSteps_means (hcounter : Bindable G counter) (hterm : Means G term term')
    (fuel : Nat) (k : Dyadic) (total : Number) (c₀ : Context) {c : Context} (hc : G c)
    (x : Number) (hcx : c.invalidateAll = (c₀.setVariable counter x).invalidateAll) :
    ∃ r c' y, (termSteps w name counter last term fuel k total).run c = (r, c') ∧ G c' ∧
      c'.invalidateAll = (c₀.setVariable counter y).invalidateAll ∧
      (r ≠ .error (.depth .recursion) → ∀ᶠ m in atTop,
        (termSteps w name counter last (term' m) fuel k total).run (c₀.bare.setVariable counter x) =
          (r, c₀.bare.setVariable counter y)) := by
  induction fuel generalizing k total c x with
  | zero => exact ⟨_, c, x, rfl, hc, hcx, fun _ => .of_forall fun _ => rfl⟩
  | succ fuel ih =>
    simp only [termSteps_succ]
    split
    · have hck : (c.setVariable counter (.ofReal k)).invalidateAll =
          (c₀.setVariable counter (.ofReal k)).invalidateAll := by
        rw [← Context.setVariable_invalidateAll, hcx, Context.setVariable_invalidateAll,
          Context.setVariable_setVariable]
      obtain ⟨r, c', hrun, hkeeps, hleaves, hresult⟩ :=
        (hterm _ (hcounter.set c (.ofReal k) hc)).exists_run
      have hstep := run_termStep_eq w name counter total hrun
      have hstep' : r ≠ .error (.depth .recursion) → ∀ᶠ m in atTop,
          (termStep w name counter (term' m) k total).run (c₀.bare.setVariable counter x) =
            (r.map (reductionStep w name total), c₀.bare.setVariable counter (.ofReal k)) := by
        intro hne
        refine (hresult hne).mono fun m hm => run_termStep_eq w name counter total ?_
        rw [Context.setVariable_setVariable]
        rwa [Context.bare_of_invalidateAll_eq hck] at hm
      cases r with
      | error fault =>
        refine ⟨.error fault, c', .ofReal k, run_bind_of_error hstep, hkeeps, hleaves.trans hck,
          fun hne => ?_⟩
        refine (hstep' fun heq => hne ?_).mono fun m hm => run_bind_of_error hm
        cases heq
        rfl
      | ok value =>
        obtain ⟨r, c'', y, hrun', hkeeps', hleaves', hresult'⟩ := ih (Binary.add w k 1)
          (reductionStep w name total value) hkeeps (.ofReal k) (hleaves.trans hck)
        refine ⟨r, c'', y, (run_bind_of_ok hstep).trans hrun', hkeeps', hleaves', fun hne => ?_⟩
        filter_upwards [hstep' nofun, hresult' hne] with m hm hm'
        exact (run_bind_of_ok hm).trans hm'
    · exact ⟨_, c, x, rfl, hc, hcx, fun _ => .of_forall fun _ => rfl⟩

end Terms

theorem means_countTerms {G : Context → Prop} {term : Action Number} {term' : Nat → Action Number}
    {counter : String} (hcounter : Bindable G counter) (hterm : Means G term term') (name : String)
    (first last : Dyadic) :
    Means G (countTerms name counter first last term)
      (fun m => countTerms name counter first last (term' m)) := by
  intro c hc
  obtain ⟨r, c', y, hrun, hkeeps, hleaves, hresult⟩ := run_termSteps_means c.bits name counter last
    hcounter hterm (Binary.stepCount first last + 1) first (reductionUnit name) c
    (hcounter.set c (.ofReal first) hc) (.ofReal first) rfl
  have hbinding := run_countTerms hrun
  refine ⟨?_, ?_, fun hne => ?_⟩
  · rw [hbinding]
    exact hcounter.restore hkeeps _
  · rw [hbinding, ← Context.restore_invalidateAll, hleaves, Context.restore_invalidateAll,
      Context.restore_setVariable]
  · rw [hbinding] at hne ⊢
    refine (hresult hne).mono fun m hm => (run_countTerms (c := c.bare) hm).trans ?_
    exact congrArg (Prod.mk r) (c.bare.restore_setVariable counter y)

end Evaluation

end Reckoner
