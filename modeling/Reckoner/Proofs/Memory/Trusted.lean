import Reckoner.Proofs.Memory.Dependence
import Reckoner.Proofs.Memory.Faithful

/-!
# Contexts whose memory can be trusted

`Context.Trusted B c`: the context is disciplined, and what its functions remember is what their
bodies mean in the context itself.

1. Evaluation keeps contexts trusted (`Context.Trusted.run_evaluate`), and a trusted context gives
   the result of any other one that only differs in memory, unless calls nest too deep
   (`Context.Trusted.evaluate_congr`).
2. A change to a name keeps contexts trusted if what depends on the name is forgotten afterwards
   (`Context.Trusted.invalidate`).
-/

namespace Reckoner

open Filter Reckoner.Action Evaluation

/-- What a function remembers in a context it also remembers in one that agrees on what the function
refers to. -/
theorem UserFunction.RemembersIn.of_agree {D : Set String} {g d : Context} {f : UserFunction}
    (h : f.RemembersIn g) (hagree : Context.Agree D g d) (hreferences : ∀ r ∈ f.references, r ∈ D)
    (hparams : f.body ≠ none → ∀ p ∈ f.params,
      (g.function? p).map Function.forget = (d.function? p).map Function.forget ∧
        g.user? p = none) :
    f.RemembersIn d := by
  intro args value hlength hmemo
  obtain ⟨body, hbody, hvalue⟩ := h args value hlength hmemo
  have hsome : f.body ≠ none := by
    rw [hbody]
    exact Option.some_ne_none body
  refine ⟨body, hbody, hvalue.mono fun m hm => ?_⟩
  rw [← hm]
  exact (run_body_congr (fun D o => steady_meaningAt m) hagree hreferences (hparams hsome) hbody
    (not_not.2 hlength)).symm

namespace Context

/-- The context is disciplined and its functions remember what their bodies mean in it. -/
structure Trusted (B : Set String) (c : Context) : Prop where
  disciplined : Disciplined B c
  memory : ∀ n f, c.user? n = some f → f.RemembersIn c

variable {B : Set String} {g c d : Context}

theorem Trusted.faithful (h : Trusted B c) : Faithful B c c :=
  ⟨rfl, fun _ _ => rfl, fun _ => rfl, h.memory⟩

theorem Faithful.trusted (h : Faithful B g c) (hg : Disciplined B g)
    (heq : c.invalidateAll = g.invalidateAll) : Trusted B c := by
  have hc := h.disciplined hg
  refine ⟨hc, fun n f hf => ?_⟩
  have hagree : Agree {n | n ∉ B} g c := by
    refine hg.agree h.numerics.symm (fun n _ => ?_) fun n => (h.functions n).symm
    exact congrArg (fun c => c.valueOf? n) heq.symm
  refine (h.memory n f hf).of_agree hagree (hc.references n f hf) fun hbody p hp => ?_
  exact ⟨(h.functions p).symm, hg.user?_eq_none (hc.params n f hf hbody p hp)⟩

/-- A context whose functions remember nothing can be trusted. -/
theorem Disciplined.trusted_invalidateAll (h : Disciplined B c) : Trusted B c.invalidateAll := by
  refine ⟨h.of_forget_eq fun n => c.map_forget_invalidateAll n, fun n f hf => ?_⟩
  rw [user?_invalidateAll] at hf
  obtain ⟨f', -, rfl⟩ := Option.map_eq_some_iff.1 hf
  exact f'.remembersIn_forget _

/-! ## Evaluation -/

/-- Evaluation leaves a trusted context one that only differs in memory and can be trusted. -/
theorem Trusted.run_evaluate (h : Trusted B c) {o : Operand} (ho : o.CallsWithin B) :
    Trusted B (o.evaluate.run c).2 ∧ (o.evaluate.run c).2.invalidateAll = c.invalidateAll := by
  have hmeans := means_evalAt h.disciplined c.levels ho c h.faithful
  exact ⟨hmeans.keeps.trusted h.disciplined hmeans.leaves, hmeans.leaves⟩

/-- Contexts that only differ in memory give the same results, unless calls nest too deep. -/
theorem Trusted.evaluate_congr (hc : Trusted B c) (hd : Trusted B d)
    (heq : c.invalidateAll = d.invalidateAll) {o : Operand} (ho : o.CallsWithin B)
    (hnec : (o.evaluate.run c).1 ≠ .error (.depth .recursion))
    (hned : (o.evaluate.run d).1 ≠ .error (.depth .recursion)) :
    (o.evaluate.run c).1 = (o.evaluate.run d).1 := by
  have hmeans := means_evalAt hc.disciplined c.levels ho c hc.faithful
  have hmeans' := means_evalAt hd.disciplined d.levels ho d hd.faithful
  obtain ⟨m, hm, hm'⟩ := ((hmeans.result hnec).and (hmeans'.result hned)).exists
  rw [bare_of_invalidateAll_eq heq] at hm
  exact (Prod.mk.inj (hm.symm.trans hm')).1

/-! ## Changes -/

/-- The functions that do not depend on a name may keep what they remember when the name changes. -/
theorem Trusted.invalidate (hg : Trusted B g) (hc : Disciplined B c) {x : String}
    (hnumerics : c.numerics = g.numerics) (hvalues : ∀ n, n ≠ x → c.valueOf? n = g.valueOf? n)
    (hfunctions : ∀ n, n ≠ x ∨ n ∈ B → c.function? n = g.function? n)
    (hmemory : ∀ f, c.user? x = some f → f.RemembersIn g) : Trusted B (c.invalidate x) := by
  have hforget : ∀ n, ((c.invalidate x).function? n).map Function.forget =
      (c.function? n).map Function.forget := fun n => by
    have heq := congrArg (fun c => c.function? n) (c.invalidate_invalidateAll x)
    simpa only [function?_invalidateAll] using heq
  -- the names that do not depend on `x` are closed under references
  have hagree : Agree {n | n ∉ c.affected x} g (c.invalidate x) := by
    have hne : ∀ n, n ∉ c.affected x → n ≠ x := by
      rintro n hn rfl
      exact hn (c.self_mem_affected n)
    refine ⟨hnumerics.symm, fun n hn => (hvalues n (hne n hn)).symm, fun n hn => ?_,
      fun n hn f hf r hr hmem => ?_, fun n hn f hf hbody p hp => ?_⟩
    · rw [hforget, hfunctions n (.inl (hne n hn))]
    · refine hn (c.mem_affected_of_refersTo (f := .user f) ?_ (refersTo_iff.2 ⟨r, hr, hmem⟩))
      rw [hfunctions n (.inl (hne n hn)), user?_eq_some.1 hf]
    · have hpB := hg.disciplined.params n f hf hbody p hp
      rw [hforget, hfunctions p (.inr hpB)]
      exact ⟨rfl, hg.disciplined.user?_eq_none hpB⟩
  refine ⟨hc.of_forget_eq hforget, fun n f hf => ?_⟩
  rw [user?_eq_some, function?_invalidate] at hf
  obtain ⟨fn, hfn, hkept⟩ := Option.map_eq_some_iff.1 hf
  split at hkept
  · -- the function depends on `x` and was made to forget
    cases fn with
    | builtin b => cases hkept
    | user f' =>
      cases hkept
      exact f'.remembersIn_forget _
  · next hrefers =>
    subst hkept
    have hf' : c.user? n = some f := user?_eq_some.2 hfn
    have hmem : f.RemembersIn g := by
      by_cases hn : n = x
      · subst hn
        exact hmemory f hf'
      · refine hg.memory n f ?_
        rw [user?_eq_some, ← hfunctions n (.inl hn), hfn]
    refine hmem.of_agree hagree (fun r hr hraff => hrefers (refersTo_iff.2 ⟨r, hr, hraff⟩)) ?_
    intro hbody p hp
    have hpB := hc.params n f hf' hbody p hp
    rw [hforget, hfunctions p (.inr hpB)]
    exact ⟨rfl, hg.disciplined.user?_eq_none hpB⟩

end Context

end Reckoner
