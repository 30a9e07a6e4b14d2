import Mathlib.Data.Finset.Card
import Reckoner.Context.Basic

/-!
# The names that depend on a name

The names that `Context.affected` collects are closed: a function that refers to one of them is one
of them (`Context.mem_affected_of_refersTo`).  A round that adds nothing has reached a closed set,
and there are no more rounds needed than there are functions, because each round before adds the
name of a function.  They are the least closed set with the name in it (`Context.affected_subset`).
-/

namespace Reckoner.Context

variable (c : Context)

theorem refersTo_iff {f : Function} {names : Names} :
    refersTo f names = true ↔ ∃ r ∈ f.references, r ∈ names := by
  simp [refersTo]

theorem mem_singleton_names {name n : String} : n ∈ ({name} : Names) ↔ n = name := by
  rw [eq_comm]
  simp [Singleton.singleton]

/-! ## One round -/

theorem mem_foldl_insert (test : Function → Bool) {n : String}
    {entries : List (String × Function)} {names : Names} :
    n ∈ entries.foldl (fun acc entry => if test entry.2 then acc.insert entry.1 else acc) names ↔
      n ∈ names ∨ ∃ f, (n, f) ∈ entries ∧ test f = true := by
  induction entries generalizing names with
  | nil => simp
  | cons entry entries ih =>
    obtain ⟨name, g⟩ := entry
    rw [List.foldl_cons, ih]
    by_cases hg : test g = true
    · rw [if_pos hg, Std.ExtTreeSet.mem_insert, Std.LawfulEqCmp.compare_eq_iff_eq]
      constructor
      · rintro ((rfl | h) | ⟨f, hf, hfg⟩)
        · exact .inr ⟨g, by simp, hg⟩
        · exact .inl h
        · exact .inr ⟨f, by simp [hf], hfg⟩
      · rintro (h | ⟨f, hf, hfg⟩)
        · exact .inl (.inr h)
        · rcases List.mem_cons.1 hf with heq | hf
          · cases heq
            exact .inl (.inl rfl)
          · exact .inr ⟨f, hf, hfg⟩
    · rw [if_neg hg]
      refine or_congr_right ⟨fun ⟨f, hf, hfg⟩ => ⟨f, by simp [hf], hfg⟩, fun ⟨f, hf, hfg⟩ => ?_⟩
      rcases List.mem_cons.1 hf with heq | hf
      · cases heq
        exact absurd hfg hg
      · exact ⟨f, hf, hfg⟩

theorem mem_withReferrers {n : String} {names : Names} :
    n ∈ c.withReferrers names ↔
      n ∈ names ∨ ∃ f, c.function? n = some f ∧ refersTo f names = true := by
  unfold withReferrers
  rw [mem_foldl_insert fun f => refersTo f names]
  simp only [Std.ExtTreeMap.mem_toList_iff_getElem?_eq_some, function?]

/-! ## Closed sets of names -/

/-- The functions that refer to a name of the set are in the set. -/
def ClosedNames (names : Names) : Prop :=
  ∀ n f, c.function? n = some f → refersTo f names = true → n ∈ names

theorem card_toFinset (names : Names) : names.toList.toFinset.card = names.size := by
  have hnodup : names.toList.Nodup :=
    Std.ExtTreeSet.distinct_toList.imp fun h heq => h (Std.LawfulEqCmp.compare_eq_iff_eq.2 heq)
  rw [List.toFinset_card_of_nodup hnodup, Std.ExtTreeSet.length_toList]

/-- A round that adds no name has reached a closed set. -/
theorem closedNames_of_size_eq {names : Names} (h : (c.withReferrers names).size = names.size) :
    c.ClosedNames names := by
  intro n f hf hrefers
  have hsub : names.toList.toFinset ⊆ (c.withReferrers names).toList.toFinset := by
    intro r hr
    rw [List.mem_toFinset, Std.ExtTreeSet.mem_toList] at hr ⊢
    exact (c.mem_withReferrers).2 (.inl hr)
  have heq := Finset.eq_of_subset_of_card_le hsub (by rw [card_toFinset, card_toFinset, h])
  have hn : n ∈ (c.withReferrers names).toList.toFinset := by
    rw [List.mem_toFinset, Std.ExtTreeSet.mem_toList]
    exact (c.mem_withReferrers).2 (.inr ⟨f, hf, hrefers⟩)
  rwa [← heq, List.mem_toFinset, Std.ExtTreeSet.mem_toList] at hn

/-- The functions whose names are not collected yet. -/
def uncollected (names : Names) : Finset String := c.functions.keys.toFinset.filter (· ∉ names)

theorem mem_uncollected {n : String} {names : Names} :
    n ∈ c.uncollected names ↔ (c.function? n).isSome ∧ n ∉ names := by
  unfold uncollected function?
  rw [Finset.mem_filter, List.mem_toFinset, Std.ExtTreeMap.mem_keys,
    Std.ExtTreeMap.mem_iff_isSome_getElem?]

theorem card_uncollected_le (names : Names) : (c.uncollected names).card ≤ c.functions.size :=
  calc (c.uncollected names).card ≤ c.functions.keys.toFinset.card := Finset.card_filter_le _ _
    _ ≤ c.functions.keys.length := List.toFinset_card_le _
    _ = c.functions.size := Std.ExtTreeMap.length_keys

/-- A round that adds names leaves fewer functions to collect. -/
theorem card_uncollected_lt {names : Names} (h : (c.withReferrers names).size ≠ names.size) :
    (c.uncollected (c.withReferrers names)).card < (c.uncollected names).card := by
  have hnew : ∃ n ∈ c.withReferrers names, n ∉ names := by
    by_contra hnone
    have heq : c.withReferrers names = names := Std.ExtTreeSet.ext_mem fun {n} =>
      ⟨fun hn => by_contra fun hn' => hnone ⟨n, hn, hn'⟩, fun hn => c.mem_withReferrers.2 (.inl hn)⟩
    exact h (congrArg Std.ExtTreeSet.size heq)
  obtain ⟨n, hmore, hn⟩ := hnew
  obtain ⟨f, hf, -⟩ := (c.mem_withReferrers.1 hmore).resolve_left hn
  refine Finset.card_lt_card (Finset.ssubset_iff_of_subset (fun r hr => ?_) |>.2 ⟨n, ?_, ?_⟩)
  · rw [mem_uncollected] at hr ⊢
    exact ⟨hr.1, fun hr' => hr.2 (c.mem_withReferrers.2 (.inl hr'))⟩
  · rw [mem_uncollected, hf]
    exact ⟨rfl, hn⟩
  · rw [mem_uncollected]
    exact fun hn' => hn'.2 hmore

/-- With a round for each function left, a closed set is reached. -/
theorem closedNames_collect {rounds : Nat} {names : Names}
    (h : (c.uncollected names).card ≤ rounds) : c.ClosedNames (c.collect rounds names) := by
  induction rounds generalizing names with
  | zero =>
    intro n f hf _
    by_contra hn
    have hmem : n ∈ c.uncollected names := c.mem_uncollected.2 ⟨by rw [hf]; rfl, hn⟩
    rw [Finset.card_eq_zero.1 (Nat.le_zero.1 h)] at hmem
    exact absurd hmem (Finset.notMem_empty n)
  | succ rounds ih =>
    unfold collect
    dsimp only
    split
    · next hsize => exact c.closedNames_of_size_eq hsize
    · next hsize =>
      have hlt := c.card_uncollected_lt hsize
      exact ih (by omega)

theorem subset_collect (rounds : Nat) {names : Names} {n : String} (h : n ∈ names) :
    n ∈ c.collect rounds names := by
  induction rounds generalizing names with
  | zero => exact h
  | succ rounds ih =>
    unfold collect
    dsimp only
    split
    · exact h
    · exact ih ((c.mem_withReferrers).2 (.inl h))

theorem self_mem_affected (name : String) : name ∈ c.affected name :=
  c.subset_collect _ (mem_singleton_names.2 rfl)

theorem mem_affected_of_refersTo {name n : String} {f : Function} (hf : c.function? n = some f)
    (h : refersTo f (c.affected name) = true) : n ∈ c.affected name :=
  c.closedNames_collect (c.card_uncollected_le {name}) n f hf h

/-! ## The least closed set -/

variable {c}

/-- What holds of the first names and of every function that refers to a name with it holds of all
names collected. -/
theorem collect_induction {P : String → Prop}
    (hP : ∀ n f, c.function? n = some f → (∃ r ∈ f.references, P r) → P n) (rounds : Nat)
    {names : Names} (h : ∀ n ∈ names, P n) : ∀ n ∈ c.collect rounds names, P n := by
  induction rounds generalizing names with
  | zero => exact h
  | succ rounds ih =>
    unfold collect
    dsimp only
    split
    · exact h
    · refine ih fun n hn => ?_
      rcases c.mem_withReferrers.1 hn with hn | ⟨f, hf, hrefers⟩
      · exact h n hn
      · obtain ⟨r, hr, hrnames⟩ := refersTo_iff.1 hrefers
        exact hP n f hf ⟨r, hr, h r hrnames⟩

theorem affected_induction {P : String → Prop} {name : String}
    (hP : ∀ n f, c.function? n = some f → (∃ r ∈ f.references, P r) → P n) (hname : P name) :
    ∀ n ∈ c.affected name, P n := by
  refine collect_induction hP _ fun n hn => ?_
  rw [mem_singleton_names.1 hn]
  exact hname

/-- A closed set with a name in it has all that depends on the name. -/
theorem affected_subset {name : String} {closed : Names} (hclosed : c.ClosedNames closed)
    (hname : name ∈ closed) : ∀ n ∈ c.affected name, n ∈ closed :=
  affected_induction (fun n f hf hrefers => hclosed n f hf (refersTo_iff.2 hrefers)) hname

theorem closedNames_affected (c : Context) (name : String) : c.ClosedNames (c.affected name) :=
  fun _ _ hf hrefers => c.mem_affected_of_refersTo hf hrefers

/-- What depends on a name does not hang on what the function of this name refers to. -/
theorem affected_congr {c d : Context} {name : String}
    (h : ∀ n, n ≠ name →
      (c.function? n).map Function.references = (d.function? n).map Function.references) :
    c.affected name = d.affected name := by
  -- a set with the name in it is closed in one context if it is in the other
  have hsubset : ∀ {c d : Context}, (∀ n, n ≠ name →
      (c.function? n).map Function.references = (d.function? n).map Function.references) →
      ∀ n ∈ c.affected name, n ∈ d.affected name := by
    intro c d h
    refine affected_subset (fun n f hf hrefers => ?_) (d.self_mem_affected name)
    by_cases hn : n = name
    · exact hn ▸ d.self_mem_affected name
    · have hmap := h n hn
      rw [hf, Option.map_some, eq_comm, Option.map_eq_some_iff] at hmap
      obtain ⟨g, hg, hreferences⟩ := hmap
      refine d.mem_affected_of_refersTo hg ?_
      rw [refersTo_iff] at hrefers ⊢
      rwa [hreferences]
  exact Std.ExtTreeSet.ext_mem fun {n} =>
    ⟨hsubset h n, hsubset (fun n hn => (h n hn).symm) n⟩

end Reckoner.Context
