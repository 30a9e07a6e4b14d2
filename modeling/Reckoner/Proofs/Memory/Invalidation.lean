import Mathlib.Logic.Function.Iterate
import Mathlib.Logic.Relation
import Reckoner.Proofs.Memory.Bare
import Reckoner.Proofs.Memory.Dependence

/-!
# Invalidation reaches exactly the dependents

1. A function depends on a name if a chain of references leads from it to the name.  The functions
   that forget their values are the ones with such a chain (`Context.refersTo_affected_iff`).
2. `Search`: the same by a work list.  A changed name is taken from the list, the functions that
   refer to it forget their values, and those not seen before are put on the list.  Every search
   comes to an end, because each function is put on the list at most once
   (`Search.Follows.exists_pending_eq_nil`), and it ends with the functions of
   `Context.invalidate` (`Search.Follows.functions_eq`).
-/

namespace Reckoner

/-! ## Chains of references -/

namespace Context

variable {c : Context} {name n : String}

/-- The function of a name refers to another name. -/
def Refers (c : Context) (n m : String) : Prop := ∃ f, c.function? n = some f ∧ m ∈ f.references

/-- What a change of a name affects are the name itself and what leads to it by references. -/
theorem mem_affected_iff :
    n ∈ c.affected name ↔ Relation.ReflTransGen c.Refers n name := by
  constructor
  · intro h
    refine @affected_induction c (fun n => Relation.ReflTransGen c.Refers n name) name
      (fun n f hf hrefers => ?_) .refl n h
    obtain ⟨r, hr, hchain⟩ := hrefers
    exact .head ⟨f, hf, hr⟩ hchain
  · intro h
    induction h using Relation.ReflTransGen.head_induction_on with
    | refl => exact c.self_mem_affected name
    | head hrefers _ ih =>
      obtain ⟨f, hf, hr⟩ := hrefers
      exact c.mem_affected_of_refersTo hf (refersTo_iff.2 ⟨_, hr, ih⟩)

/-- The functions that refer to what is affected are those that lead to the name by references. -/
theorem refersTo_affected_iff {f : Function} (hf : c.function? n = some f) :
    refersTo f (c.affected name) = true ↔ Relation.TransGen c.Refers n name := by
  rw [refersTo_iff, Relation.TransGen.head'_iff]
  simp only [mem_affected_iff, Refers, hf, Option.some.injEq, exists_eq_left']

end Context

/-! ## Searching with a work list -/

/-- A search for what depends on a changed name: the functions as they are so far, the changed names
that are still to be looked at, the last one first, and all names that were put there. -/
structure Search where
  functions : Std.ExtTreeMap String Function
  pending : List String
  seen : Names

namespace Search

/-- Meets a function while a changed name is looked at. -/
def meet (changed : String) (s : Search) (entry : String × Function) : Search :=
  if entry.2.references.contains changed then
    { functions := s.functions.insert entry.1 entry.2.forget
      pending := if s.seen.contains entry.1 then s.pending else entry.1 :: s.pending
      seen := s.seen.insert entry.1 }
  else s

/-- Looks at the next changed name, if there is one: meets all functions in turn. -/
def step (s : Search) : Search :=
  match s.pending with
  | [] => s
  | changed :: rest => s.functions.toList.foldl (meet changed) { s with pending := rest }

/-- A search before its first step. -/
def start (c : Context) (name : String) : Search := ⟨c.functions, [name], {name}⟩

variable {s : Search} {changed n : String}

/-! ### Meeting functions -/

section Meet

variable {entries : List (String × Function)}

theorem meet_of_mem {entry : String × Function} (h : changed ∈ entry.2.references) (s : Search) :
    meet changed s entry =
      { functions := s.functions.insert entry.1 entry.2.forget
        pending := if s.seen.contains entry.1 then s.pending else entry.1 :: s.pending
        seen := s.seen.insert entry.1 } := by
  unfold meet
  rw [if_pos (Std.ExtTreeSet.contains_iff_mem.2 h)]

theorem meet_of_not_mem {entry : String × Function} (h : changed ∉ entry.2.references)
    (s : Search) : meet changed s entry = s := by
  unfold meet
  rw [if_neg fun hmem => h (Std.ExtTreeSet.contains_iff_mem.1 hmem)]

theorem mem_seen_foldl_meet (s : Search) :
    n ∈ (entries.foldl (meet changed) s).seen ↔
      n ∈ s.seen ∨ ∃ f, (n, f) ∈ entries ∧ changed ∈ f.references := by
  induction entries generalizing s with
  | nil => simp
  | cons entry entries ih =>
    obtain ⟨name, g⟩ := entry
    rw [List.foldl_cons, ih]
    by_cases hg : changed ∈ g.references
    · rw [meet_of_mem hg]
      grind
    · rw [meet_of_not_mem hg]
      grind

theorem mem_pending_foldl_meet (s : Search) :
    n ∈ (entries.foldl (meet changed) s).pending ↔
      n ∈ s.pending ∨ n ∉ s.seen ∧ ∃ f, (n, f) ∈ entries ∧ changed ∈ f.references := by
  induction entries generalizing s with
  | nil => simp
  | cons entry entries ih =>
    obtain ⟨name, g⟩ := entry
    rw [List.foldl_cons, ih]
    by_cases hg : changed ∈ g.references
    · rw [meet_of_mem hg]
      grind
    · rw [meet_of_not_mem hg]
      grind

theorem functions_foldl_meet_of_not (s : Search)
    (h : ∀ f, (n, f) ∈ entries → changed ∉ f.references) :
    (entries.foldl (meet changed) s).functions[n]? = s.functions[n]? := by
  induction entries generalizing s with
  | nil => rfl
  | cons entry entries ih =>
    obtain ⟨name, g⟩ := entry
    rw [List.foldl_cons, ih _ fun f hf => h f (List.mem_cons_of_mem _ hf)]
    by_cases hg : changed ∈ g.references
    · have hne : name ≠ n := by
        rintro rfl
        exact h g List.mem_cons_self hg
      rw [meet_of_mem hg, Std.ExtTreeMap.getElem?_insert]
      simp [hne]
    · rw [meet_of_not_mem hg]

theorem functions_foldl_meet_of_mem (s : Search)
    (hdistinct : entries.Pairwise fun a b => a.1 ≠ b.1) {f : Function} (hf : (n, f) ∈ entries)
    (hchanged : changed ∈ f.references) :
    (entries.foldl (meet changed) s).functions[n]? = some f.forget := by
  induction entries generalizing s with
  | nil => cases hf
  | cons entry entries ih =>
    obtain ⟨hhead, hrest⟩ := List.pairwise_cons.1 hdistinct
    rw [List.foldl_cons]
    rcases List.mem_cons.1 hf with rfl | hf
    · have hnone : ∀ g, (n, g) ∈ entries → changed ∉ g.references :=
        fun g hg => absurd rfl (hhead (n, g) hg)
      rw [functions_foldl_meet_of_not _ hnone, meet_of_mem hchanged,
        Std.ExtTreeMap.getElem?_insert_self]
    · exact ih _ hrest hf

end Meet

/-! ### One step -/

section Step

variable {rest : List String}

theorem step_eq (h : s.pending = changed :: rest) :
    s.step = s.functions.toList.foldl (meet changed) { s with pending := rest } := by
  unfold step
  rw [h]

theorem functions_step (h : s.pending = changed :: rest) (n : String) :
    s.step.functions[n]? =
      s.functions[n]?.map (fun f => if changed ∈ f.references then f.forget else f) := by
  rw [step_eq h]
  by_cases hn : ∃ f, s.functions[n]? = some f ∧ changed ∈ f.references
  · obtain ⟨f, hf, hchanged⟩ := hn
    have hdistinct : s.functions.toList.Pairwise fun a b => a.1 ≠ b.1 :=
      Std.ExtTreeMap.distinct_keys_toList.imp fun hab heq =>
        hab (Std.LawfulEqCmp.compare_eq_iff_eq.2 heq)
    have hmem := Std.ExtTreeMap.mem_toList_iff_getElem?_eq_some.2 hf
    rw [functions_foldl_meet_of_mem _ hdistinct hmem hchanged, hf, Option.map_some, if_pos hchanged]
  · have hnone : ∀ f, s.functions[n]? = some f → changed ∉ f.references :=
      fun f hf hchanged => hn ⟨f, hf, hchanged⟩
    rw [functions_foldl_meet_of_not _ fun f hf =>
      hnone f (Std.ExtTreeMap.mem_toList_iff_getElem?_eq_some.1 hf)]
    show s.functions[n]? = _
    cases hf : s.functions[n]? with
    | none => rfl
    | some f => rw [Option.map_some, if_neg (hnone f hf)]

theorem mem_seen_step (h : s.pending = changed :: rest) :
    n ∈ s.step.seen ↔
      n ∈ s.seen ∨ ∃ f, s.functions[n]? = some f ∧ changed ∈ f.references := by
  rw [step_eq h, mem_seen_foldl_meet]
  simp only [Std.ExtTreeMap.mem_toList_iff_getElem?_eq_some]

theorem mem_pending_step (h : s.pending = changed :: rest) :
    n ∈ s.step.pending ↔
      n ∈ rest ∨ n ∉ s.seen ∧ ∃ f, s.functions[n]? = some f ∧ changed ∈ f.references := by
  rw [step_eq h, mem_pending_foldl_meet]
  simp only [Std.ExtTreeMap.mem_toList_iff_getElem?_eq_some]

end Step

/-! ### The invariant -/

variable {c : Context} {name : String} {looked : Names}

/-- What holds of a search after it looked at some names: the functions that refer to one of these
have forgotten their values and are seen; the names seen are those looked at and those pending; the
changed name is one of them, and each of them depends on it. -/
structure Follows (c : Context) (name : String) (looked : Names) (s : Search) : Prop where
  function? : ∀ n, s.functions[n]? =
    (c.function? n).map (fun f => if Context.refersTo f looked then f.forget else f)
  mem_seen : ∀ n, n ∈ s.seen ↔ n ∈ looked ∨ n ∈ s.pending
  referrer_mem : ∀ n f, c.function? n = some f → Context.refersTo f looked = true → n ∈ s.seen
  name_mem : name ∈ s.seen
  seen_affected : ∀ n ∈ s.seen, n ∈ c.affected name

theorem follows_start (c : Context) (name : String) : Follows c name ∅ (start c name) := by
  have hnone : ∀ f : Function, Context.refersTo f ∅ = false := by
    intro f
    simp [Context.refersTo]
  refine ⟨fun n => ?_, fun n => ?_, fun n f _ hrefers => ?_, ?_, fun n hn => ?_⟩
  · simp [hnone, start, Context.function?]
  · simp only [start, Context.mem_singleton_names, List.mem_singleton]
    simp
  · rw [hnone] at hrefers
    cases hrefers
  · exact Context.mem_singleton_names.2 rfl
  · rw [Context.mem_singleton_names.1 hn]
    exact c.self_mem_affected name

theorem refersTo_insert {f : Function} :
    Context.refersTo f (looked.insert changed) = true ↔
      Context.refersTo f looked = true ∨ changed ∈ f.references := by
  simp only [Context.refersTo_iff, Std.ExtTreeSet.mem_insert, Std.LawfulEqCmp.compare_eq_iff_eq]
  grind

namespace Follows

/-- The functions of a search refer to what they referred to at its start. -/
theorem exists_mem_references_iff (h : Follows c name looked s) :
    (∃ f, s.functions[n]? = some f ∧ changed ∈ f.references) ↔
      ∃ f, c.function? n = some f ∧ changed ∈ f.references := by
  have hreferences : ∀ f : Function,
      (if Context.refersTo f looked then f.forget else f).references = f.references := by
    intro f
    split
    · exact Function.references_forget f
    · rfl
  rw [h.function?]
  cases c.function? n with
  | none => simp
  | some f => simp [hreferences]

/-- A step looks at one more name. -/
theorem step (h : Follows c name looked s) {rest : List String} (hs : s.pending = changed :: rest) :
    Follows c name (looked.insert changed) s.step := by
  have hseen : ∀ n, n ∈ s.step.seen ↔
      n ∈ s.seen ∨ ∃ f, c.function? n = some f ∧ changed ∈ f.references := by
    intro n
    rw [mem_seen_step hs, h.exists_mem_references_iff]
  have hchanged : changed ∈ s.seen := (h.mem_seen changed).2 (.inr (hs ▸ List.mem_cons_self))
  refine ⟨fun n => ?_, fun n => ?_, fun n f hf hrefers => ?_, ?_, fun n hn => ?_⟩
  · rw [functions_step hs, h.function?, Option.map_map]
    congr 1
    funext f
    simp only [Function.comp_apply, refersTo_insert]
    split <;> simp_all
  · rw [hseen, mem_pending_step hs, h.exists_mem_references_iff, h.mem_seen, hs,
      Std.ExtTreeSet.mem_insert, Std.LawfulEqCmp.compare_eq_iff_eq]
    grind
  · rw [hseen]
    rcases refersTo_insert.1 hrefers with hrefers | hmem
    · exact .inl (h.referrer_mem n f hf hrefers)
    · exact .inr ⟨f, hf, hmem⟩
  · exact (hseen name).2 (.inl h.name_mem)
  · rcases (hseen n).1 hn with hn | ⟨f, hf, hmem⟩
    · exact h.seen_affected n hn
    · have hrefers := Context.refersTo_iff.2 ⟨changed, hmem, h.seen_affected changed hchanged⟩
      exact c.mem_affected_of_refersTo hf hrefers

/-- When nothing is pending, the functions are those of the context after the change. -/
theorem functions_eq (h : Follows c name looked s) (hs : s.pending = []) :
    s.functions = (c.invalidate name).functions := by
  have hseen : ∀ n, n ∈ s.seen ↔ n ∈ looked := by
    intro n
    rw [h.mem_seen, hs]
    simp
  have hclosed : c.ClosedNames looked :=
    fun n f hf hrefers => (hseen n).1 (h.referrer_mem n f hf hrefers)
  have hlooked : looked = c.affected name := by
    refine Std.ExtTreeSet.ext_mem fun {n} => ⟨fun hn => ?_, fun hn => ?_⟩
    · exact h.seen_affected n ((hseen n).2 hn)
    · exact Context.affected_subset hclosed ((hseen name).1 h.name_mem) n hn
  refine Std.ExtTreeMap.ext_getElem? fun n => ?_
  rw [h.function? n, hlooked]
  exact (c.function?_invalidate name n).symm

end Follows

/-! ### The end -/

/-- The names pending and the functions not seen yet: what a search may still look at. -/
def remaining (c : Context) (s : Search) : Nat := s.pending.length + (c.uncollected s.seen).card

theorem uncollected_insert (names : Names) (n : String) :
    c.uncollected (names.insert n) = (c.uncollected names).erase n := by
  ext m
  rw [Finset.mem_erase, Context.mem_uncollected, Context.mem_uncollected,
    Std.ExtTreeSet.mem_insert, Std.LawfulEqCmp.compare_eq_iff_eq]
  grind

/-- A function that becomes pending is no longer one not seen yet. -/
theorem remaining_meet {entry : String × Function} (hentry : (c.function? entry.1).isSome)
    (s : Search) : remaining c (meet changed s entry) = remaining c s := by
  by_cases hmem : changed ∈ entry.2.references
  · rw [meet_of_mem hmem]
    unfold remaining
    dsimp only
    rw [uncollected_insert]
    by_cases hseen : entry.1 ∈ s.seen
    · have hcollected : entry.1 ∉ c.uncollected s.seen :=
        fun hn => (c.mem_uncollected.1 hn).2 hseen
      rw [if_pos (Std.ExtTreeSet.contains_iff_mem.2 hseen),
        Finset.erase_eq_of_notMem hcollected]
    · have huncollected : entry.1 ∈ c.uncollected s.seen := c.mem_uncollected.2 ⟨hentry, hseen⟩
      have hcard := Finset.card_erase_add_one huncollected
      rw [if_neg fun h => hseen (Std.ExtTreeSet.contains_iff_mem.1 h), List.length_cons]
      omega
  · rw [meet_of_not_mem hmem]

theorem remaining_foldl_meet {entries : List (String × Function)}
    (hentries : ∀ entry ∈ entries, (c.function? entry.1).isSome) (s : Search) :
    remaining c (entries.foldl (meet changed) s) = remaining c s := by
  induction entries generalizing s with
  | nil => rfl
  | cons entry entries ih =>
    rw [List.foldl_cons, ih fun e he => hentries e (List.mem_cons_of_mem _ he),
      remaining_meet (hentries entry List.mem_cons_self)]

/-- Each step leaves one name less to look at. -/
theorem Follows.remaining_step (h : Follows c name looked s) {rest : List String}
    (hs : s.pending = changed :: rest) : remaining c s.step + 1 = remaining c s := by
  have hentries : ∀ entry ∈ s.functions.toList, (c.function? entry.1).isSome := by
    intro entry hentry
    have hsome := Std.ExtTreeMap.mem_toList_iff_getElem?_eq_some.1 hentry
    rw [h.function?, Option.map_eq_some_iff] at hsome
    obtain ⟨f, hf, -⟩ := hsome
    rw [hf]
    rfl
  rw [step_eq hs, remaining_foldl_meet hentries]
  unfold remaining
  dsimp only
  rw [hs, List.length_cons]
  omega

/-- A search looks at no more names than are left for it. -/
theorem Follows.exists_pending_eq_nil (h : Follows c name looked s) :
    ∃ rounds ≤ remaining c s, (Search.step^[rounds] s).pending = [] ∧
      (Search.step^[rounds] s).functions = (c.invalidate name).functions := by
  induction hremaining : remaining c s generalizing s looked with
  | zero =>
    have hs : s.pending = [] := by
      unfold remaining at hremaining
      exact List.length_eq_zero_iff.1 (by omega)
    exact ⟨0, le_rfl, hs, h.functions_eq hs⟩
  | succ left ih =>
    cases hs : s.pending with
    | nil => exact ⟨0, by omega, hs, h.functions_eq hs⟩
    | cons changed rest =>
      have hstep := h.remaining_step hs
      obtain ⟨rounds, hle, hend⟩ := ih (h.step hs) (by omega)
      exact ⟨rounds + 1, by omega, hend⟩

theorem remaining_start_le (c : Context) (name : String) :
    remaining c (start c name) ≤ c.functions.size + 1 := by
  have hcard : (c.uncollected {name}).card ≤ c.functions.size :=
    c.card_uncollected_le _
  show 1 + (c.uncollected {name}).card ≤ _
  omega

end Search

/-! ## What changes -/

namespace Context

/-- When a name changes, a search that looks at it and at each function found at most once ends with
the functions of the context after the change.  A function has nothing remembered afterwards if a
chain of references leads from it to the name, and remembers what it did before otherwise; nothing
else is changed. -/
theorem invalidate_clears_dependents (c : Context) (name : String) :
    (∃ rounds ≤ c.functions.size + 1,
      (Search.step^[rounds] (.start c name)).pending = [] ∧
      (Search.step^[rounds] (.start c name)).functions = (c.invalidate name).functions) ∧
    (∀ n f, c.user? n = some f → ∃ memo, (c.invalidate name).user? n = some { f with memo } ∧
      (Relation.TransGen c.Refers n name → memo = .empty) ∧
      (¬Relation.TransGen c.Refers n name → memo = f.memo)) ∧
    (∀ n, c.user? n = none → (c.invalidate name).function? n = c.function? n) ∧
    { c.invalidate name with functions := c.functions } = c := by
  refine ⟨?_, fun n f hf => ?_, fun n hn => ?_, rfl⟩
  · obtain ⟨rounds, hle, hend⟩ := (Search.follows_start c name).exists_pending_eq_nil
    exact ⟨rounds, hle.trans (Search.remaining_start_le c name), hend⟩
  · have hfunction := user?_eq_some.1 hf
    have hiff := @refersTo_affected_iff c name n _ hfunction
    by_cases hrefers : refersTo (.user f) (c.affected name) = true
    · refine ⟨.empty, ?_, fun _ => rfl, fun hnot => absurd (hiff.1 hrefers) hnot⟩
      rw [user?_eq_some, function?_invalidate, hfunction, Option.map_some, if_pos hrefers]
      rfl
    · refine ⟨f.memo, ?_, fun hchain => absurd (hiff.2 hchain) hrefers, fun _ => rfl⟩
      rw [user?_eq_some, function?_invalidate, hfunction, Option.map_some, if_neg hrefers]
  · rw [function?_invalidate]
    cases hf : c.function? n with
    | none => rfl
    | some f =>
      cases f with
      | builtin b => simp [Function.forget]
      | user f => simp [user?_eq_some.2 hf] at hn

end Context

end Reckoner
