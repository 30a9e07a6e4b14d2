import Mathlib.Data.List.Lex
import Mathlib.Data.Set.Card
import Reckoner.Table

/-!
# Tables and their history

`Table.Latest ops args value`: of the insertions since the last clearing in a history `ops`, the
last one at arguments with the values of `args` gave them `value`.  A table that has gone through
the history is the finite map that this relation describes (`Table.after_is_finite_map`).

The entries of a table come in the order of `List.Lex Number.Precedes`, which puts a list before its
extensions (`Table.pairwise_entries`).
-/

namespace Reckoner

namespace Number

/-- The parts have the same values. -/
def SameValue (a b : Number) : Prop := a.re.toRat = b.re.toRat ∧ a.im.toRat = b.im.toRat

/-- The real part is less, or it is the same and the imaginary part is less. -/
def Precedes (a b : Number) : Prop :=
  a.re.toRat < b.re.toRat ∨ a.re.toRat = b.re.toRat ∧ a.im.toRat < b.im.toRat

theorem sameValue_iff {a b : Number} : a.SameValue b ↔ a = b := by
  unfold SameValue
  rw [Dyadic.toRat_inj, Dyadic.toRat_inj]
  cases a
  cases b
  rw [Number.mk.injEq]

theorem precedes_of_compare {a b : Number} (h : compare a b = .lt) : a.Precedes b := by
  have hlt : ∀ x y : Dyadic, compare x y = .lt ↔ x < y := fun x y =>
    compareOfLessAndEq_eq_lt
  rw [compare_def, compareLex, Ordering.then_eq_lt, compareOn, compareOn, hlt, hlt,
    Std.LawfulEqCmp.compare_eq_iff_eq] at h
  unfold Precedes
  rwa [Dyadic.toRat_lt_toRat_iff, Dyadic.toRat_lt_toRat_iff, Dyadic.toRat_inj]

theorem Precedes.ne {a b : Number} (h : a.Precedes b) : a ≠ b := by
  rintro rfl
  simp [Precedes] at h

end Number

/-! ## The order of the entries -/

/-- The paths of the visits ascend, a path before its extensions. -/
theorem Trie.WellFormed.pairwise_walk {t : Trie} (h : t.WellFormed) (path : List Number) :
    (t.walk path).Pairwise (fun a b => List.Lex Number.Precedes a.1 b.1) := by
  induction h generalizing path with
  | @node value branches hascending hbelow _ ih =>
    have hpath : ∀ b ∈ branches, ∀ a ∈ walk (path ++ [b.1]) b.2, ∃ keys,
        a.1 = path ++ b.1 :: keys := by
      intro b hb a ha
      obtain ⟨keys, hkeys, -⟩ := (hbelow b hb).mem_walk.1 ha
      exact ⟨keys, by rw [hkeys, List.append_assoc, List.singleton_append]⟩
    rw [walk_eq, List.pairwise_append, List.pairwise_flatMap]
    refine ⟨?_, ⟨fun b hb => ih b hb _, ?_⟩, ?_⟩
    · cases value <;> simp
    · refine hascending.imp_of_mem fun {b b'} hb hb' hlt a ha a' ha' => ?_
      obtain ⟨keys, hkeys⟩ := hpath b hb a ha
      obtain ⟨keys', hkeys'⟩ := hpath b' hb' a' ha'
      rw [hkeys, hkeys']
      exact .append_left _ (.rel (Number.precedes_of_compare hlt)) path
    · intro a ha a' ha'
      obtain ⟨b, hb, hmem⟩ := List.mem_flatMap.1 ha'
      obtain ⟨keys, hkeys⟩ := hpath b hb a' hmem
      have ha : a.1 = path ++ [] := by
        cases value with
        | none => cases ha
        | some v => simp_all
      rw [ha, hkeys]
      exact .append_left _ .nil path

namespace Table

theorem pairwise_entries (t : Table) :
    t.entries.Pairwise (fun a b => List.Lex Number.Precedes a.1 b.1) :=
  t.wellFormed.pairwise_walk []

/-! ## Histories -/

/-- What is done to a table. -/
inductive Operation where
  | insert (args : List Number) (value : Number)
  | clear

/-- The table after an operation. -/
def perform (t : Table) : Operation → Table
  | .insert args value => t.put args value
  | .clear => .empty

def after (ops : List Operation) : Table := ops.foldl perform .empty

/-- Argument lists of the same length with numbers of the same values. -/
def SameArguments : List Number → List Number → Prop := List.Forall₂ Number.SameValue

/-- After the operation a former value at the arguments is gone. -/
def Operation.Overrides (args : List Number) : Operation → Prop
  | .insert key _ => SameArguments key args
  | .clear => True

/-- An insertion gave the arguments a value, and no operation after it overrides this. -/
def Latest (ops : List Operation) (args : List Number) (value : Number) : Prop :=
  ∃ earlier key later, ops = earlier ++ .insert key value :: later ∧ SameArguments key args ∧
    ∀ op ∈ later, ¬ op.Overrides args

theorem sameArguments_iff {key args : List Number} : SameArguments key args ↔ key = args := by
  have hsame : Number.SameValue = Eq := by
    funext a b
    exact propext Number.sameValue_iff
  rw [SameArguments, hsame, List.forall₂_eq_eq_eq]

/-- The last operation overrides all before it, or it does not count. -/
theorem latest_append {ops : List Operation} {op : Operation} {args : List Number}
    {value : Number} :
    Latest (ops ++ [op]) args value ↔
      (∃ key, op = .insert key value ∧ SameArguments key args) ∨
        ¬ op.Overrides args ∧ Latest ops args value := by
  constructor
  · rintro ⟨earlier, key, later, hops, hkey, hlater⟩
    induction later using List.reverseRecOn with
    | nil =>
      obtain ⟨-, hop⟩ := List.append_inj' hops rfl
      exact .inl ⟨key, List.singleton_inj.1 hop, hkey⟩
    | append_singleton later last _ =>
      rw [← List.cons_append, ← List.append_assoc] at hops
      obtain ⟨rfl, hop⟩ := List.append_inj' hops rfl
      cases List.singleton_inj.1 hop
      refine .inr ⟨hlater op (by simp), earlier, key, later, rfl, hkey, fun o ho => ?_⟩
      exact hlater o (by simp [ho])
  · rintro (⟨key, rfl, hkey⟩ | ⟨hop, earlier, key, later, rfl, hkey, hlater⟩)
    · exact ⟨ops, key, [], rfl, hkey, by simp⟩
    · refine ⟨earlier, key, later ++ [op], by simp, hkey, fun o ho => ?_⟩
      rcases List.mem_append.1 ho with ho | ho
      · exact hlater o ho
      · exact List.mem_singleton.1 ho ▸ hop

/-- A table holds the latest values of its history. -/
theorem find?_after {ops : List Operation} {args : List Number} {value : Number} :
    (after ops).find? args = some value ↔ Latest ops args value := by
  induction ops using List.reverseRecOn with
  | nil =>
    constructor
    · intro h
      cases (find?_empty args).symm.trans h
    · rintro ⟨earlier, key, later, hops, -⟩
      simp at hops
  | append_singleton ops op ih =>
    rw [latest_append, ← ih, after, List.foldl_append]
    cases op with
    | insert key new =>
      show ((after ops).put key new).find? args = some value ↔ _
      rw [find?_put]
      simp only [Operation.Overrides, sameArguments_iff, Operation.insert.injEq]
      by_cases hkey : key = args <;> simp [hkey]
    | clear =>
      show empty.find? args = some value ↔ _
      simp [Operation.Overrides]

theorem encard_keys (t : Table) : {args | ∃ value, t.find? args = some value}.encard = t.size := by
  have hnodup : (t.entries.map (·.1)).Nodup := by
    refine List.pairwise_map.2 (t.pairwise_entries.imp fun hlex => ?_)
    exact (hlex.imp (fun _ _ => Number.Precedes.ne) _ _).to_ne
  have hkeys : {args | ∃ value, t.find? args = some value} =
      ((t.entries.map (·.1)).toFinset : Set (List Number)) := by
    ext args
    simp [← mem_entries]
  rw [hkeys, Set.encard_coe_eq_coe_finsetCard, List.toFinset_card_of_nodup hnodup,
    List.length_map, length_entries]

/-- **Finite map.** After any history a look-up gives the value of the last insertion since the last
clearing at arguments of the same length and values, and nothing if there is none.  The size counts
the argument lists with such a value, and the entries are these lists with their values, each once,
in strictly ascending order. -/
theorem after_is_finite_map (ops : List Operation) :
    (∀ args value, (after ops).find? args = some value ↔ Latest ops args value) ∧
      {args | ∃ value, Latest ops args value}.encard = (after ops).size ∧
      ((after ops).isEmpty = true ↔ (after ops).size = 0) ∧
      (∀ args value, (args, value) ∈ (after ops).entries ↔ Latest ops args value) ∧
      (after ops).entries.Pairwise (fun a b => List.Lex Number.Precedes a.1 b.1) := by
  refine ⟨fun _ _ => find?_after, ?_, ?_, fun _ _ => mem_entries.trans find?_after,
    pairwise_entries _⟩
  · rw [← encard_keys]
    simp only [find?_after]
  · exact beq_iff_eq

example : (after [.insert [2] 5, .clear, .insert [2, 1] 7, .insert [] 4, .insert [2] 3,
    .insert [2, 1] 6]).entries = [([], 4), ([2], 3), ([2, 1], 6)] := by decide +kernel

end Table

end Reckoner
