import Mathlib.Tactic.Common
import Reckoner.Fragment.Calls

/-!
# Outermost commas

Arguments are separated by the commas that stand outside brackets, also in a text whose brackets do
not match.  `IsOutermostSplit` says so of a list of parts by counting the brackets from the start of
each part.

1. `Splits` says the same of a text that is read from inside a part, at a given depth.  A character
   put before the first part keeps it (`Splits.cons`), so splitting follows it
   (`splits_splitFrom`).
2. A text whose commas stand inside brackets goes into one part as a whole
   (`Enclosed.splitFrom_append`), so the parts are determined (`Splits.splitFrom_eq`).
3. Parts are split in this sense exactly if they have the counts of an outermost split
   (`Splits.isOutermostSplit`, `IsOutermostSplit.splits`); so the arguments of a text are its only
   outermost split (`splitArguments_is_only_outermost_split`).
-/

namespace Reckoner.Grammar

open Fragment

/-! ## Depths -/

/-- How many more brackets a text opens than it closes. -/
def surplus (cs : List Char) : Int := (cs.count '[' : Int) - cs.count ']'

theorem surplus_eq_zero_iff {cs : List Char} : surplus cs = 0 ↔ cs.count '[' = cs.count ']' := by
  unfold surplus
  omega

theorem surplus_append (cs ds : List Char) : surplus (cs ++ ds) = surplus cs + surplus ds := by
  simp only [surplus, List.count_append]
  omega

theorem depthAfter_eq (depth : Int) (c : Char) : depthAfter depth c = depth + surplus [c] := by
  by_cases hopen : c = '['
  · subst hopen
    rfl
  · by_cases hclose : c = ']'
    · subst hclose
      rfl
    · simp [depthAfter, surplus, hopen, hclose]

theorem depthAfter_add_surplus (depth : Int) (c : Char) (cs : List Char) :
    depthAfter depth c + surplus cs = depth + surplus (c :: cs) := by
  rw [depthAfter_eq, Int.add_assoc, ← surplus_append, List.singleton_append]

/-- The commas of a text stand inside brackets, if `depth` brackets are open before it. -/
def Enclosed (depth : Int) (cs : List Char) : Prop :=
  ∀ before after, cs = before ++ ',' :: after → depth + surplus before ≠ 0

theorem enclosed_zero_iff {cs : List Char} :
    Enclosed 0 cs ↔ ∀ before after, cs = before ++ ',' :: after →
      before.count '[' ≠ before.count ']' := by
  simp only [Enclosed, Int.zero_add, ne_eq, surplus_eq_zero_iff]

theorem enclosed_nil (depth : Int) : Enclosed depth [] := by
  intro before after h
  simp at h

theorem enclosed_cons_iff {depth : Int} {c : Char} {cs : List Char} :
    Enclosed depth (c :: cs) ↔ ¬ (c = ',' ∧ depth = 0) ∧ Enclosed (depthAfter depth c) cs := by
  constructor
  · intro h
    refine ⟨?_, ?_⟩
    · rintro ⟨rfl, rfl⟩
      exact h [] cs rfl rfl
    · rintro before after rfl
      rw [depthAfter_add_surplus]
      exact h (c :: before) after rfl
  · rintro ⟨hc, hcs⟩ before after happ
    cases before with
    | nil =>
      obtain ⟨rfl, rfl⟩ := List.cons.inj happ
      intro hdepth
      exact hc ⟨rfl, by simpa [surplus] using hdepth⟩
    | cons d before =>
      obtain ⟨rfl, rfl⟩ := List.cons.inj happ
      rw [← depthAfter_add_surplus]
      exact hcs before after rfl

theorem enclosed_append_iff {depth : Int} {cs ds : List Char} :
    Enclosed depth (cs ++ ds) ↔ Enclosed depth cs ∧ Enclosed (depth + surplus cs) ds := by
  induction cs generalizing depth with
  | nil => simp [surplus, enclosed_nil]
  | cons c cs ih =>
    rw [List.cons_append, enclosed_cons_iff, enclosed_cons_iff, ih, depthAfter_add_surplus,
      and_assoc]

/-! ## Parts -/

/-- How a text is split that begins inside a part, at a given depth: each part but the last ends at
a comma where as many brackets are closed as opened, and all other commas are inside brackets. -/
inductive Splits : Int → List Char → List (List Char) → Prop where
  | last {depth : Int} {part : List Char} (inside : Enclosed depth part) :
      Splits depth part [part]
  | next {depth : Int} {part rest : List Char} {parts : List (List Char)}
      (inside : Enclosed depth part) (closed : depth + surplus part = 0)
      (others : Splits 0 rest parts) : Splits depth (part ++ ',' :: rest) (part :: parts)

/-- A character that is not a comma between parts belongs to the first part. -/
theorem Splits.cons {depth : Int} {c : Char} {cs : List Char} {parts : List (List Char)}
    (h : Splits (depthAfter depth c) cs parts) (hc : ¬ (c = ',' ∧ depth = 0)) :
    Splits depth (c :: cs) (consFirst c parts) := by
  cases h with
  | last inside => exact .last (enclosed_cons_iff.2 ⟨hc, inside⟩)
  | next inside closed others =>
    rw [depthAfter_add_surplus] at closed
    exact .next (enclosed_cons_iff.2 ⟨hc, inside⟩) closed others

theorem splitFrom_comma (cs : List Char) : splitFrom 0 (',' :: cs) = [] :: splitFrom 0 cs := rfl

theorem splitFrom_cons {depth : Int} {c : Char} (hc : ¬ (c = ',' ∧ depth = 0)) (cs : List Char) :
    splitFrom depth (c :: cs) = consFirst c (splitFrom (depthAfter depth c) cs) := by
  rw [splitFrom, if_neg (by simpa using hc)]

/-- Splitting follows the rules. -/
theorem splits_splitFrom (depth : Int) (cs : List Char) :
    Splits depth cs (splitFrom depth cs) := by
  induction cs generalizing depth with
  | nil => exact .last (enclosed_nil depth)
  | cons c cs ih =>
    by_cases hc : c = ',' ∧ depth = 0
    · obtain ⟨rfl, rfl⟩ := hc
      rw [splitFrom_comma]
      exact .next (enclosed_nil 0) rfl (ih 0)
    · rw [splitFrom_cons hc]
      exact (ih _).cons hc

theorem foldr_consFirst (cs part : List Char) (parts : List (List Char)) :
    cs.foldr consFirst (part :: parts) = (cs ++ part) :: parts := by
  induction cs with
  | nil => rfl
  | cons c cs ih => rw [List.foldr_cons, ih, consFirst, List.cons_append]

/-- A text whose commas stand inside brackets goes into one part as a whole. -/
theorem Enclosed.splitFrom_append {depth : Int} {cs : List Char} (h : Enclosed depth cs)
    (rest : List Char) :
    splitFrom depth (cs ++ rest) =
      cs.foldr consFirst (splitFrom (depth + surplus cs) rest) := by
  induction cs generalizing depth with
  | nil => simp [surplus]
  | cons c cs ih =>
    obtain ⟨hc, hcs⟩ := enclosed_cons_iff.1 h
    rw [List.cons_append, splitFrom_cons hc, ih hcs, depthAfter_add_surplus, List.foldr_cons]

/-- There is only one way to split a text. -/
theorem Splits.splitFrom_eq {depth : Int} {cs : List Char} {parts : List (List Char)}
    (h : Splits depth cs parts) : splitFrom depth cs = parts := by
  induction h with
  | @last depth part inside =>
    have hpart := inside.splitFrom_append []
    rwa [List.append_nil, splitFrom, foldr_consFirst, List.append_nil] at hpart
  | @next depth part rest parts inside closed _ ih =>
    rw [inside.splitFrom_append, closed, splitFrom_comma, foldr_consFirst, ih, List.append_nil]

/-! ## Outermost splits -/

/-- Parts of a text between its outermost commas: joined by commas they are the text, each part but
the last opens as many brackets as it closes, and a comma inside a part stands where the brackets
opened and closed since the part's start differ in number. -/
structure IsOutermostSplit (cs : List Char) (parts : List (List Char)) : Prop where
  joined : [','].intercalate parts = cs
  even : ∀ part ∈ parts.dropLast, part.count '[' = part.count ']'
  enclosed : ∀ part ∈ parts, ∀ before after, part = before ++ ',' :: after →
    before.count '[' ≠ before.count ']'

theorem Splits.ne_nil {depth : Int} {cs : List Char} {parts : List (List Char)}
    (h : Splits depth cs parts) : parts ≠ [] := by
  cases h <;> exact List.cons_ne_nil _ _

theorem Splits.isOutermostSplit {cs : List Char} {parts : List (List Char)}
    (h : Splits 0 cs parts) : IsOutermostSplit cs parts := by
  -- only the first part can begin inside brackets, so the induction stays at depth zero
  generalize hdepth : (0 : Int) = depth at h
  induction h with
  | @last depth part inside =>
    subst hdepth
    refine ⟨List.intercalate_singleton, by simp, ?_⟩
    intro p hp
    rw [List.mem_singleton.1 hp]
    exact enclosed_zero_iff.1 inside
  | @next depth part rest parts inside closed others ih =>
    subst hdepth
    have hrest := ih rfl
    rw [Int.zero_add, surplus_eq_zero_iff] at closed
    refine ⟨?_, ?_, ?_⟩
    · rw [List.intercalate_cons_of_ne_nil others.ne_nil, hrest.joined, List.append_assoc]
      rfl
    · rw [List.dropLast_cons_of_ne_nil others.ne_nil]
      exact List.forall_mem_cons.2 ⟨closed, hrest.even⟩
    · exact List.forall_mem_cons.2 ⟨enclosed_zero_iff.1 inside, hrest.enclosed⟩

theorem IsOutermostSplit.splits {cs : List Char} {parts : List (List Char)}
    (h : IsOutermostSplit cs parts) (hne : parts ≠ []) : Splits 0 cs parts := by
  induction parts generalizing cs with
  | nil => exact absurd rfl hne
  | cons part parts ih =>
    have hpart : Enclosed 0 part := enclosed_zero_iff.2 (h.enclosed part List.mem_cons_self)
    by_cases hparts : parts = []
    · subst hparts
      rw [← h.joined, List.intercalate_singleton]
      exact .last hpart
    · have heven := h.even
      rw [List.dropLast_cons_of_ne_nil hparts, List.forall_mem_cons] at heven
      have hclosed : 0 + surplus part = 0 := by
        rw [Int.zero_add, surplus_eq_zero_iff]
        exact heven.1
      have hrest : IsOutermostSplit ([','].intercalate parts) parts :=
        ⟨rfl, heven.2, fun p hp => h.enclosed p (List.mem_cons_of_mem _ hp)⟩
      rw [← h.joined, List.intercalate_cons_of_ne_nil hparts, List.append_assoc]
      exact .next hpart hclosed (ih hrest hparts)

/-! ## Arguments -/

theorem isOutermostSplit_splitArguments (cs : List Char) :
    IsOutermostSplit cs (splitArguments cs) := by
  unfold splitArguments
  split
  · next h =>
    rw [List.isEmpty_iff.1 h]
    exact ⟨rfl, nofun, nofun⟩
  · exact (splits_splitFrom 0 cs).isOutermostSplit

theorem intercalate_splitArguments (cs : List Char) :
    [','].intercalate (splitArguments cs) = cs :=
  (isOutermostSplit_splitArguments cs).joined

theorem IsOutermostSplit.splitArguments_eq {cs : List Char} {parts : List (List Char)}
    (h : IsOutermostSplit cs parts) (hcs : cs ≠ []) : splitArguments cs = parts := by
  have hparts : parts ≠ [] := by
    rintro rfl
    exact hcs h.joined.symm
  rw [splitArguments, if_neg (by rwa [List.isEmpty_iff])]
  exact (h.splits hparts).splitFrom_eq

/-- **Arguments.** An empty text has none.  Any other text, whether or not its brackets match, is
split at its outermost commas, and in no other way. -/
theorem splitArguments_is_only_outermost_split :
    splitArguments [] = [] ∧
      ∀ cs, cs ≠ [] → IsOutermostSplit cs (splitArguments cs) ∧
        ∀ parts, IsOutermostSplit cs parts → parts = splitArguments cs :=
  ⟨splitArguments_nil, fun cs hcs =>
    ⟨isOutermostSplit_splitArguments cs, fun _ h => (h.splitArguments_eq hcs).symm⟩⟩

/-- Empty parts, a part that closes before it opens, and a last part that stays open. -/
def unmatchedText : List Char := ",]a,b[,,f[x,y],[c,".toList

theorem only_outermost_split_of_unmatchedText :
    unmatchedText ≠ [] ∧
      ∀ parts, IsOutermostSplit unmatchedText parts ↔
        parts = ["".toList, "]a,b[".toList, "".toList, "f[x,y]".toList, "[c,".toList] := by
  have hne : unmatchedText ≠ [] := by decide
  have hparts : splitArguments unmatchedText =
      ["".toList, "]a,b[".toList, "".toList, "f[x,y]".toList, "[c,".toList] := by decide
  obtain ⟨-, hsplit⟩ := splitArguments_is_only_outermost_split
  obtain ⟨hself, honly⟩ := hsplit unmatchedText hne
  rw [hparts] at hself honly
  exact ⟨hne, fun parts => ⟨honly parts, fun h => h ▸ hself⟩⟩

end Reckoner.Grammar
