import Reckoner.Proofs.Grammar.Cutting
import Reckoner.Proofs.Grammar.Words

/-!
# Scanning texts into fragments

1. Every fragment is in the language of its kind (`isProper_of_mem_scan`).
2. A sequence of tokens over words, with a placeholder for each call, is scanned into the fragments
   of its tokens (`scan_skeleton`), and the calls cut out of its text are its calls
   (`extract?_spell`).
-/

namespace Reckoner.Grammar

open Fragment

/-! ## Fuel -/

theorem scanWith_congr {n m : Nat} {cs : List Char} (hn : cs.length ≤ n) (hm : cs.length ≤ m) :
    scanWith n cs = scanWith m cs := by
  induction n generalizing m cs with
  | zero =>
    rw [List.length_eq_zero_iff.1 (Nat.le_zero.1 hn)]
    cases m <;> rfl
  | succ n ih =>
    cases cs with
    | nil => cases m <;> rfl
    | cons c cs =>
      have hlt := length_first_snd_lt c cs
      rw [List.length_cons] at hn hm hlt
      obtain ⟨m, rfl⟩ : ∃ k, m = k + 1 := ⟨m - 1, by omega⟩
      have hrest : scanWith n (first c cs).2 = scanWith m (first c cs).2 :=
        ih (by omega) (by omega)
      rw [scanWith, scanWith, hrest]

theorem scan_cons (c : Char) (cs : List Char) :
    scan (c :: cs) = (first c cs).1 :: scan (first c cs).2 := by
  have hlt := length_first_snd_lt c cs
  rw [List.length_cons] at hlt
  rw [scan, List.length_cons, scanWith, scanWith_congr (by omega) (Nat.le_refl _)]
  rfl

/-! ## Kinds of fragments -/

/-- The text of a fragment is in the language of its kind. -/
def IsProper (f : Fragment) : Prop :=
  match f.kind with
  | .numeral => Numeral.IsNumeral f.text.toList
  | .name => Text.isName f.text.toList = true
  | .operator => ∃ c, isOperator c = true ∧ f.text.toList = [c]
  | .grouper => ∃ c, isGrouper c = true ∧ f.text.toList = [c]
  | .call => f.text.toList = [placeholder]
  | .invalid => placeholder ∉ f.text.toList

theorem isProper_first (c : Char) (cs : List Char) : IsProper (first c cs).1 := by
  unfold first
  split
  · next h =>
    rw [beq_iff_eq] at h
    simp [IsProper, h]
  split
  · next h =>
    simp only [IsProper, String.toList_ofList]
    exact Numeral.isNumeral_span h cs
  split
  · next h =>
    simp only [IsProper, String.toList_ofList, Text.isName, h, Bool.true_and, List.all_eq_true]
    exact fun d hd => List.mem_takeWhile_imp hd
  split
  · next h => exact ⟨c, h, String.toList_ofList⟩
  split
  · next h => exact ⟨c, h, String.toList_ofList⟩
  · next h _ _ _ _ =>
    simp only [IsProper, String.toList_ofList, List.mem_cons, not_or]
    refine ⟨?_, fun hmem => ?_⟩
    · rintro rfl
      exact h (beq_self_eq_true _)
    · exact absurd (List.mem_takeWhile_imp hmem) (by decide)

theorem isProper_of_mem_scan {cs : List Char} {f : Fragment} (h : f ∈ scan cs) : IsProper f := by
  induction hn : cs.length using Nat.strongRecOn generalizing cs with
  | ind n ih =>
    cases cs with
    | nil => cases h
    | cons c cs =>
      have hlt := length_first_snd_lt c cs
      rw [scan_cons, List.mem_cons] at h
      rcases h with rfl | h
      · exact isProper_first c cs
      · exact ih _ (by omega) h rfl

theorem IsProper.placeholder_not_mem {f : Fragment} (h : IsProper f) (hk : f.kind ≠ .call) :
    placeholder ∉ f.text.toList := by
  obtain ⟨kind, text⟩ := f
  intro hmem
  cases kind with
  | numeral => exact absurd (plain_of_isNumeral h _ hmem).1 (by decide)
  | name => exact absurd (nameChar_of_isName h _ hmem) (by decide)
  | operator =>
    obtain ⟨c, hc, htext⟩ := h
    simp only at htext hmem
    rw [htext, List.mem_singleton] at hmem
    rw [← hmem] at hc
    exact absurd hc (by decide)
  | grouper =>
    obtain ⟨c, hc, htext⟩ := h
    simp only at htext hmem
    rw [htext, List.mem_singleton] at hmem
    rw [← hmem] at hc
    exact absurd hc (by decide)
  | call => exact hk rfl
  | invalid => exact h hmem

/-! ## Tokens over words -/

def fragmentOf : Token Word → Fragment
  | .operand (.numeral cs) => ⟨.numeral, String.ofList cs⟩
  | .operand (.name cs) => ⟨.name, String.ofList cs⟩
  | .operand (.call _) => ⟨.call, String.ofList [placeholder]⟩
  | .operator op => ⟨.operator, String.ofList [op.symbol]⟩
  | .grouper g => ⟨.grouper, String.ofList [g.symbol]⟩

def callOf? : Token Word → Option String
  | .operand (.call cs) => some (String.ofList cs)
  | _ => none

/-- The text of tokens with a placeholder for each call. -/
def skeleton (ts : List (Token Word)) : List Char :=
  ts.flatMap (fun t => (fragmentOf t).text.toList)

theorem skeleton_cons (t : Token Word) (ts : List (Token Word)) :
    skeleton (t :: ts) = (fragmentOf t).text.toList ++ skeleton ts := rfl

/-- A text in which symbols stand for themselves starts with a symbol if its first token is one. -/
theorem atSymbol_flatMap {f : Token Word → List Char}
    (hop : ∀ op : Operator, f (.operator op) = [op.symbol])
    (hg : ∀ g : Grouper, f (.grouper g) = [g.symbol]) {ts : List (Token Word)}
    (hknown : ∀ t ∈ ts, t.IsKnown) (hhead : ∀ w, ts.head? ≠ some (.operand w)) :
    AtSymbol (ts.flatMap f) := by
  cases ts with
  | nil => exact atSymbol_nil
  | cons t ts =>
    have ht := hknown t (by simp)
    intro c hc
    cases t with
    | operand w => exact absurd rfl (hhead w)
    | operator op =>
      rw [List.flatMap_cons, hop] at hc
      cases hc
      exact .inl ht
    | grouper g =>
      rw [List.flatMap_cons, hg] at hc
      cases hc
      exact .inr ht

/-- No two operands stand next to each other. -/
def Apart : List (Token Word) → Prop
  | [] => True
  | .operand _ :: ts => (∀ w, ts.head? ≠ some (.operand w)) ∧ Apart ts
  | .operator _ :: ts => Apart ts
  | .grouper _ :: ts => Apart ts

/-- A walk takes an operand only where one is due. -/
theorem apart_of_walk {text : Word → String} {p p' : Token.Place} {ts : List (Token Word)}
    (h : p.walk text ts = .ok p') :
    Apart ts ∧ (p.expecting = false → ∀ w, ts.head? ≠ some (.operand w)) := by
  induction ts generalizing p with
  | nil => exact ⟨trivial, fun _ w hw => by cases hw⟩
  | cons t ts ih =>
    rw [Token.Place.walk] at h
    cases hstep : p.step text t with
    | error fault => rw [hstep] at h; cases h
    | ok p₁ =>
      rw [hstep] at h
      obtain ⟨hapart, hhead⟩ := ih h
      cases t with
      | operator op => exact ⟨hapart, fun _ w hw => by cases hw⟩
      | grouper g => exact ⟨hapart, fun _ w hw => by cases hw⟩
      | operand a =>
        rw [Token.Place.step] at hstep
        split at hstep
        · next hexpecting =>
          cases hstep
          exact ⟨⟨hhead rfl, hapart⟩, fun hfalse => absurd hexpecting (by simp [hfalse])⟩
        · cases hstep

theorem apart_of_chain {ts : List (Token Word)} (h : Token.Chain .joined ts) : Apart ts := by
  have hwalk := h.walk_append (fun _ => "") 0 []
  rw [List.append_nil] at hwalk
  exact (apart_of_walk hwalk).1

/-- A symbol starts neither a name nor a numeral and is no placeholder. -/
theorem symbol_not_start {c : Char} (h : isOperator c = true ∨ isGrouper c = true) :
    Text.isNameStart c = false ∧ c.isDigit = false ∧ c ≠ placeholder := by
  rcases symbol_cases h with rfl | rfl | rfl | rfl | rfl | rfl | rfl | rfl <;> decide

section Words

variable {call : List Char → Prop} {ts : List (Token Word)}

theorem extract?_spell (hcall : ∀ cs, call cs → CallShaped cs) (hapart : Apart ts)
    (hin : WordsIn call ts) :
    extract? (spell ts) = some ⟨skeleton ts, ts.filterMap callOf?⟩ := by
  induction ts with
  | nil => rfl
  | cons t ts ih =>
    obtain ⟨⟨ht, hword⟩, hts⟩ := wordsIn_cons.1 hin
    rw [spell_cons]
    cases t with
    | operator op =>
      rw [tokenChars, List.singleton_append,
        extract?_of_not_isNameStart (symbol_not_start (.inl ht)).1, ih hapart hts]
      simp [Extracted.plain, skeleton_cons, fragmentOf, callOf?, List.filterMap_cons]
    | grouper g =>
      rw [tokenChars, List.singleton_append,
        extract?_of_not_isNameStart (symbol_not_start (.inr ht)).1, ih hapart hts]
      simp [Extracted.plain, skeleton_cons, fragmentOf, callOf?, List.filterMap_cons]
    | operand w =>
      obtain ⟨hhead, hapart⟩ := hapart
      have hsymbol : AtSymbol (spell ts) :=
        atSymbol_flatMap (fun _ => rfl) (fun _ => rfl) (fun t h => (hts t h).1) hhead
      have hw := hword w rfl
      cases w with
      | numeral cs =>
        have hbracket : '[' ∉ cs := fun hmem =>
          absurd (plain_of_isNumeral hw _ hmem).1 (by decide)
        rw [tokenChars, Word.chars, extract?_append_of_stop hbracket hsymbol, ih hapart hts]
        simp [Extracted.plain, skeleton_cons, fragmentOf, callOf?, List.filterMap_cons]
      | name cs =>
        have hbracket : '[' ∉ cs := fun hmem =>
          absurd (nameChar_of_isName hw _ hmem) (by decide)
        rw [tokenChars, Word.chars, extract?_append_of_stop hbracket hsymbol, ih hapart hts]
        simp [Extracted.plain, skeleton_cons, fragmentOf, callOf?, List.filterMap_cons]
      | call cs =>
        rw [tokenChars, Word.chars, extract?_append_of_callShaped (hcall cs hw), ih hapart hts]
        simp [Extracted.call, skeleton_cons, fragmentOf, callOf?]

theorem scan_append_of_isNumeral {cs rest : List Char} (h : Numeral.IsNumeral cs)
    (hrest : AtSymbol rest) :
    scan (cs ++ rest) = ⟨.numeral, String.ofList cs⟩ :: scan rest := by
  have hspan := h.span_append hrest
  have hnumeral := (Numeral.isNumeral_iff cs).2 h
  cases cs with
  | nil => cases hnumeral
  | cons c cs =>
    rw [Numeral.isNumeral, Bool.and_eq_true] at hnumeral
    have hplaceholder : (c == placeholder) = false := by
      rw [beq_eq_false_iff_ne]
      rintro rfl
      exact absurd hnumeral.1 (by decide)
    rw [List.cons_append] at hspan ⊢
    rw [scan_cons, first, hplaceholder, if_neg Bool.false_ne_true, if_pos hnumeral.1, hspan]

theorem not_isDigit_of_isNameStart {c : Char} (h : Text.isNameStart c = true) :
    c.isDigit = false := by
  rw [Bool.eq_false_iff]
  intro hdigit
  have hle : c.val.toNat ≤ 57 := (Char.isDigit_iff_toNat.1 hdigit).2
  have hcases : ((decide (c.val ≥ 'A'.val ∧ c.val ≤ 'Z'.val) ||
      decide (c.val ≥ 'a'.val) && decide (c.val ≤ 'z'.val)) || c == '_') = true := h
  simp only [Bool.or_eq_true, Bool.and_eq_true, decide_eq_true_eq, beq_iff_eq] at hcases
  rcases hcases with (⟨hupper, -⟩ | ⟨hlower, -⟩) | rfl
  · have hge : 65 ≤ c.val.toNat := hupper
    omega
  · have hge : 97 ≤ c.val.toNat := hlower
    omega
  · exact absurd hle (by decide)

theorem scan_append_of_isName {cs rest : List Char} (h : Text.isName cs = true)
    (hrest : AtSymbol rest) : scan (cs ++ rest) = ⟨.name, String.ofList cs⟩ :: scan rest := by
  cases cs with
  | nil => cases h
  | cons c cs =>
    rw [Text.isName, Bool.and_eq_true, List.all_eq_true] at h
    have hplaceholder : (c == placeholder) = false := by
      rw [beq_eq_false_iff_ne]
      rintro rfl
      exact absurd h.1 (by decide)
    obtain ⟨htake, hdrop⟩ :=
      takeWhile_append_of_stop cs fun d hd => (stop_of_atSymbol hrest d hd).1
    rw [List.takeWhile_eq_self_iff.2 h.2] at htake
    rw [List.dropWhile_eq_nil_iff.2 h.2, List.nil_append] at hdrop
    rw [List.cons_append, scan_cons, first, hplaceholder, if_neg Bool.false_ne_true,
      not_isDigit_of_isNameStart h.1, if_neg Bool.false_ne_true, if_pos h.1, htake, hdrop]

theorem scan_operator {c : Char} (h : isOperator c = true) (cs : List Char) :
    scan (c :: cs) = ⟨.operator, String.ofList [c]⟩ :: scan cs := by
  obtain ⟨hname, hdigit, hplaceholder⟩ := symbol_not_start (.inl h)
  rw [scan_cons, first]
  simp only [beq_iff_eq, hplaceholder, hdigit, hname, h, if_true, if_false, Bool.false_eq_true]

theorem scan_grouper {c : Char} (h : isGrouper c = true) (cs : List Char) :
    scan (c :: cs) = ⟨.grouper, String.ofList [c]⟩ :: scan cs := by
  obtain ⟨hname, hdigit, hplaceholder⟩ := symbol_not_start (.inr h)
  have hoperator : isOperator c = false := by
    simp only [isGrouper, Bool.or_eq_true, beq_iff_eq] at h
    rcases h with rfl | rfl <;> rfl
  rw [scan_cons, first]
  simp only [beq_iff_eq, hplaceholder, hdigit, hname, hoperator, h, if_true, if_false,
    Bool.false_eq_true]

/-- The text of tokens with placeholders is scanned into their fragments. -/
theorem scan_skeleton (hapart : Apart ts) (hin : WordsIn call ts) :
    scan (skeleton ts) = ts.map fragmentOf := by
  induction ts with
  | nil => rfl
  | cons t ts ih =>
    obtain ⟨⟨ht, hword⟩, hts⟩ := wordsIn_cons.1 hin
    rw [skeleton_cons, List.map_cons]
    cases t with
    | operator op =>
      rw [fragmentOf, String.toList_ofList, List.singleton_append, scan_operator ht, ih hapart hts]
    | grouper g =>
      rw [fragmentOf, String.toList_ofList, List.singleton_append, scan_grouper ht, ih hapart hts]
    | operand w =>
      obtain ⟨hhead, hapart⟩ := hapart
      have hsymbol : AtSymbol (skeleton ts) :=
        atSymbol_flatMap (fun _ => String.toList_ofList) (fun _ => String.toList_ofList)
          (fun t h => (hts t h).1) hhead
      have hw := hword w rfl
      cases w with
      | numeral cs =>
        rw [fragmentOf, String.toList_ofList, scan_append_of_isNumeral hw hsymbol, ih hapart hts]
      | name cs =>
        rw [fragmentOf, String.toList_ofList, scan_append_of_isName hw hsymbol, ih hapart hts]
      | call cs =>
        rw [fragmentOf, String.toList_ofList, List.singleton_append, scan_cons, ← ih hapart hts]
        rfl

end Words

end Reckoner.Grammar
