import Mathlib.Data.List.Infix
import Reckoner.Operand.Compile
import Reckoner.Proofs.Grammar.Arguments
import Reckoner.Proofs.Grammar.Expression

/-!
# Cutting texts at brackets and commas

Calls are cut out of a text at their brackets, and their arguments are separated at commas.

1. What is cut can be put together again (`append_of_spanClosing?`, `eq_of_splitCall?`,
   `restores_of_extract?`).
2. A balanced text is cut as it was put together (`splitArguments_intercalate`,
   `spanClosing?_of_balanced`, `splitCall?_of_isName`, `extract?_append_of_stop`,
   `extract?_append_of_callShaped`).
-/

namespace Reckoner.Grammar

open Fragment

/-! ## Arguments -/

theorem depthAfter_of_plain {c : Char} (h : isPlain c = true) (depth : Int) :
    depthAfter depth c = depth := by
  simp only [isPlain, Bool.and_eq_true, bne_iff_ne] at h
  simp [depthAfter, h.1.1, h.1.2]

theorem Balanced.surplus_eq_zero {commas : Bool} {cs : List Char} (h : Balanced commas cs) :
    surplus cs = 0 := by
  induction h with
  | nil _ => rfl
  | @char commas c cs plain _ _ ih =>
    have hc := depthAfter_add_surplus 0 c cs
    rw [depthAfter_of_plain plain, ih] at hc
    omega
  | @bracket commas inner cs _ _ ihinside ihrest =>
    have happ : '[' :: (inner ++ ']' :: cs) = ['['] ++ (inner ++ ([']'] ++ cs)) := rfl
    rw [happ, surplus_append, surplus_append, surplus_append, ihinside, ihrest]
    rfl

theorem Balanced.enclosed {commas : Bool} {cs : List Char} (h : Balanced commas cs) {depth : Int}
    (hdepth : 0 ≤ depth) (hcommas : commas = true → 0 < depth) : Enclosed depth cs := by
  induction h generalizing depth with
  | nil _ => exact enclosed_nil depth
  | @char commas c cs plain comma _ ih =>
    rw [enclosed_cons_iff, depthAfter_of_plain plain]
    refine ⟨?_, ih hdepth hcommas⟩
    rintro ⟨hc, rfl⟩
    exact absurd (hcommas (comma hc)) (Int.lt_irrefl 0)
  | @bracket commas inner cs inside _ ihinside ihrest =>
    have hopen : depthAfter depth '[' = depth + 1 := rfl
    have hclose : depthAfter (depth + 1 + surplus inner) ']' = depth := by
      rw [inside.surplus_eq_zero, Int.add_zero]
      exact Int.add_sub_cancel depth 1
    rw [enclosed_cons_iff, hopen, enclosed_append_iff, enclosed_cons_iff, hclose]
    exact ⟨by simp, ihinside (by omega) (fun _ => by omega), by simp, ihrest hdepth hcommas⟩

/-- Arguments that are balanced and not empty come apart at the commas between them. -/
theorem splitArguments_intercalate {args : List (List Char)}
    (h : ∀ arg ∈ args, Balanced false arg ∧ arg ≠ []) :
    splitArguments ([','].intercalate args) = args := by
  have hsplit : IsOutermostSplit ([','].intercalate args) args := by
    refine ⟨rfl, fun arg harg => ?_, fun arg harg => ?_⟩
    · exact surplus_eq_zero_iff.1 (h arg (List.mem_of_mem_dropLast harg)).1.surplus_eq_zero
    · exact enclosed_zero_iff.1 ((h arg harg).1.enclosed (Int.le_refl 0) nofun)
  cases args with
  | nil => rfl
  | cons arg rest =>
    refine hsplit.splitArguments_eq ?_
    have harg := (h arg (by simp)).2
    cases rest with
    | nil => rwa [List.intercalate_singleton]
    | cons next rest =>
      rw [List.intercalate_cons_cons]
      simp

/-! ## Brackets -/

/-- What stands before and after the closing bracket is the text. -/
theorem append_of_spanClosing? {depth : Nat} {cs inner rest : List Char}
    (h : spanClosing? depth cs = some (inner, rest)) : inner ++ rest = cs ∧ inner ≠ [] := by
  induction cs generalizing depth inner with
  | nil => cases h
  | cons c cs ih =>
    rw [spanClosing?] at h
    by_cases hzero : (if c == '[' then depth + 1 else if c == ']' then depth - 1 else depth) = 0
    · rw [if_pos hzero] at h
      cases h
      exact ⟨rfl, List.cons_ne_nil _ _⟩
    · rw [if_neg hzero] at h
      obtain ⟨⟨inner', rest'⟩, hspan, heq⟩ := Option.map_eq_some_iff.1 h
      cases heq
      rw [List.cons_append, (ih hspan).1]
      exact ⟨rfl, List.cons_ne_nil _ _⟩

/-- A balanced text does not close a bracket that is open before it. -/
theorem Balanced.spanClosing?_append {commas : Bool} {cs : List Char} (h : Balanced commas cs)
    (depth : Nat) (rest : List Char) :
    spanClosing? (depth + 1) (cs ++ rest) =
      (spanClosing? (depth + 1) rest).map (fun p => (cs ++ p.1, p.2)) := by
  induction h generalizing depth rest with
  | nil _ => exact Option.map_id'.symm
  | @char commas c cs plain _ _ ih =>
    simp only [isPlain, Bool.and_eq_true, bne_iff_ne] at plain
    rw [List.cons_append, spanClosing?]
    simp only [beq_iff_eq, plain.1.1, plain.1.2, if_false, Nat.add_one_ne_zero, ih, Option.map_map]
    rfl
  | @bracket commas inner cs _ _ ihinside ihrest =>
    have hopen : ∀ ds, spanClosing? (depth + 1) ('[' :: ds) =
        (spanClosing? (depth + 2) ds).map (fun p => ('[' :: p.1, p.2)) := fun ds => rfl
    have hclose : ∀ ds, spanClosing? (depth + 2) (']' :: ds) =
        (spanClosing? (depth + 1) ds).map (fun p => (']' :: p.1, p.2)) := fun ds => rfl
    rw [List.cons_append, List.append_assoc, List.cons_append, hopen, ihinside, hclose, ihrest]
    simp only [Option.map_map]
    refine congrArg (fun f => Option.map f _) (funext fun p => ?_)
    simp

/-- A call ends at the bracket after its balanced arguments. -/
theorem spanClosing?_of_balanced {inner : List Char} (h : Balanced true inner) (rest : List Char) :
    spanClosing? 1 (inner ++ ']' :: rest) = some (inner ++ [']'], rest) := by
  have hclose : spanClosing? 1 (']' :: rest) = some ([']'], rest) := rfl
  rw [h.spanClosing?_append 0 (']' :: rest), hclose]
  rfl

theorem isNameChar_bracket : Text.isNameChar '[' = false := by decide

theorem eq_of_splitCall? {cs name inner : List Char}
    (h : Operand.splitCall? cs = some (name, inner)) :
    Text.isName name = true ∧ cs = name ++ '[' :: (inner ++ [']']) := by
  unfold Operand.splitCall? at h
  split at h
  · next c tail hdrop =>
    dsimp only at h
    split at h
    · next hcond =>
      cases h
      rw [Bool.and_eq_true, decide_eq_true_eq] at hcond
      have hc : c = '[' := by
        have hhead := List.head?_dropWhile_not (fun c => c != '[') cs
        rw [hdrop] at hhead
        simpa using hhead
      have htail : tail.dropLast ++ [']'] = tail := by
        obtain ⟨front, rfl⟩ := List.getLast?_eq_some_iff.1 hcond.1
        rw [List.dropLast_concat]
      refine ⟨hcond.2, ?_⟩
      subst hc
      rw [htail, ← hdrop, List.takeWhile_append_dropWhile]
    · cases h
  · cases h

theorem splitCall?_of_isName {name inner : List Char} (h : Text.isName name = true) :
    Operand.splitCall? (name ++ '[' :: (inner ++ [']'])) = some (name, inner) := by
  have hname : ∀ c ∈ name, (c != '[') = true := by
    intro c hc
    have hplain := (plain_of_isNameChar (nameChar_of_isName h c hc)).1
    simp only [isPlain, Bool.and_eq_true] at hplain
    exact hplain.1.1
  have hstop : ∀ c ∈ ('[' :: (inner ++ [']'])).head?, (c != '[') = false := by
    intro c hc
    cases hc
    rfl
  obtain ⟨htake, hdrop⟩ := takeWhile_append_of_stop name hstop
  rw [List.takeWhile_eq_self_iff.2 hname] at htake
  rw [List.dropWhile_eq_nil_iff.2 hname, List.nil_append] at hdrop
  unfold Operand.splitCall?
  rw [htake, hdrop]
  simp [h]

/-! ## Calls in a text -/

/-- One step of cutting, given how to cut what is left. -/
def cutStep (cut : List Char → Option Extracted) (c : Char) (cs : List Char) : Option Extracted :=
  if Text.isNameStart c then
    match cs.dropWhile Text.isNameChar with
    | '[' :: tail =>
      match spanClosing? 1 tail with
      | none => none
      | some (inner, rest) =>
        (cut rest).map (.call (c :: cs.takeWhile Text.isNameChar ++ '[' :: inner))
    | rest => (cut rest).map (.plain (c :: cs.takeWhile Text.isNameChar))
  else (cut cs).map (.plain [c])

/-- A step only cuts shorter texts. -/
theorem cutStep_congr {cut cut' : List Char → Option Extracted} (c : Char) {cs : List Char}
    (h : ∀ ds : List Char, ds.length ≤ cs.length → cut ds = cut' ds) :
    cutStep cut c cs = cutStep cut' c cs := by
  have hdrop := (List.dropWhile_sublist Text.isNameChar (l := cs)).length_le
  unfold cutStep
  rw [h cs (Nat.le_refl _)]
  split
  · generalize cs.dropWhile Text.isNameChar = ds at hdrop
    split
    · next tail =>
      rw [List.length_cons] at hdrop
      cases hspan : spanClosing? 1 tail with
      | none => rfl
      | some p =>
        have hlen := congrArg List.length (append_of_spanClosing? hspan).1
        rw [List.length_append] at hlen
        simp only [h p.2 (by omega)]
    · rw [h ds hdrop]
  · rfl

theorem extractWith?_congr {n m : Nat} {cs : List Char} (hn : cs.length ≤ n)
    (hm : cs.length ≤ m) : extractWith? n cs = extractWith? m cs := by
  induction n generalizing m cs with
  | zero =>
    rw [List.length_eq_zero_iff.1 (Nat.le_zero.1 hn)]
    cases m <;> rfl
  | succ n ih =>
    cases cs with
    | nil => cases m <;> rfl
    | cons c cs =>
      rw [List.length_cons] at hn hm
      obtain ⟨m, rfl⟩ : ∃ k, m = k + 1 := ⟨m - 1, by omega⟩
      exact cutStep_congr c fun ds hds => ih (by omega) (by omega)

theorem extract?_cons (c : Char) (cs : List Char) :
    extract? (c :: cs) = cutStep extract? c cs :=
  cutStep_congr c fun _ hds => extractWith?_congr hds (Nat.le_refl _)

theorem extract?_of_not_isNameStart {c : Char} (hc : Text.isNameStart c = false) (cs : List Char) :
    extract? (c :: cs) = (extract? cs).map (.plain [c]) := by
  rw [extract?_cons, cutStep, if_neg (by simp [hc])]

theorem map_plain_nil (e : Option Extracted) : e.map (.plain []) = e := by
  cases e <;> rfl

theorem map_plain_append (cs ds : List Char) (e : Option Extracted) :
    (e.map (Extracted.plain ds)).map (Extracted.plain cs) = e.map (Extracted.plain (cs ++ ds)) := by
  cases e with
  | none => rfl
  | some e => simp [Extracted.plain]

theorem stop_of_atSymbol {rest : List Char} (h : AtSymbol rest) :
    ∀ c ∈ rest.head?, Text.isNameChar c = false ∧ c ≠ '[' := by
  intro c hc
  rcases symbol_cases (h c hc) with rfl | rfl | rfl | rfl | rfl | rfl | rfl | rfl <;> decide

/-- No call is cut out of a text without brackets before a symbol. -/
theorem extract?_append_of_stop {cs rest : List Char} (hcs : '[' ∉ cs) (hrest : AtSymbol rest) :
    extract? (cs ++ rest) = (extract? rest).map (.plain cs) := by
  have hstop := stop_of_atSymbol hrest
  -- a name can take many characters at a time, so the induction is on the length
  induction hn : cs.length using Nat.strongRecOn generalizing cs with
  | ind n ih =>
    cases cs with
    | nil => rw [List.nil_append, map_plain_nil]
    | cons c cs =>
      rw [List.mem_cons, not_or] at hcs
      rw [List.length_cons] at hn
      by_cases hc : Text.isNameStart c = true
      · obtain ⟨htake, hdrop⟩ := takeWhile_append_of_stop cs fun d hd => (hstop d hd).1
        have hlen := (List.dropWhile_sublist Text.isNameChar (l := cs)).length_le
        have hmem : '[' ∉ cs.dropWhile Text.isNameChar := fun h =>
          hcs.2 ((List.dropWhile_sublist _).subset h)
        have hne : ∀ tail, cs.dropWhile Text.isNameChar ++ rest ≠ '[' :: tail := by
          intro tail htail
          cases hd : cs.dropWhile Text.isNameChar with
          | nil =>
            rw [hd, List.nil_append] at htail
            exact (hstop '[' (by rw [htail]; rfl)).2 rfl
          | cons d ds =>
            rw [hd, List.cons_append, List.cons.injEq] at htail
            rw [hd, htail.1] at hmem
            exact hmem List.mem_cons_self
        rw [List.cons_append, extract?_cons, cutStep, if_pos hc, hdrop, htake]
        split
        · next tail htail => exact absurd htail (hne tail)
        · rw [ih _ (by omega) hmem rfl, map_plain_append, List.cons_append,
            List.takeWhile_append_dropWhile]
      · rw [List.cons_append, extract?_of_not_isNameStart (by simpa using hc),
          ih cs.length (by omega) hcs.2 rfl, map_plain_append]
        rfl

theorem extract?_append_of_callShaped {cs : List Char} (h : CallShaped cs) (rest : List Char) :
    extract? (cs ++ rest) = (extract? rest).map (.call cs) := by
  obtain ⟨name, inner, hname, hinner, rfl⟩ := h
  cases name with
  | nil => cases hname
  | cons c name =>
    rw [Text.isName, Bool.and_eq_true, List.all_eq_true] at hname
    have hstop : ∀ d ∈ ('[' :: (inner ++ ']' :: rest)).head?, Text.isNameChar d = false := by
      intro d hd
      cases hd
      exact isNameChar_bracket
    obtain ⟨htake, hdrop⟩ := takeWhile_append_of_stop name hstop
    rw [List.takeWhile_eq_self_iff.2 hname.2] at htake
    rw [List.dropWhile_eq_nil_iff.2 hname.2, List.nil_append] at hdrop
    have happ : c :: name ++ '[' :: (inner ++ [']']) ++ rest =
        c :: (name ++ '[' :: (inner ++ ']' :: rest)) := by
      simp
    rw [happ, extract?_cons, cutStep, if_pos hname.1, hdrop, htake]
    simp only [spanClosing?_of_balanced hinner rest]

/-! ## Putting calls back -/

/-- A text with its placeholders replaced by calls, one after the other. -/
def fill : List Char → List String → List Char
  | [], _ => []
  | c :: cs, [] => c :: fill cs []
  | c :: cs, call :: calls =>
    if c = placeholder then call.toList ++ fill cs calls else c :: fill cs (call :: calls)

theorem fill_append {cs : List Char} (h : placeholder ∉ cs) (ds : List Char)
    (calls : List String) : fill (cs ++ ds) calls = cs ++ fill ds calls := by
  induction cs with
  | nil => rfl
  | cons c cs ih =>
    rw [List.mem_cons, not_or] at h
    cases calls with
    | nil => rw [List.cons_append, fill, ih h.2, List.cons_append]
    | cons call calls =>
      rw [List.cons_append, fill, if_neg (Ne.symm h.1), ih h.2, List.cons_append]

theorem fill_placeholder (cs : List Char) (call : String) (calls : List String) :
    fill (placeholder :: cs) (call :: calls) = call.toList ++ fill cs calls := by
  rw [fill, if_pos rfl]

/-- The calls of an extracted text, put back, give the text, and there is a placeholder for each. -/
def Restores (e : Extracted) (cs : List Char) : Prop :=
  fill e.text e.calls = cs ∧ e.text.count placeholder = e.calls.length

theorem Restores.plain {e : Extracted} {cs ds : List Char} (h : Restores e ds)
    (hcs : placeholder ∉ cs) : Restores (e.plain cs) (cs ++ ds) := by
  refine ⟨?_, ?_⟩
  · rw [Extracted.plain, fill_append hcs, h.1]
  · rw [Extracted.plain, List.count_append, List.count_eq_zero_of_not_mem hcs, Nat.zero_add, h.2]

theorem Restores.call {e : Extracted} {ds : List Char} (h : Restores e ds) (cs : List Char) :
    Restores (e.call cs) (cs ++ ds) := by
  refine ⟨?_, ?_⟩
  · rw [Extracted.call, fill_placeholder, h.1, String.toList_ofList]
  · rw [Extracted.call, List.count_cons_self, List.length_cons, h.2]

/-- Cutting calls out of a text loses nothing. -/
theorem restores_of_extract? {cs : List Char} {e : Extracted} (hcs : placeholder ∉ cs)
    (h : extract? cs = some e) : Restores e cs := by
  induction hn : cs.length using Nat.strongRecOn generalizing cs e with
  | ind n ih =>
    cases cs with
    | nil =>
      cases h
      exact ⟨rfl, rfl⟩
    | cons c cs =>
      rw [List.mem_cons, not_or] at hcs
      rw [List.length_cons] at hn
      have hsplit := List.takeWhile_append_dropWhile (p := Text.isNameChar) (l := cs)
      have hmem : placeholder ∉ cs.takeWhile Text.isNameChar ∧
          placeholder ∉ cs.dropWhile Text.isNameChar := by
        rw [← not_or, ← List.mem_append, hsplit]
        exact hcs.2
      have hname : placeholder ∉ c :: cs.takeWhile Text.isNameChar := by
        rw [List.mem_cons, not_or]
        exact ⟨hcs.1, hmem.1⟩
      have hlen := congrArg List.length hsplit
      rw [List.length_append] at hlen
      rw [extract?_cons, cutStep] at h
      split at h
      · split at h
        · next tail htail =>
          rw [htail, List.length_cons] at hlen
          rw [htail, List.mem_cons, not_or] at hmem
          cases hspan : spanClosing? 1 tail with
          | none => rw [hspan] at h; cases h
          | some p =>
            obtain ⟨inner, rest⟩ := p
            rw [hspan] at h
            obtain ⟨e', he', rfl⟩ := Option.map_eq_some_iff.1 h
            have happ := (append_of_spanClosing? hspan).1
            have hlen' := congrArg List.length happ
            rw [List.length_append] at hlen'
            have hrest : placeholder ∉ rest := fun hmem' =>
              hmem.2.2 (happ ▸ List.mem_append_right inner hmem')
            have heq : c :: cs.takeWhile Text.isNameChar ++ '[' :: inner ++ rest = c :: cs := by
              rw [List.append_assoc, List.cons_append, List.cons_append, happ, ← htail, hsplit]
            rw [← heq]
            exact (ih rest.length (by omega) hrest he' rfl).call _
        · obtain ⟨e', he', rfl⟩ := Option.map_eq_some_iff.1 h
          have hrestores := (ih _ (by omega) hmem.2 he' rfl).plain hname
          rwa [List.cons_append, hsplit] at hrestores
      · obtain ⟨e', he', rfl⟩ := Option.map_eq_some_iff.1 h
        refine (ih cs.length (by omega) hcs.2 he' rfl).plain ?_
        rw [List.mem_singleton]
        exact hcs.1

end Reckoner.Grammar
