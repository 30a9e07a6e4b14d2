import Reckoner.Fragment.Basic
import Reckoner.Numeral

/-!
# Scanning a text without calls

`scan` cuts a text into fragments from the left.  Numerals and names are as long as they can be, and
characters at which nothing starts are collected into one invalid fragment.
-/

namespace Reckoner.Fragment

/-- The fragment at the start of a text, and the rest of the text. -/
def first (c : Char) (cs : List Char) : Fragment × List Char :=
  if c == placeholder then (⟨.call, String.ofList [c]⟩, cs)
  else if c.isDigit then
    (⟨.numeral, String.ofList (Numeral.span (c :: cs)).1⟩, (Numeral.span (c :: cs)).2)
  else if Text.isNameStart c then
    (⟨.name, String.ofList (c :: cs.takeWhile Text.isNameChar)⟩, cs.dropWhile Text.isNameChar)
  else if isOperator c then (⟨.operator, String.ofList [c]⟩, cs)
  else if isGrouper c then (⟨.grouper, String.ofList [c]⟩, cs)
  else
    (⟨.invalid, String.ofList (c :: cs.takeWhile (fun d => !isStart d))⟩,
      cs.dropWhile (fun d => !isStart d))

/-- The fragments of a text, given at least as much fuel as the text has characters. -/
def scanWith : Nat → List Char → List Fragment
  | 0, _ => []
  | _ + 1, [] => []
  | fuel + 1, c :: cs => (first c cs).1 :: scanWith fuel (first c cs).2

def scan (cs : List Char) : List Fragment := scanWith cs.length cs

/-! ## Nothing is lost -/

theorem first_append (c : Char) (cs : List Char) :
    (first c cs).1.text.toList ++ (first c cs).2 = c :: cs := by
  unfold first
  split
  · simp
  split
  · simpa using Numeral.span_append (c :: cs)
  split
  · simp [List.takeWhile_append_dropWhile]
  split
  · simp
  split
  · simp
  · simp [List.takeWhile_append_dropWhile]

theorem first_text_ne_nil (c : Char) (cs : List Char) : (first c cs).1.text.toList ≠ [] := by
  unfold first
  split
  · simp
  split
  case isTrue hc =>
    intro h
    have hlt := @Numeral.length_span_snd_lt c cs hc
    have happ := Numeral.span_append (c :: cs)
    simp only [String.toList_ofList] at h
    rw [h, List.nil_append] at happ
    rw [happ] at hlt
    exact Nat.lt_irrefl _ hlt
  split
  · simp
  split
  · simp
  split
  · simp
  · simp

theorem length_first_snd_lt (c : Char) (cs : List Char) :
    (first c cs).2.length < (c :: cs).length := by
  have h := congrArg List.length (first_append c cs)
  have hpos := List.length_pos_iff.2 (first_text_ne_nil c cs)
  rw [List.length_append] at h
  omega

theorem flatMap_scanWith {fuel : Nat} {cs : List Char} (h : cs.length ≤ fuel) :
    (scanWith fuel cs).flatMap (fun f => f.text.toList) = cs := by
  induction fuel generalizing cs with
  | zero => rw [List.length_eq_zero_iff.1 (Nat.le_zero.1 h)]; rfl
  | succ fuel ih =>
    cases cs with
    | nil => rfl
    | cons c cs =>
      have hlt := length_first_snd_lt c cs
      rw [scanWith, List.flatMap_cons, ih (by omega), first_append]

theorem flatMap_scan (cs : List Char) : (scan cs).flatMap (fun f => f.text.toList) = cs :=
  flatMap_scanWith (Nat.le_refl _)

end Reckoner.Fragment
