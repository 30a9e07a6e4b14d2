import Reckoner.Proofs.Grammar.Cutting

/-!
# Where calls open and close

A bracket right after a name opens a call.  `Unclosed` says, without following the cutting, that a
text opens a call which is never closed, outside all other calls.

1. The text up to the closing bracket of a call is balanced (`closes_of_spanClosing?`).
2. `Cuts` describes how a text is cut, one rule for each kind of piece, and cutting follows it
   (`cuts_extract?`).
3. Cutting fails exactly on the texts with an unclosed call (`extract?_eq_none_iff`), and what is
   cut out are calls (`callShaped_of_mem_calls`).
-/

namespace Reckoner.Grammar

open Fragment

/-- A character of a text that is put together stands in the first or in the second part. -/
theorem split_append {xs ys front back : List Char} {c : Char}
    (h : xs ++ ys = front ++ c :: back) :
    (∃ back', xs = front ++ c :: back' ∧ back = back' ++ ys) ∨
      ∃ front', front = xs ++ front' ∧ ys = front' ++ c :: back := by
  rcases List.append_eq_append_iff.1 h with ⟨front', hfront, hys⟩ | ⟨tail, hxs, hback⟩
  · exact .inr ⟨front', hfront, hys⟩
  · cases tail with
    | nil => exact .inr ⟨[], by simpa using hxs.symm, hback.symm⟩
    | cons d tail =>
      rw [List.cons_append, List.cons.injEq] at hback
      exact .inl ⟨tail, by rw [hxs, hback.1], hback.2⟩

/-! ## Closing brackets -/

/-- Texts that end where the last of `depth + 1` open brackets is closed. -/
inductive Closing : Nat → List Char → Prop where
  | last {inner : List Char} (inside : Balanced true inner) : Closing 0 (inner ++ [']'])
  | next {depth : Nat} {inner rest : List Char} (inside : Balanced true inner)
      (outer : Closing depth rest) : Closing (depth + 1) (inner ++ ']' :: rest)

theorem Closing.cons {depth : Nat} {cs : List Char} (h : Closing depth cs) {c : Char}
    (hc : isPlain c = true) : Closing depth (c :: cs) := by
  cases h with
  | last inside => exact .last (.char hc (fun _ => rfl) inside)
  | next inside outer => exact .next (.char hc (fun _ => rfl) inside) outer

theorem Closing.bracket {depth : Nat} {cs : List Char} (h : Closing (depth + 1) cs) :
    Closing depth ('[' :: cs) := by
  cases h with
  | @next _ inner _ inside outer =>
    cases outer with
    | @last inner' inside' =>
      have happ : '[' :: (inner ++ ']' :: (inner' ++ [']'])) =
          ('[' :: (inner ++ ']' :: inner')) ++ [']'] := by simp
      rw [happ]
      exact .last (.bracket inside inside')
    | @next _ inner' rest inside' outer =>
      have happ : '[' :: (inner ++ ']' :: (inner' ++ ']' :: rest)) =
          ('[' :: (inner ++ ']' :: inner')) ++ ']' :: rest := by simp
      rw [happ]
      exact .next (.bracket inside inside') outer

theorem isPlain_of_ne {c : Char} (hopen : c ≠ '[') (hclose : c ≠ ']') (hc : c ≠ placeholder) :
    isPlain c = true := by
  simp [isPlain, hopen, hclose, hc]

/-- What is taken up to a closing bracket closes all open brackets. -/
theorem closing_of_spanClosing? {depth : Nat} {cs inner rest : List Char}
    (hcs : placeholder ∉ cs) (h : spanClosing? (depth + 1) cs = some (inner, rest)) :
    Closing depth inner := by
  induction cs generalizing depth inner with
  | nil => cases h
  | cons c cs ih =>
    rw [List.mem_cons, not_or] at hcs
    rw [spanClosing?] at h
    dsimp only at h
    by_cases hopen : c = '['
    · subst hopen
      simp only [beq_self_eq_true, if_true, Nat.add_one_ne_zero, if_false] at h
      obtain ⟨⟨inner', rest'⟩, hspan, heq⟩ := Option.map_eq_some_iff.1 h
      cases heq
      exact (ih hcs.2 hspan).bracket
    · by_cases hclose : c = ']'
      · subst hclose
        cases depth with
        | zero =>
          cases h
          exact .last (.nil true)
        | succ depth =>
          simp only [beq_iff_eq, hopen, if_false, if_true, Nat.add_sub_cancel,
            Nat.add_one_ne_zero] at h
          obtain ⟨⟨inner', rest'⟩, hspan, heq⟩ := Option.map_eq_some_iff.1 h
          cases heq
          exact .next (.nil true) (ih hcs.2 hspan)
      · simp only [beq_iff_eq, hopen, hclose, if_false, Nat.add_one_ne_zero] at h
        obtain ⟨⟨inner', rest'⟩, hspan, heq⟩ := Option.map_eq_some_iff.1 h
        cases heq
        exact (ih hcs.2 hspan).cons (isPlain_of_ne hopen hclose (Ne.symm hcs.1))

/-- Whether a bracket that is open before a text is closed in it. -/
def Closes (cs : List Char) : Prop :=
  ∃ inner rest, Balanced true inner ∧ cs = inner ++ ']' :: rest

theorem Closes.append {cs : List Char} (h : Closes cs) (ds : List Char) : Closes (cs ++ ds) := by
  obtain ⟨inner, rest, hinner, rfl⟩ := h
  exact ⟨inner, rest ++ ds, hinner, by simp⟩

theorem closes_of_spanClosing? {cs inner rest : List Char} (hcs : placeholder ∉ cs)
    (h : spanClosing? 1 cs = some (inner, rest)) :
    ∃ inner', Balanced true inner' ∧ inner = inner' ++ [']'] ∧ cs = inner' ++ ']' :: rest := by
  cases closing_of_spanClosing? hcs h with
  | @last inner' inside =>
    refine ⟨inner', inside, rfl, ?_⟩
    rw [← (append_of_spanClosing? h).1, List.append_assoc, List.singleton_append]

theorem not_closes_of_spanClosing? {cs : List Char} (h : spanClosing? 1 cs = none) :
    ¬ Closes cs := by
  rintro ⟨inner, rest, hinner, rfl⟩
  rw [spanClosing?_of_balanced hinner rest] at h
  cases h

theorem Balanced.closes {commas : Bool} {cs front inside : List Char} (h : Balanced commas cs)
    (hcs : cs = front ++ '[' :: inside) : Closes inside := by
  induction h generalizing front inside with
  | nil _ => simp at hcs
  | char plain _ _ ih =>
    cases front with
    | nil =>
      rw [List.nil_append, List.cons.injEq] at hcs
      rw [hcs.1] at plain
      exact absurd plain (by decide)
    | cons d front =>
      rw [List.cons_append, List.cons.injEq] at hcs
      exact ih hcs.2
  | @bracket commas inner cs hinner _ ihinside ihrest =>
    cases front with
    | nil =>
      rw [List.nil_append, List.cons.injEq] at hcs
      exact ⟨inner, cs, hinner, hcs.2.symm⟩
    | cons d front =>
      rw [List.cons_append, List.cons.injEq] at hcs
      rcases split_append hcs.2 with ⟨inside', hinner', rfl⟩ | ⟨front', -, htail⟩
      · exact (ihinside hinner').append _
      · cases front' with
        | nil =>
          rw [List.nil_append, List.cons.injEq] at htail
          exact absurd htail.1 (by decide)
        | cons e front' =>
          rw [List.cons_append, List.cons.injEq] at htail
          exact ihrest htail.2

/-! ## Pieces -/

/-- How a text is cut: characters that start no name, names that open no call, calls, and a call
that is not closed, where the cutting fails. -/
inductive Cuts : List Char → Option Extracted → Prop where
  | nil : Cuts [] (some ⟨[], []⟩)
  | char {c : Char} {cs : List Char} {e : Option Extracted} (starts : Text.isNameStart c = false)
      (rest : Cuts cs e) : Cuts (c :: cs) (e.map (.plain [c]))
  | name {name cs : List Char} {e : Option Extracted} (isName : Text.isName name = true)
      (stops : ∀ d ∈ cs.head?, Text.isNameChar d = false ∧ d ≠ '[') (rest : Cuts cs e) :
      Cuts (name ++ cs) (e.map (.plain name))
  | call {name inner cs : List Char} {e : Option Extracted} (isName : Text.isName name = true)
      (inside : Balanced true inner) (rest : Cuts cs e) :
      Cuts (name ++ '[' :: (inner ++ ']' :: cs)) (e.map (.call (name ++ '[' :: (inner ++ [']']))))
  | unclosed {name cs : List Char} (isName : Text.isName name = true) (notClosed : ¬ Closes cs) :
      Cuts (name ++ '[' :: cs) none

theorem isName_takeWhile {c : Char} (hc : Text.isNameStart c = true) (cs : List Char) :
    Text.isName (c :: cs.takeWhile Text.isNameChar) = true := by
  rw [Text.isName, hc, Bool.true_and, List.all_eq_true]
  exact fun d hd => List.mem_takeWhile_imp hd

section Step

variable {cut : List Char → Option Extracted} {cs : List Char}

/-- A name and a bracket: the call is cut out if it is closed. -/
theorem cuts_bracket (hcs : placeholder ∉ cs)
    (hcut : ∀ ds : List Char, ds.length ≤ cs.length → placeholder ∉ ds → Cuts ds (cut ds))
    {name : List Char} (hname : Text.isName name = true) :
    Cuts (name ++ '[' :: cs)
      (match spanClosing? 1 cs with
      | none => none
      | some (inner, rest) => (cut rest).map (.call (name ++ '[' :: inner))) := by
  cases hspan : spanClosing? 1 cs with
  | none => exact .unclosed hname (not_closes_of_spanClosing? hspan)
  | some p =>
    obtain ⟨inner, rest⟩ := p
    obtain ⟨inner', hinner, rfl, rfl⟩ := closes_of_spanClosing? hcs hspan
    have hlen : rest.length ≤ (inner' ++ ']' :: rest).length := by
      rw [List.length_append, List.length_cons]
      omega
    have hrest : placeholder ∉ rest := fun h => hcs (by simp [h])
    exact .call hname hinner (hcut rest hlen hrest)

/-- One step of cutting follows the rules if cutting what is left does. -/
theorem cuts_cutStep (c : Char) (hcs : placeholder ∉ cs)
    (hcut : ∀ ds : List Char, ds.length ≤ cs.length → placeholder ∉ ds → Cuts ds (cut ds)) :
    Cuts (c :: cs) (cutStep cut c cs) := by
  unfold cutStep
  by_cases hc : Text.isNameStart c = true
  · have hname := isName_takeWhile hc cs
    have hrest := List.dropWhile_sublist Text.isNameChar (l := cs)
    have hmem : placeholder ∉ cs.dropWhile Text.isNameChar := fun h => hcs (hrest.subset h)
    have hhead := List.head?_dropWhile_not Text.isNameChar cs
    have htext : c :: cs = (c :: cs.takeWhile Text.isNameChar) ++ cs.dropWhile Text.isNameChar := by
      rw [List.cons_append, List.takeWhile_append_dropWhile]
    have hlen := hrest.length_le
    rw [if_pos hc, htext]
    generalize cs.dropWhile Text.isNameChar = rest at hmem hhead hlen
    split
    · next tail =>
      rw [List.mem_cons, not_or] at hmem
      rw [List.length_cons] at hlen
      exact cuts_bracket hmem.2 (fun ds hds => hcut ds (by omega)) hname
    · next hne =>
      refine .name hname (fun d hd => ?_) (hcut rest hlen hmem)
      obtain ⟨tail, rfl⟩ := List.head?_eq_some_iff.1 hd
      refine ⟨by simpa using hhead, ?_⟩
      rintro rfl
      exact hne tail rfl
  · rw [if_neg hc]
    exact .char (by simpa using hc) (hcut cs (Nat.le_refl _) hcs)

end Step

/-- Cutting follows the rules. -/
theorem cuts_extract? {cs : List Char} (hcs : placeholder ∉ cs) : Cuts cs (extract? cs) := by
  -- a piece can take many characters at a time, so the induction is on the length
  induction hn : cs.length using Nat.strongRecOn generalizing cs with
  | ind n ih =>
    cases cs with
    | nil => exact .nil
    | cons c cs =>
      rw [List.mem_cons, not_or] at hcs
      rw [List.length_cons] at hn
      rw [extract?_cons]
      exact cuts_cutStep c hcs.2 fun ds hds hmem => ih ds.length (by omega) hmem rfl

/-- What is cut out of a text are calls. -/
theorem Cuts.callShaped {cs : List Char} {e : Extracted} (h : Cuts cs (some e)) :
    ∀ call ∈ e.calls, CallShaped call.toList := by
  generalize he : some e = x at h
  induction h generalizing e with
  | nil =>
    cases he
    exact nofun
  | char _ _ ih | name _ _ _ ih =>
    obtain ⟨e', rfl, rfl⟩ := Option.map_eq_some_iff.1 he.symm
    exact ih (e := e') rfl
  | @call name inner cs e' isName inside _ ih =>
    obtain ⟨e', rfl, rfl⟩ := Option.map_eq_some_iff.1 he.symm
    intro call hcall
    rcases List.mem_cons.1 hcall with rfl | hcall
    · rw [String.toList_ofList]
      exact ⟨name, inner, isName, inside, rfl⟩
    · exact ih rfl call hcall
  | unclosed _ _ => cases he

/-! ## Calls that are not closed -/

/-- A text that ends in a name, so that a bracket after it opens a call. -/
def EndsInName (cs : List Char) : Prop :=
  ∃ front name, Text.isName name = true ∧ cs = front ++ name

/-- Each call that a text opens is closed in it. -/
def ClosesCalls (cs : List Char) : Prop :=
  ∀ front inside, cs = front ++ '[' :: inside → EndsInName front → Closes inside

/-- A text opens a call that it does not close, and closes all those that it opens before. -/
def Unclosed (cs : List Char) : Prop :=
  ∃ before after, cs = before ++ '[' :: after ∧ EndsInName before ∧ ¬ Closes after ∧
    ClosesCalls before

theorem EndsInName.append {cs : List Char} (h : EndsInName cs) (ds : List Char) :
    EndsInName (ds ++ cs) := by
  obtain ⟨front, name, hname, rfl⟩ := h
  exact ⟨ds ++ front, name, hname, by simp⟩

theorem not_endsInName_nil : ¬ EndsInName [] := by
  rintro ⟨front, name, hname, h⟩
  obtain ⟨-, rfl⟩ := List.append_eq_nil_iff.1 h.symm
  cases hname

/-- A name at the end of a text does not reach over a character that is not one of a name. -/
theorem EndsInName.of_append {cs ds : List Char} {d : Char} (h : EndsInName (cs ++ d :: ds))
    (hd : Text.isNameChar d = false) : EndsInName ds := by
  obtain ⟨front, name, hname, happ⟩ := h
  rcases split_append happ.symm with ⟨front', -, rfl⟩ | ⟨front', -, rfl⟩
  · exact ⟨front', name, hname, rfl⟩
  · have hchar := nameChar_of_isName hname d (by simp)
    rw [hd] at hchar
    exact absurd hchar Bool.false_ne_true

/-- Nothing before a piece matters for a call that is not closed, if the piece closes its own calls
and no name goes on from it. -/
theorem unclosed_append_iff (piece : List Char) {cs : List Char} (hpiece : ClosesCalls piece)
    (hborder : ∀ before after, cs = before ++ '[' :: after → EndsInName (piece ++ before) →
      EndsInName before) : Unclosed (piece ++ cs) ↔ Unclosed cs := by
  constructor
  · rintro ⟨before, after, happ, hname, hopen, hclosed⟩
    rcases split_append happ with ⟨after', hpiece', rfl⟩ | ⟨before', rfl, rfl⟩
    · exact absurd ((hpiece before after' hpiece' hname).append cs) hopen
    · refine ⟨before', after, rfl, hborder before' after rfl hname, hopen, ?_⟩
      rintro front inside rfl hfront
      exact hclosed (piece ++ front) inside (by simp) (hfront.append piece)
  · rintro ⟨before, after, rfl, hname, hopen, hclosed⟩
    refine ⟨piece ++ before, after, by simp, hname.append piece, hopen, ?_⟩
    intro front inside happ hfront
    rcases split_append happ with ⟨inside', hpiece', rfl⟩ | ⟨front', rfl, rfl⟩
    · exact (hpiece front inside' hpiece' hfront).append before
    · exact hclosed front' inside rfl
        (hborder front' (inside ++ '[' :: after) (by simp) hfront)

theorem closesCalls_of_not_mem {cs : List Char} (h : '[' ∉ cs) : ClosesCalls cs := by
  rintro front inside rfl
  exact absurd (by simp) h

theorem bracket_not_mem_of_isName {name : List Char} (h : Text.isName name = true) :
    '[' ∉ name := fun hmem => absurd (nameChar_of_isName h _ hmem) (by decide)

/-- Cutting fails exactly where a call is not closed. -/
theorem Cuts.eq_none_iff {cs : List Char} {e : Option Extracted} (h : Cuts cs e) :
    e = none ↔ Unclosed cs := by
  induction h with
  | nil =>
    refine ⟨nofun, ?_⟩
    rintro ⟨before, after, happ, -⟩
    simp at happ
  | @char c cs e starts _ ih =>
    rw [Option.map_eq_none_iff, ih]
    refine (unclosed_append_iff [c] ?_ ?_).symm
    · rintro front inside happ hfront
      cases front with
      | nil => exact absurd hfront not_endsInName_nil
      | cons d front => simp at happ
    · rintro before after - ⟨front, name, hname, happ⟩
      cases front with
      | nil =>
        rw [List.nil_append] at happ
        rw [← happ, List.singleton_append, Text.isName, starts] at hname
        exact absurd hname Bool.false_ne_true
      | cons d front =>
        rw [List.singleton_append, List.cons_append, List.cons.injEq] at happ
        exact ⟨front, name, hname, happ.2⟩
  | @name name cs e isName stops _ ih =>
    rw [Option.map_eq_none_iff, ih]
    refine (unclosed_append_iff _ (closesCalls_of_not_mem (bracket_not_mem_of_isName isName))
      ?_).symm
    rintro before after rfl hends
    cases before with
    | nil => exact absurd rfl (stops '[' rfl).2
    | cons d before => exact (hends.of_append (stops d rfl).1).append [d]
  | @call name inner cs e isName inside _ ih =>
    rw [Option.map_eq_none_iff, ih]
    have hshape : CallShaped (name ++ '[' :: (inner ++ [']'])) := ⟨name, inner, isName, inside, rfl⟩
    have happ : name ++ '[' :: (inner ++ ']' :: cs) = name ++ '[' :: (inner ++ [']']) ++ cs := by
      simp
    rw [happ]
    refine (unclosed_append_iff _ (fun front inside h _ => hshape.balanced.closes h) ?_).symm
    intro before after _ hends
    have happ : name ++ '[' :: (inner ++ [']']) ++ before =
        (name ++ '[' :: inner) ++ ']' :: before := by simp
    rw [happ] at hends
    exact hends.of_append (by decide)
  | @unclosed name cs isName notClosed =>
    refine iff_of_true rfl ⟨name, cs, rfl, ⟨[], name, isName, rfl⟩, notClosed, ?_⟩
    exact closesCalls_of_not_mem (bracket_not_mem_of_isName isName)

theorem extract?_eq_none_iff {cs : List Char} (hcs : placeholder ∉ cs) :
    extract? cs = none ↔ Unclosed cs :=
  (cuts_extract? hcs).eq_none_iff

theorem callShaped_of_mem_calls {cs : List Char} {e : Extracted} (hcs : placeholder ∉ cs)
    (h : extract? cs = some e) : ∀ call ∈ e.calls, CallShaped call.toList := by
  have hcuts := cuts_extract? hcs
  rw [h] at hcuts
  exact hcuts.callShaped

end Reckoner.Grammar
