import Reckoner.Proofs.Grammar.Calls
import Reckoner.Proofs.Grammar.Refusal

/-!
# Fragments cover a source

`Lexed.ofSource_covers`: a source that is neither empty nor too long and has no placeholder is
refused exactly if a call in it is not closed.  Otherwise its fragments, with the calls in place of
their placeholders, put together are the source, and numerals and names are as long as they can be.

1. Reading a numeral off a text that goes on takes at least as much (`Numeral.Continues`), so what
   is read is the longest numeral at the start of a text (`IsNumeral.prefix_span`).
2. Every fragment is the first one of what is left of the text (`exists_first_of_scan`).
-/

namespace Reckoner

/-! ## The longest numeral -/

namespace Numeral

/-- How reading a part off a text goes on when the text does: the text is used up, and more may be
read, or the same part is read and more is left. -/
def Continues (read : List Char → List Char × List Char) (p cs : List Char) : Prop :=
  ((read p).2 = [] ∧ (read p).1 <+: (read cs).1) ∨
    ((read p).1 = (read cs).1 ∧ (read p).2 <+: (read cs).2)

variable {p cs : List Char}

theorem continues_spanDigits (h : p <+: cs) : Continues spanDigits p cs := by
  obtain ⟨tail, rfl⟩ := h
  unfold Continues spanDigits
  induction p with
  | nil => exact .inl ⟨rfl, List.nil_prefix⟩
  | cons c p ih =>
    by_cases hc : c.isDigit = true
    · simpa [List.cons_append, hc] using ih
    · simp [List.cons_append, hc]

/-- A part that does not start with the first character is not read, however the text goes on. -/
theorem Continues.of_none {read : List Char → List Char × List Char} {c : Char}
    (hread : ∀ cs, read (c :: cs) = ([], c :: cs)) (h : p <+: cs) :
    Continues read (c :: p) (c :: cs) := by
  refine .inr ?_
  rw [hread, hread]
  exact ⟨rfl, List.cons_prefix_cons.2 ⟨rfl, h⟩⟩

theorem continues_spanFraction (h : p <+: cs) : Continues spanFraction p cs := by
  cases p with
  | nil => exact .inl ⟨rfl, List.nil_prefix⟩
  | cons c p =>
    obtain ⟨tail, rfl⟩ := h
    have hp := List.prefix_append p tail
    by_cases hc : c = '.'
    · subst hc
      rcases continues_spanDigits hp with ⟨hnil, hpre⟩ | ⟨hsame, hpre⟩
      · exact .inl ⟨hnil, List.cons_prefix_cons.2 ⟨rfl, hpre⟩⟩
      · exact .inr ⟨congrArg (List.cons '.') hsame, hpre⟩
    · exact .of_none (fun cs => by simp [spanFraction, hc]) hp

theorem continues_spanSign (h : p <+: cs) : Continues spanSign p cs := by
  cases p with
  | nil => exact .inl ⟨rfl, List.nil_prefix⟩
  | cons c p =>
    obtain ⟨tail, rfl⟩ := h
    have hp := List.prefix_append p tail
    by_cases hplus : c = '+'
    · subst hplus
      exact .inr ⟨rfl, hp⟩
    · by_cases hminus : c = '-'
      · subst hminus
        exact .inr ⟨rfl, hp⟩
      · exact .of_none (fun cs => by simp [spanSign, hplus, hminus]) hp

theorem continues_spanUnit (h : p <+: cs) : Continues spanUnit p cs := by
  cases p with
  | nil => exact .inl ⟨rfl, List.nil_prefix⟩
  | cons c p =>
    obtain ⟨tail, rfl⟩ := h
    have hp := List.prefix_append p tail
    by_cases hc : c = 'i'
    · subst hc
      exact .inr ⟨rfl, hp⟩
    · exact .of_none (fun cs => by simp [spanUnit, hc]) hp

/-- The same holds of exponents, unless the text stops within one: then its mark is left over. -/
theorem continues_spanExponent (h : p <+: cs)
    (hend : (spanUnit (spanExponent p).2).2 = []) : Continues spanExponent p cs := by
  cases p with
  | nil => exact .inl ⟨rfl, List.nil_prefix⟩
  | cons c p =>
    obtain ⟨tail, rfl⟩ := h
    have hp := List.prefix_append p tail
    by_cases hmark : (c == 'e' || c == 'E') = true
    · by_cases hdigits : (spanDigits (spanSign p).2).1 = []
      · have hleft : spanExponent (c :: p) = ([], c :: p) := by simp [spanExponent, hdigits]
        rw [hleft] at hend
        simp only [Bool.or_eq_true, beq_iff_eq] at hmark
        rcases hmark with rfl | rfl <;> cases hend
      · obtain ⟨hsign, hrest⟩ : (spanSign p).1 = (spanSign (p ++ tail)).1 ∧
            (spanSign p).2 <+: (spanSign (p ++ tail)).2 := by
          rcases continues_spanSign hp with ⟨hnil, -⟩ | hsame
          · rw [hnil] at hdigits
            exact absurd rfl hdigits
          · exact hsame
        have hread : ∀ {cs : List Char}, (spanDigits (spanSign cs).2).1 ≠ [] →
            spanExponent (c :: cs) = (c :: ((spanSign cs).1 ++ (spanDigits (spanSign cs).2).1),
              (spanDigits (spanSign cs).2).2) := by
          intro cs hne
          simp [spanExponent, hmark, hne]
        rcases continues_spanDigits hrest with ⟨hnil, hpre⟩ | ⟨hsame, hpre⟩
        · have hne : (spanDigits (spanSign (p ++ tail)).2).1 ≠ [] := fun h =>
            hdigits (List.prefix_nil.1 (h ▸ hpre))
          refine .inl ?_
          rw [List.cons_append, hread hdigits, hread hne, hsign]
          exact ⟨hnil, List.cons_prefix_cons.2 ⟨rfl, (List.prefix_append_right_inj _).2 hpre⟩⟩
        · refine .inr ?_
          rw [List.cons_append, hread hdigits, hread (hsame ▸ hdigits), hsign, hsame]
          exact ⟨rfl, hpre⟩
    · exact .of_none (fun cs => by simp [spanExponent, hmark]) hp

/-- A part with what is read after it is at least as long if the text goes on. -/
theorem Continues.append {read : List Char → List Char × List Char}
    {next : List Char → List Char} (h : Continues read p cs) (hnil : next [] = [])
    (hnext : ∀ ds, (read p).2 <+: ds → next (read p).2 <+: next ds) :
    (read p).1 ++ next (read p).2 <+: (read cs).1 ++ next (read cs).2 := by
  rcases h with ⟨hend, hpre⟩ | ⟨hsame, hpre⟩
  · rw [hend, hnil, List.append_nil]
    exact hpre.trans (List.prefix_append _ _)
  · rw [hsame]
    exact (List.prefix_append_right_inj _).2 (hnext _ hpre)

def afterExponent (cs : List Char) : List Char := (spanUnit cs).1

def afterFraction (cs : List Char) : List Char :=
  (spanExponent cs).1 ++ afterExponent (spanExponent cs).2

def afterDigits (cs : List Char) : List Char :=
  (spanFraction cs).1 ++ afterFraction (spanFraction cs).2

theorem span_fst (cs : List Char) :
    (span cs).1 = (spanDigits cs).1 ++ afterDigits (spanDigits cs).2 := by
  simp only [span, afterDigits, afterFraction, afterExponent, List.append_assoc]

/-- Reading a numeral off a text that goes on takes at least as much. -/
theorem span_prefix_span (h : p <+: cs) (hend : (span p).2 = []) : (span p).1 <+: (span cs).1 := by
  rw [span_fst, span_fst]
  refine (continues_spanDigits h).append rfl fun ds hds => ?_
  refine (continues_spanFraction hds).append rfl fun es hes => ?_
  refine (continues_spanExponent hes hend).append rfl fun fs hfs => ?_
  rcases continues_spanUnit hfs with ⟨-, hpre⟩ | ⟨hsame, -⟩
  · exact hpre
  · exact List.prefix_iff_eq_append.2 (by simp [afterExponent, hsame])

theorem IsNumeral.span_eq (h : IsNumeral p) : span p = (p, []) := by
  have hspan := h.span_append atSymbol_nil
  rwa [List.append_nil] at hspan

/-- No numeral at the start of a text is longer than what is read. -/
theorem IsNumeral.prefix_span (hp : IsNumeral p) (h : p <+: cs) : p <+: (span cs).1 := by
  have hprefix := span_prefix_span h (congrArg Prod.snd hp.span_eq)
  rwa [hp.span_eq] at hprefix

end Numeral

/-! ## Fragments of a text -/

namespace Grammar

open Fragment

/-- The text of fragments. -/
def fragmentsChars (fs : List Fragment) : List Char := fs.flatMap (fun f => f.text.toList)

/-- A text of a language that is the longest one before a rest. -/
structure IsLongest (language : List Char → Prop) (text rest : List Char) : Prop where
  mem : language text
  longest : ∀ p, language p → p <+: text ++ rest → p <+: text

/-- Every fragment is the first one of what is left of the text. -/
theorem exists_first_of_scan {cs : List Char} {before after : List Fragment} {f : Fragment}
    (h : scan cs = before ++ f :: after) :
    ∃ c ds, f = (first c ds).1 ∧ after = scan (first c ds).2 ∧
      f.text.toList ++ fragmentsChars after = c :: ds := by
  induction before generalizing cs with
  | nil =>
    cases cs with
    | nil => cases h
    | cons c cs =>
      rw [scan_cons, List.nil_append, List.cons.injEq] at h
      obtain ⟨rfl, rfl⟩ := h
      refine ⟨c, cs, rfl, rfl, ?_⟩
      rw [fragmentsChars, flatMap_scan, first_append]
  | cons g before ih =>
    cases cs with
    | nil => cases h
    | cons c cs =>
      rw [scan_cons, List.cons_append, List.cons.injEq] at h
      exact ih h.2

/-- What the first fragment of a text takes. -/
def Takes (c : Char) (cs : List Char) : FragmentKind → Prop
  | .numeral => c.isDigit = true ∧ (first c cs).1.text.toList = (Numeral.span (c :: cs)).1
  | .name => Text.isNameStart c = true ∧
      (first c cs).1.text.toList = c :: cs.takeWhile Text.isNameChar
  | .invalid => isStart c = false ∧
      (first c cs).1.text.toList = c :: cs.takeWhile (fun d => !isStart d) ∧
      (first c cs).2 = cs.dropWhile (fun d => !isStart d)
  | .call | .operator | .grouper => (first c cs).1.text.toList = [c]

theorem takes_first (c : Char) (cs : List Char) : Takes c cs (first c cs).1.kind := by
  unfold Takes first
  by_cases hplaceholder : c = placeholder
  · simp [hplaceholder]
  by_cases hdigit : c.isDigit = true
  · simp [hplaceholder, hdigit]
  by_cases hname : Text.isNameStart c = true
  · simp [hplaceholder, hdigit, hname]
  by_cases hoperator : isOperator c = true
  · simp [hplaceholder, hdigit, hname, hoperator]
  by_cases hgrouper : isGrouper c = true
  · simp [hplaceholder, hdigit, hname, hoperator, hgrouper]
  · simp [hplaceholder, hdigit, hname, hoperator, hgrouper, isStart]

/-- At a character where a fragment starts, the fragment is a valid one. -/
theorem first_kind_ne_invalid {c : Char} (h : isStart c = true) (cs : List Char) :
    (first c cs).1.kind ≠ .invalid := by
  intro hkind
  have htakes := takes_first c cs
  rw [hkind] at htakes
  exact absurd h (by simp [htakes.1])

section Scan

variable {cs : List Char} {before after : List Fragment} {f : Fragment}

theorem isLongest_of_numeral (h : scan cs = before ++ f :: after) (hkind : f.kind = .numeral) :
    IsLongest Numeral.IsNumeral f.text.toList (fragmentsChars after) := by
  obtain ⟨c, ds, rfl, -, htext⟩ := exists_first_of_scan h
  have htakes := takes_first c ds
  rw [hkind] at htakes
  obtain ⟨hdigit, hspan⟩ := htakes
  refine ⟨hspan ▸ Numeral.isNumeral_span hdigit ds, fun p hp hpre => ?_⟩
  rw [htext] at hpre
  rw [hspan]
  exact hp.prefix_span hpre

theorem isLongest_of_name (h : scan cs = before ++ f :: after) (hkind : f.kind = .name) :
    IsLongest (fun p => Text.isName p = true) f.text.toList (fragmentsChars after) := by
  obtain ⟨c, ds, rfl, -, htext⟩ := exists_first_of_scan h
  have htakes := takes_first c ds
  rw [hkind] at htakes
  obtain ⟨hstart, htake⟩ := htakes
  refine ⟨htake ▸ isName_takeWhile hstart ds, fun p hp hpre => ?_⟩
  have hchars := nameChar_of_isName hp
  rw [htext] at hpre
  rw [htake]
  have hwhole : c :: ds.takeWhile Text.isNameChar = (c :: ds).takeWhile Text.isNameChar := by
    rw [List.takeWhile_cons, if_pos (Text.isNameChar_of_isNameStart hstart)]
  obtain ⟨tail, htail⟩ := hpre
  rw [hwhole, ← htail, List.takeWhile_append_of_pos hchars]
  exact List.prefix_append _ _

/-- What is invalid is collected until something starts. -/
theorem not_invalid_of_invalid {g : Fragment} (h : scan cs = before ++ f :: g :: after)
    (hkind : f.kind = .invalid) : g.kind ≠ .invalid := by
  obtain ⟨c, ds, rfl, hafter, -⟩ := exists_first_of_scan h
  have htakes := takes_first c ds
  rw [hkind] at htakes
  obtain ⟨-, -, hrest⟩ := htakes
  have hhead := List.head?_dropWhile_not (fun d => !isStart d) ds
  rw [← hrest] at hhead
  cases hsnd : (first c ds).2 with
  | nil =>
    rw [hsnd] at hafter
    cases hafter
  | cons d es =>
    rw [hsnd, scan_cons, List.cons.injEq] at hafter
    rw [hsnd] at hhead
    rw [hafter.1]
    exact first_kind_ne_invalid (by simpa using hhead) es

end Scan

/-! ## Calls in their places -/

/-- The text of fragments in which calls stand in the places of the call fragments. -/
def assemble : List Fragment → List String → List Char
  | [], _ => []
  | f :: fs, calls =>
    match f.kind, calls with
    | .call, call :: calls => call.toList ++ assemble fs calls
    | _, calls => f.text.toList ++ assemble fs calls

theorem assemble_call {f : Fragment} (h : f.kind = .call) (fs : List Fragment) (call : String)
    (calls : List String) :
    assemble (f :: fs) (call :: calls) = call.toList ++ assemble fs calls := by
  simp only [assemble, h]

theorem assemble_of_ne {f : Fragment} (h : f.kind ≠ .call) (fs : List Fragment)
    (calls : List String) : assemble (f :: fs) calls = f.text.toList ++ assemble fs calls := by
  rw [assemble]
  exact fun _ _ hkind => absurd hkind h

/-- Putting calls in the places of the fragments or of the placeholders is the same. -/
theorem assemble_eq_fill {fs : List Fragment} (h : ∀ f ∈ fs, IsProper f) {calls : List String}
    (hcount : fs.countP (fun f => f.kind = .call) = calls.length) :
    assemble fs calls = fill (fragmentsChars fs) calls := by
  induction fs generalizing calls with
  | nil => rfl
  | cons f fs ih =>
    obtain ⟨hf, hfs⟩ := List.forall_mem_cons.1 h
    rw [List.countP_cons] at hcount
    have hchars : fragmentsChars (f :: fs) = f.text.toList ++ fragmentsChars fs := rfl
    by_cases hkind : f.kind = .call
    · have htext : f.text.toList = [placeholder] := by
        unfold IsProper at hf
        rwa [hkind] at hf
      cases calls with
      | nil => simp [hkind] at hcount
      | cons call calls =>
        have hrest : assemble fs calls = fill (fragmentsChars fs) calls :=
          ih hfs (by simpa [hkind] using hcount)
        rw [assemble_call hkind, hchars, htext, List.singleton_append, fill_placeholder, hrest]
    · have hrest : assemble fs calls = fill (fragmentsChars fs) calls :=
        ih hfs (by simpa [hkind] using hcount)
      rw [assemble_of_ne hkind, hchars, fill_append (hf.placeholder_not_mem hkind), hrest]

/-- What the fragments of a source and the calls queued for them have to be: there is a call for
each call fragment, and in their places they give the source; calls are names with balanced
brackets; all fragments are in the languages of their kinds, numerals and names as long as they can
be, and no two invalid ones are neighbours. -/
structure Covers (source : List Char) (lexed : Lexed) : Prop where
  count : lexed.fragments.countP (fun f => f.kind = .call) = lexed.calls.length
  source : assemble lexed.fragments lexed.calls = source
  calls : ∀ call ∈ lexed.calls, CallShaped call.toList
  proper : ∀ f ∈ lexed.fragments, IsProper f
  numeral : ∀ before f after, lexed.fragments = before ++ f :: after → f.kind = .numeral →
    IsLongest Numeral.IsNumeral f.text.toList (fragmentsChars after)
  name : ∀ before f after, lexed.fragments = before ++ f :: after → f.kind = .name →
    IsLongest (fun p => Text.isName p = true) f.text.toList (fragmentsChars after)
  invalid : ∀ before f g after, lexed.fragments = before ++ f :: g :: after →
    f.kind = .invalid → g.kind ≠ .invalid

theorem covers_of_extract? {cs : List Char} {e : Extracted} (hcs : placeholder ∉ cs)
    (h : extract? cs = some e) : Covers cs ⟨scan e.text, e.calls⟩ := by
  obtain ⟨hfill, hplaces⟩ := restores_of_extract? hcs h
  have hproper : ∀ f ∈ scan e.text, IsProper f := fun _ => isProper_of_mem_scan
  have hcount : (scan e.text).countP (fun f => f.kind = .call) = e.calls.length := by
    rw [← count_placeholder hproper, flatMap_scan, hplaces]
  refine ⟨hcount, ?_, callShaped_of_mem_calls hcs h, hproper, fun _ _ _ => isLongest_of_numeral,
    fun _ _ _ => isLongest_of_name, fun _ _ _ _ => not_invalid_of_invalid⟩
  rw [assemble_eq_fill hproper hcount, fragmentsChars, flatMap_scan, hfill]

theorem scan_eq_nil_iff {cs : List Char} : scan cs = [] ↔ cs = [] := by
  refine ⟨fun h => ?_, fun h => by rw [h]; rfl⟩
  have htext := flatMap_scan cs
  rw [h] at htext
  exact htext.symm

theorem scan_ne_nil_of_extract? {cs : List Char} {e : Extracted} (hne : cs ≠ [])
    (hcs : placeholder ∉ cs) (h : extract? cs = some e) : scan e.text ≠ [] := by
  intro hnil
  rw [scan_eq_nil_iff] at hnil
  have hfill := (restores_of_extract? hcs h).1
  rw [hnil] at hfill
  exact hne hfill.symm

/-- A source that is neither empty nor too long and has no placeholder is refused only if cutting
its calls out fails. -/
theorem ofSource_eq {source : String} (hne : source ≠ "")
    (hsize : source.utf8ByteSize ≤ Lexed.maxLength) (hplaceholder : placeholder ∉ source.toList) :
    Lexed.ofSource source =
      match extract? source.toList with
      | none => .error (.compile (.missingBracket source source.utf8ByteSize))
      | some e => .ok ⟨scan e.text, e.calls⟩ := by
  have hchars : source.toList ≠ [] := fun h => hne (String.toList_inj.1 h)
  unfold Lexed.ofSource
  rw [if_neg (Nat.not_lt.2 hsize), if_neg (by simpa using hplaceholder)]
  cases he : extract? source.toList with
  | none => rfl
  | some e =>
    have hscan := scan_ne_nil_of_extract? hchars hplaceholder he
    exact if_neg (by simpa using hscan)

end Grammar

namespace Lexed

open Grammar

/-- **Coverage.** A source that is neither empty nor too long and has no placeholder is refused
exactly if a call in it, outside all others, is not closed; else its fragments and calls cover
it. -/
theorem ofSource_covers {source : String} (hne : source ≠ "")
    (hsize : source.utf8ByteSize ≤ 4096) (hplaceholder : Fragment.placeholder ∉ source.toList) :
    ((∃ fault, ofSource source = .error fault) ↔ Unclosed source.toList) ∧
      ∀ lexed, ofSource source = .ok lexed → Covers source.toList lexed := by
  rw [← extract?_eq_none_iff hplaceholder, ofSource_eq hne hsize hplaceholder]
  cases he : Fragment.extract? source.toList with
  | none => exact ⟨iff_of_true ⟨_, rfl⟩ rfl, nofun⟩
  | some e =>
    refine ⟨iff_of_false nofun nofun, ?_⟩
    rintro lexed hlexed
    cases hlexed
    exact covers_of_extract? hplaceholder he

/-- A digit before a call, a mark that starts no exponent, characters at which nothing starts. -/
def gluedSource : String := "2e[g[0],3]1e+x\x00é]1.5e3i"

theorem ofSource_covers_gluedSource :
    gluedSource ≠ "" ∧ gluedSource.utf8ByteSize ≤ 4096 ∧
      Fragment.placeholder ∉ gluedSource.toList ∧
      ∃ lexed, ofSource gluedSource = .ok lexed ∧ lexed.calls = ["e[g[0],3]"] ∧
        lexed.fragments.map Fragment.kind =
          [.numeral, .call, .numeral, .name, .operator, .name, .invalid, .numeral] ∧
        Covers gluedSource.toList lexed := by
  have hne : gluedSource ≠ "" := by decide
  have hsize : gluedSource.utf8ByteSize ≤ 4096 := by decide
  have hplaceholder : Fragment.placeholder ∉ gluedSource.toList := by decide
  obtain ⟨-, hcovers⟩ := ofSource_covers hne hsize hplaceholder
  exact ⟨hne, hsize, hplaceholder, _, rfl, by decide, by decide, hcovers _ rfl⟩

end Lexed

end Reckoner
