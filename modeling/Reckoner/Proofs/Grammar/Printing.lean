import Reckoner.Proofs.Grammar.Compile

/-!
# Printing undoes compiling

An operand is written with a space after each comma between the arguments of a call.  Without its
spaces the text of a compiled operand is the source that it was compiled from.  This goes from the
compiler of calls to that of sources (`writesBack_ofSourceWith`) and from the compiler of arguments
to that of calls (`writesBack_ofCallWith`), so it holds at every depth (`writesBack_compile`).
-/

namespace Reckoner

def unspaced (cs : List Char) : List Char := cs.filter (fun c => c != ' ')

theorem unspaced_append (cs ds : List Char) : unspaced (cs ++ ds) = unspaced cs ++ unspaced ds :=
  List.filter_append cs ds

theorem unspaced_cons {c : Char} (hc : c ≠ ' ') (cs : List Char) :
    unspaced (c :: cs) = c :: unspaced cs := List.filter_cons_of_pos (by simpa using hc)

theorem unspaced_eq_self {cs : List Char} (h : ' ' ∉ cs) : unspaced cs = cs := by
  refine List.filter_eq_self.2 fun c hc => ?_
  rw [bne_iff_ne]
  rintro rfl
  exact h hc

namespace Grammar

open Fragment

/-- Operands are written as the texts that they are compiled from, apart from spaces. -/
def WritesBack (compile : String → Except Fault Operand) : Prop :=
  ∀ s o, compile s = .ok o → unspaced o.chars = s.toList

/-! ## Sources -/

section Sources

variable {w : Nat} {call : String → Except Fault Operand}

theorem writesBack_ofNumeral : WritesBack (Operand.ofNumeral w) := by
  intro s o h
  obtain ⟨value, hvalue, rfl⟩ := map_eq_ok_iff.1 h
  unfold Operand.numeralValue at hvalue
  split at hvalue
  · next hnumeral =>
    rw [Numeral.isNumeral_iff] at hnumeral
    exact unspaced_eq_self fun hmem => absurd (hnumeral.decimalChar _ hmem) (by decide)
  · cases hvalue

theorem writesBack_ofName : WritesBack Operand.ofName := by
  intro s o h
  unfold Operand.ofName at h
  split at h
  · next hname =>
    cases h
    exact unspaced_eq_self fun hmem => absurd (nameChar_of_isName hname _ hmem) (by decide)
  · cases h

theorem unspaced_chars_of_compile (hcall : WritesBack call) {word : Word} {o : Operand}
    (h : word.compile w call = .ok o) : unspaced o.chars = word.chars := by
  cases word with
  | numeral cs => exact (writesBack_ofNumeral _ _ h).trans String.toList_ofList
  | name cs => exact (writesBack_ofName _ _ h).trans String.toList_ofList
  | call cs => exact (hcall _ _ h).trans String.toList_ofList

theorem unspaced_tokensChars (hcall : WritesBack call) {ws : List (Token Word)}
    {ts : List (Token Operand)} (h : List.Forall₂ (Compiles w call) ws ts)
    (hknown : ∀ t ∈ ws, t.IsKnown) : unspaced (tokensChars ts) = spell ws := by
  have hsymbol : ∀ {c : Char}, isOperator c = true ∨ isGrouper c = true → c ≠ ' ' := by
    intro c hc
    rcases symbol_cases hc with rfl | rfl | rfl | rfl | rfl | rfl | rfl | rfl <;> decide
  induction h with
  | nil => rfl
  | @cons t u ws ts ht _ ih =>
    obtain ⟨hk, hks⟩ := List.forall_mem_cons.1 hknown
    rw [spell_cons, ← ih hks]
    cases ht with
    | operand hword =>
      rw [tokensChars, unspaced_append, unspaced_chars_of_compile hcall hword, tokenChars]
    | operator op => rw [tokensChars, unspaced_cons (hsymbol (.inl hk))]; rfl
    | grouper g => rw [tokensChars, unspaced_cons (hsymbol (.inr hk))]; rfl

theorem writesBack_ofSourceWith (hcall : WritesBack call) :
    WritesBack (Operand.ofSourceWith w call) := by
  intro s o h
  obtain ⟨-, ws, ts, hws, hknown, hspell, -, rfl | rfl⟩ := exists_words_of_ofSourceWith h
  · -- a single operand is written like the sequence that holds only it
    have hsingle := unspaced_tokensChars hcall hws hknown
    rwa [tokensChars, tokensChars, List.append_nil, hspell] at hsingle
  · rw [Operand.chars, unspaced_tokensChars hcall hws hknown, hspell]

end Sources

/-! ## Calls -/

section Calls

variable {argument : String → Except Fault Operand}

theorem unspaced_argumentsChars {parts : List (List Char)} {os : List Operand}
    (h : List.Forall₂ (fun part o => unspaced o.chars = part) parts os) :
    unspaced (argumentsChars os) = [','].intercalate parts := by
  induction h with
  | nil => rfl
  | @cons part o parts os hpart hrest ih =>
    cases hrest with
    | nil => rw [argumentsChars, hpart, List.intercalate_singleton]
    | @cons next o' parts os hnext hrest =>
      have hcomma : ∀ cs, unspaced (',' :: ' ' :: cs) = ',' :: unspaced cs := fun _ => rfl
      rw [argumentsChars, unspaced_append, hpart, hcomma, ih, List.intercalate_cons_cons,
        List.append_assoc]
      rfl

theorem writesBack_ofCallWith (harg : WritesBack argument) :
    WritesBack (Operand.ofCallWith argument) := by
  intro s o h
  obtain ⟨name, inner, args, hsplit, hargs, -, rfl⟩ := Operand.ofCallWith_eq_ok h
  obtain ⟨hname, heq⟩ := eq_of_splitCall? hsplit
  have hplain : unspaced name = name :=
    unspaced_eq_self fun hmem => absurd (nameChar_of_isName hname _ hmem) (by decide)
  have hparts : List.Forall₂ (fun part o => unspaced o.chars = part)
      (splitArguments inner) args := by
    refine (mapM_arguments_eq_ok_iff.1 hargs).imp fun part o ho => ?_
    rw [harg _ _ ho.2, String.toList_ofList]
  rw [Operand.chars, String.toList_ofList, unspaced_append, unspaced_append, hplain,
    unspaced_cons (by decide), unspaced_argumentsChars hparts, intercalate_splitArguments, heq,
    List.append_assoc]
  rfl

end Calls

theorem writesBack_compile (w depth : Nat) : WritesBack (Operand.compile w depth) := by
  induction depth with
  | zero =>
    refine writesBack_ofSourceWith fun s o h => ?_
    cases h
  | succ depth ih => exact writesBack_ofSourceWith (writesBack_ofCallWith ih)

end Grammar

/-- **Printing undoes compiling.** The text of a compiled operand, without its spaces, is the
source; so it is compiled to the same operand again, and operands with the same text come from the
same source, whatever the widths and depths they were compiled with. -/
theorem unspaced_text_of_compile (w depth : Nat) (source : String) (o : Operand)
    (h : Operand.compile w depth source = .ok o) :
    String.ofList (unspaced o.text.toList) = source ∧
      Operand.compile w depth (String.ofList (unspaced o.text.toList)) = .ok o ∧
      ∀ w' depth' source' o', Operand.compile w' depth' source' = .ok o' → o'.text = o.text →
        source' = source := by
  have hback : ∀ {w depth source o}, Operand.compile w depth source = .ok o →
      String.ofList (unspaced o.text.toList) = source := by
    intro w depth source o h
    rw [Operand.text, String.toList_ofList, Grammar.writesBack_compile w depth source o h,
      String.ofList_toList]
  refine ⟨hback h, ?_, fun w' depth' source' o' h' htext => ?_⟩
  · rwa [hback h]
  · rw [← hback h', htext, hback h]

/-- A call among the arguments of a call is written with spaces inside and outside. -/
theorem unspaced_text_of_nested_call :
    ∃ o, Operand.compile 140 2 "-f[1.5e3i,g[x,2]]^2" = .ok o ∧
      o.text = "-f[1.5e3i, g[x, 2]]^2" ∧
      String.ofList (unspaced o.text.toList) = "-f[1.5e3i,g[x,2]]^2" ∧
      Operand.compile 140 2 (String.ofList (unspaced o.text.toList)) = .ok o := by
  have htext : (Operand.compile 140 2 "-f[1.5e3i,g[x,2]]^2").map Operand.text =
      .ok "-f[1.5e3i, g[x, 2]]^2" := by decide +kernel
  obtain ⟨o, ho, htext⟩ := map_eq_ok_iff.1 htext
  obtain ⟨hsource, hagain, -⟩ := unspaced_text_of_compile _ _ _ o ho
  exact ⟨o, ho, htext, hsource, hagain⟩

end Reckoner
