import Reckoner.Proofs.Grammar.Compile

/-!
# What the compiler refuses

Every fragment of a call finds the text of its call, because there are as many placeholders as calls
that were cut out (`count_placeholder`).  So the compiler only fails with faults about the text and
about calls that nest too deep (`isCompilerFault_of_compile`).  Together with what it accepts this
is `compile_accepts_exactly`.
-/

namespace Reckoner.Grammar

open Fragment

/-- A fault that the compiler reports: about the text, or about calls that nest too deep. -/
def IsCompilerFault (fault : Fault) : Prop :=
  fault.kind? = some .compile ∨ fault.kind? = some .recursion

theorem isCompilerFault_compile (cause : CompileFault) : IsCompilerFault (.compile cause) :=
  .inl rfl

theorem isCompilerFault_of_numeralValue {w : Nat} {text : String} {fault : Fault}
    (h : Operand.numeralValue w text = .error fault) : IsCompilerFault fault := by
  unfold Operand.numeralValue Number.ofNumeral at h
  split at h
  · split at h
    · cases h
    · cases h
      exact isCompilerFault_compile _
  · cases h
    exact isCompilerFault_compile _

theorem isCompilerFault_of_plainToken {w : Nat} {f : Fragment} {fault : Fault}
    (hkind : f.kind ≠ .call) (h : Operand.plainToken w f = .error fault) :
    IsCompilerFault fault := by
  obtain ⟨kind, text⟩ := f
  cases kind with
  | numeral =>
    unfold Operand.plainToken Operand.ofNumeral at h
    simp only at h
    cases hvalue : Operand.numeralValue w text with
    | error fault' =>
      rw [hvalue] at h
      cases h
      exact isCompilerFault_of_numeralValue hvalue
    | ok value =>
      rw [hvalue] at h
      cases h
  | name =>
    unfold Operand.plainToken Operand.ofName at h
    simp only at h
    split at h
    · cases h
    · cases h
      exact isCompilerFault_compile _
  | operator =>
    unfold Operand.plainToken Operand.operatorOf at h
    simp only at h
    split at h
    · split at h
      · cases h
      · cases h
        exact isCompilerFault_compile _
    · cases h
      exact isCompilerFault_compile _
  | grouper =>
    unfold Operand.plainToken Operand.grouperOf at h
    simp only at h
    split at h
    · split at h
      · cases h
      · cases h
        exact isCompilerFault_compile _
    · cases h
      exact isCompilerFault_compile _
  | call => exact absurd rfl hkind
  | invalid =>
    cases h
    exact isCompilerFault_compile _

/-- Among proper fragments there is one call for each placeholder of their text. -/
theorem count_placeholder {fs : List Fragment} (h : ∀ f ∈ fs, IsProper f) :
    (fs.flatMap (fun f => f.text.toList)).count placeholder =
      fs.countP (fun f => f.kind = .call) := by
  induction fs with
  | nil => rfl
  | cons f fs ih =>
    obtain ⟨hf, hfs⟩ := List.forall_mem_cons.1 h
    rw [List.flatMap_cons, List.count_append, ih hfs, List.countP_cons]
    by_cases hkind : f.kind = .call
    · have htext : f.text.toList = [placeholder] := by
        unfold IsProper at hf
        rw [hkind] at hf
        exact hf
      simp [hkind, htext, Nat.add_comm]
    · simp [hkind, List.count_eq_zero_of_not_mem (hf.placeholder_not_mem hkind)]

section Faults

variable {w : Nat} {call : String → Except Fault Operand}
  (hcall : ∀ text fault, call text = .error fault → IsCompilerFault fault)

include hcall in
theorem isCompilerFault_of_tokensOf {fs : List Fragment} {calls : List String} {fault : Fault}
    (hcount : fs.countP (fun f => f.kind = .call) ≤ calls.length)
    (h : Operand.tokensOf w call fs calls = .error fault) : IsCompilerFault fault := by
  induction fs generalizing calls with
  | nil => cases h
  | cons f fs ih =>
    rw [List.countP_cons] at hcount
    by_cases hkind : f.kind = .call
    · obtain ⟨kind, text⟩ := f
      simp only at hkind
      subst hkind
      cases calls with
      | nil => simp at hcount
      | cons text' calls =>
        rw [tokensOf_call] at h
        cases ho : call text' with
        | error e =>
          rw [ho] at h
          cases h
          exact hcall text' fault ho
        | ok o =>
          rw [ho, ok_bind] at h
          cases hts : Operand.tokensOf w call fs calls with
          | error e =>
            rw [hts] at h
            cases h
            exact ih (by simpa using hcount) hts
          | ok ts => rw [hts] at h; cases h
    · rw [tokensOf_plain hkind] at h
      cases ht : Operand.plainToken w f with
      | error e =>
        rw [ht] at h
        cases h
        exact isCompilerFault_of_plainToken hkind ht
      | ok t =>
        rw [ht, ok_bind] at h
        cases hts : Operand.tokensOf w call fs calls with
        | error e =>
          rw [hts] at h
          cases h
          exact ih (by omega) hts
        | ok ts => rw [hts] at h; cases h

theorem isCompilerFault_of_ofSource {s : String} {fault : Fault}
    (h : Lexed.ofSource s = .error fault) : IsCompilerFault fault := by
  unfold Lexed.ofSource at h
  split at h
  · cases h
    exact isCompilerFault_compile _
  · split at h
    · cases h
      exact isCompilerFault_compile _
    · split at h
      · cases h
        exact isCompilerFault_compile _
      · dsimp only at h
        split at h
        · cases h
          exact isCompilerFault_compile _
        · cases h

include hcall in
theorem isCompilerFault_of_ofSourceWith {s : String} {fault : Fault}
    (h : Operand.ofSourceWith w call s = .error fault) : IsCompilerFault fault := by
  unfold Operand.ofSourceWith at h
  cases hlexed : Lexed.ofSource s with
  | error e =>
    rw [hlexed] at h
    cases h
    exact isCompilerFault_of_ofSource hlexed
  | ok lexed =>
    rw [hlexed, ok_bind] at h
    obtain ⟨-, hplaceholder, e, he, rfl⟩ := ofSource_eq_ok hlexed
    -- each call fragment has its text, so no call is missing
    have hcount : (scan e.text).countP (fun f => f.kind = .call) = e.calls.length := by
      rw [← count_placeholder fun _ => isProper_of_mem_scan, flatMap_scan]
      exact (restores_of_extract? hplaceholder he).2
    cases hts : Operand.tokensOf w call (scan e.text) e.calls with
    | error f =>
      rw [hts] at h
      cases h
      exact isCompilerFault_of_tokensOf hcall (Nat.le_of_eq hcount) hts
    | ok ts =>
      rw [hts, ok_bind] at h
      split at h
      · cases h
      · cases h
        exact isCompilerFault_compile _
      · split at h
        · cases h
          exact isCompilerFault_compile _
        · cases h

end Faults

theorem isCompilerFault_of_ofCallWith {argument : String → Except Fault Operand}
    (harg : ∀ text fault, argument text = .error fault → IsCompilerFault fault) {text : String}
    {fault : Fault} (h : Operand.ofCallWith argument text = .error fault) :
    IsCompilerFault fault := by
  unfold Operand.ofCallWith at h
  split at h
  · cases h
    exact isCompilerFault_compile _
  · next name inner _ =>
    cases hargs : (splitArguments inner).mapM (fun part =>
        if part.isEmpty then .error (.compile (.notCall text))
        else argument (String.ofList part)) with
    | error e =>
      rw [hargs] at h
      cases h
      obtain ⟨part, -, hpart⟩ := exists_of_mapM_eq_error hargs
      split at hpart
      · cases hpart
        exact isCompilerFault_compile _
      · exact harg _ _ hpart
    | ok args =>
      rw [hargs, ok_bind] at h
      dsimp only at h
      split at h
      · split at h
        · cases h
          exact isCompilerFault_compile _
        · cases h
      · cases h

theorem isCompilerFault_of_compile {w depth : Nat} {s : String} {fault : Fault}
    (h : Operand.compile w depth s = .error fault) : IsCompilerFault fault := by
  induction depth generalizing s fault with
  | zero =>
    refine isCompilerFault_of_ofSourceWith (fun text fault h => ?_) h
    cases h
    exact .inr rfl
  | succ depth ih =>
    exact isCompilerFault_of_ofSourceWith
      (fun _ _ => isCompilerFault_of_ofCallWith fun _ _ => ih) h

end Reckoner.Grammar

namespace Reckoner

/-- **The language of the compiler.** At every width and depth, a source is compiled exactly if it
has at most 4096 bytes and is an expression whose calls nest at most so deep; every other source is
refused with a compile or recursion fault. -/
theorem compile_accepts_exactly (w depth : Nat) (source : String) :
    ((∃ o, Operand.compile w depth source = .ok o) ↔
      source.utf8ByteSize ≤ 4096 ∧ Grammar.IsExpression depth source.toList) ∧
    ∀ fault, Operand.compile w depth source = .error fault →
      fault.kind? = some .compile ∨ fault.kind? = some .recursion := by
  obtain ⟨haccepts, -⟩ := Grammar.accepts_compile w depth
  refine ⟨⟨?_, ?_⟩, fun fault => Grammar.isCompilerFault_of_compile⟩
  · rintro ⟨o, ho⟩
    exact ⟨Grammar.size_le_of_compile ho, haccepts.sound ho⟩
  · rintro ⟨hsize, hexpression⟩
    rw [← Grammar.bytes_toList] at hsize
    have hcompile := haccepts.complete hexpression hsize
    rwa [String.ofList_toList] at hcompile

end Reckoner
