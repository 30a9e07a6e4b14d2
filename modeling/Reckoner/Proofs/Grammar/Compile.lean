import Reckoner.Proofs.Grammar.Scanning
import Reckoner.Proofs.Operand.WellFormed

/-!
# What the compiler accepts

1. The tokens of a source are compiled word by word (`tokensOf_words`, `exists_words`).
2. Given a compiler for calls, sources are compiled exactly if they are expressions over the calls
   that it accepts (`accepts_ofSourceWith`); given one for arguments, calls exactly if they are
   calls over the arguments that it accepts (`accepts_ofCallWith`).
3. By induction on the depth, exactly the expressions of bounded length are compiled
   (`accepts_compile`).
-/

namespace Reckoner.Grammar

open Fragment

/-! ## Words and operands -/

section Words

variable {w : Nat} {call : String → Except Fault Operand}

/-- Compiles a word, given how to compile a call. -/
def Word.compile (w : Nat) (call : String → Except Fault Operand) : Word → Except Fault Operand
  | .numeral cs => Operand.ofNumeral w (String.ofList cs)
  | .name cs => Operand.ofName (String.ofList cs)
  | .call cs => call (String.ofList cs)

/-- A token over operands comes from one over words. -/
inductive Compiles (w : Nat) (call : String → Except Fault Operand) :
    Token Word → Token Operand → Prop where
  | operand {word : Word} {o : Operand} (h : word.compile w call = .ok o) :
      Compiles w call (.operand word) (.operand o)
  | operator (op : Operator) : Compiles w call (.operator op) (.operator op)
  | grouper (g : Grouper) : Compiles w call (.grouper g) (.grouper g)

theorem Compiles.step_iff {t : Token Word} {u : Token Operand} (h : Compiles w call t u)
    (text : Word → String) (text' : Operand → String) (p q : Token.Place) :
    p.step text t = .ok q ↔ p.step text' u = .ok q := by
  cases h with
  | operand _ =>
    rw [Token.Place.step, Token.Place.step]
    split
    · rfl
    · simp
  | operator op => rfl
  | grouper g => rfl

theorem walk_eq_ok_iff {α : Type} (text : α → String) (p q : Token.Place) (t : Token α)
    (ts : List (Token α)) :
    p.walk text (t :: ts) = .ok q ↔ ∃ r, p.step text t = .ok r ∧ r.walk text ts = .ok q := by
  rw [Token.Place.walk]
  cases p.step text t with
  | error fault => simp
  | ok r => simp

/-- Words and the operands that they are compiled to are in the same order. -/
theorem chain_iff_of_compiles {ws : List (Token Word)} {ts : List (Token Operand)}
    (h : List.Forall₂ (Compiles w call) ws ts) :
    Token.Chain .joined ws ↔ Token.Chain .joined ts := by
  have hwalk : ∀ p q : Token.Place,
      p.walk (fun _ => "") ws = .ok q ↔ p.walk Operand.text ts = .ok q := by
    induction h with
    | nil => exact fun p q => Iff.rfl
    | cons ht _ ih =>
      intro p q
      rw [walk_eq_ok_iff, walk_eq_ok_iff]
      refine exists_congr fun r => and_congr ?_ (ih r q)
      exact ht.step_iff _ _ p r
  rw [← Token.checkOrder_eq_ok_iff (fun _ => ""), ← Token.checkOrder_eq_ok_iff Operand.text,
    Token.checkOrder_eq_ok_iff_endsWell, Token.checkOrder_eq_ok_iff_endsWell]
  exact hwalk _ _

theorem tokensOf_call (text text' : String) (fs : List Fragment) (calls : List String) :
    Operand.tokensOf w call (⟨.call, text⟩ :: fs) (text' :: calls) =
      call text' >>= fun o => Operand.tokensOf w call fs calls >>= fun ts =>
        .ok (.operand o :: ts) := rfl

theorem tokensOf_plain {f : Fragment} (hf : f.kind ≠ .call) (fs : List Fragment)
    (calls : List String) :
    Operand.tokensOf w call (f :: fs) calls =
      Operand.plainToken w f >>= fun t => Operand.tokensOf w call fs calls >>= fun ts =>
        .ok (t :: ts) := by
  rw [Operand.tokensOf]
  · rfl
  · intro text rest hkind
    exact absurd hkind hf

theorem plainToken_of_compiles {t : Token Word} {u : Token Operand} (h : Compiles w call t u)
    (hknown : t.IsKnown) (hcall : callOf? t = none) :
    (fragmentOf t).kind ≠ .call ∧ Operand.plainToken w (fragmentOf t) = .ok u := by
  cases h with
  | operator op =>
    refine ⟨fun hkind => (by cases hkind), ?_⟩
    have hop : Operand.operatorOf (String.ofList [op.symbol]) = .ok op := by
      unfold Operand.operatorOf
      rw [String.toList_ofList]
      exact if_pos hknown
    rw [fragmentOf, Operand.plainToken, hop, map_ok]
  | grouper g =>
    refine ⟨fun hkind => (by cases hkind), ?_⟩
    have hg : Operand.grouperOf (String.ofList [g.symbol]) = .ok g := by
      unfold Operand.grouperOf
      rw [String.toList_ofList]
      exact if_pos hknown
    rw [fragmentOf, Operand.plainToken, hg, map_ok]
  | @operand word o hword =>
    cases word with
    | call cs => cases hcall
    | numeral cs =>
      refine ⟨fun hkind => (by cases hkind), ?_⟩
      rw [Word.compile] at hword
      rw [fragmentOf, Operand.plainToken, hword, map_ok]
    | name cs =>
      refine ⟨fun hkind => (by cases hkind), ?_⟩
      rw [Word.compile] at hword
      rw [fragmentOf, Operand.plainToken, hword, map_ok]

theorem tokensOf_words {ws : List (Token Word)} {ts : List (Token Operand)}
    (h : List.Forall₂ (Compiles w call) ws ts) (hknown : ∀ t ∈ ws, t.IsKnown) :
    Operand.tokensOf w call (ws.map fragmentOf) (ws.filterMap callOf?) = .ok ts := by
  induction h with
  | nil => rfl
  | @cons t u ws ts ht _ ih =>
    have hrest := ih fun t h => hknown t (by simp [h])
    rw [List.map_cons, List.filterMap_cons]
    cases hcall : callOf? t with
    | none =>
      obtain ⟨hkind, htoken⟩ := plainToken_of_compiles ht (hknown t (by simp)) hcall
      simp only
      rw [tokensOf_plain hkind, htoken, ok_bind, hrest, ok_bind]
    | some text =>
      cases ht with
      | operator op => cases hcall
      | grouper g => cases hcall
      | @operand word o hword =>
        cases word with
        | numeral cs => cases hcall
        | name cs => cases hcall
        | call cs =>
          cases hcall
          rw [Word.compile] at hword
          simp only [fragmentOf]
          rw [tokensOf_call, hword, ok_bind, hrest, ok_bind]

theorem exists_word_of_plainToken {f : Fragment} {u : Token Operand} (hf : IsProper f)
    (h : Operand.plainToken w f = .ok u) :
    ∃ t, Compiles w call t u ∧ t.IsKnown ∧ tokenChars t = f.text.toList := by
  obtain ⟨kind, text⟩ := f
  cases kind with
  | numeral =>
    obtain ⟨o, ho, rfl⟩ := map_eq_ok_iff.1 h
    refine ⟨.operand (.numeral text.toList), .operand ?_, trivial, rfl⟩
    rw [Word.compile, String.ofList_toList]
    exact ho
  | name =>
    obtain ⟨o, ho, rfl⟩ := map_eq_ok_iff.1 h
    refine ⟨.operand (.name text.toList), .operand ?_, trivial, rfl⟩
    rw [Word.compile, String.ofList_toList]
    exact ho
  | operator =>
    obtain ⟨op, hop, rfl⟩ := map_eq_ok_iff.1 h
    refine ⟨.operator op, .operator op, Operand.isKnown_of_operatorOf hop, ?_⟩
    obtain ⟨c, hc, htext⟩ := hf
    simp only at htext hop ⊢
    unfold Operand.operatorOf at hop
    simp only [htext, hc, if_true, Except.ok.injEq] at hop
    rw [htext, tokenChars, ← hop]
  | grouper =>
    obtain ⟨g, hg, rfl⟩ := map_eq_ok_iff.1 h
    refine ⟨.grouper g, .grouper g, Operand.isKnown_of_grouperOf hg, ?_⟩
    obtain ⟨c, hc, htext⟩ := hf
    simp only at htext hg ⊢
    unfold Operand.grouperOf at hg
    simp only [htext, hc, if_true, Except.ok.injEq] at hg
    rw [htext, tokenChars, ← hg]
  | call => cases h
  | invalid => cases h

/-- Compiled fragments come from words that spell the text with the calls put back. -/
theorem exists_words {fs : List Fragment} {calls : List String} {ts : List (Token Operand)}
    (hfs : ∀ f ∈ fs, IsProper f) (h : Operand.tokensOf w call fs calls = .ok ts) :
    ∃ ws, List.Forall₂ (Compiles w call) ws ts ∧ (∀ t ∈ ws, t.IsKnown) ∧
      spell ws = fill (fs.flatMap (fun f => f.text.toList)) calls := by
  induction fs generalizing calls ts with
  | nil =>
    cases h
    exact ⟨[], .nil, nofun, rfl⟩
  | cons f fs ih =>
    have hf := hfs f (by simp)
    have hrest := fun {calls ts} => @ih calls ts fun f h => hfs f (by simp [h])
    rw [List.flatMap_cons]
    by_cases hkind : f.kind = .call
    · obtain ⟨kind, text⟩ := f
      simp only at hkind
      subst hkind
      cases calls with
      | nil => cases h
      | cons text' calls =>
        rw [tokensOf_call] at h
        obtain ⟨o, ho, h⟩ := bind_eq_ok_iff.1 h
        obtain ⟨us, hus, h⟩ := bind_eq_ok_iff.1 h
        cases h
        obtain ⟨ws, hws, hknown, hspell⟩ := hrest hus
        have htext : text.toList = [placeholder] := hf
        refine ⟨.operand (.call text'.toList) :: ws, .cons (.operand ?_) hws, ?_, ?_⟩
        · rw [Word.compile, String.ofList_toList]
          exact ho
        · exact List.forall_mem_cons.2 ⟨trivial, hknown⟩
        · rw [spell_cons, hspell, htext, List.singleton_append, fill_placeholder]
          rfl
    · rw [tokensOf_plain hkind] at h
      obtain ⟨u, hu, h⟩ := bind_eq_ok_iff.1 h
      obtain ⟨us, hus, h⟩ := bind_eq_ok_iff.1 h
      cases h
      obtain ⟨ws, hws, hknown, hspell⟩ := hrest hus
      obtain ⟨t, ht, htknown, hchars⟩ := exists_word_of_plainToken hf hu
      refine ⟨t :: ws, .cons ht hws, List.forall_mem_cons.2 ⟨htknown, hknown⟩, ?_⟩
      rw [spell_cons, hspell, hchars, fill_append (hf.placeholder_not_mem hkind)]

end Words

/-! ## Lengths -/

/-- The length of a text in bytes. -/
def bytes (cs : List Char) : Nat := (String.ofList cs).utf8ByteSize

theorem bytes_append (cs ds : List Char) : bytes (cs ++ ds) = bytes cs + bytes ds := by
  rw [bytes, String.ofList_append, String.utf8ByteSize_append]
  rfl

theorem bytes_toList (s : String) : bytes s.toList = s.utf8ByteSize := by
  rw [bytes, String.ofList_toList]

theorem bytes_le_spell {ws : List (Token Word)} {t : Token Word} (h : t ∈ ws) :
    bytes (tokenChars t) ≤ bytes (spell ws) := by
  obtain ⟨us, vs, rfl⟩ := List.append_of_mem h
  rw [spell_append, spell_cons, bytes_append, bytes_append]
  omega

theorem bytes_le_intercalate {args : List (List Char)} {arg : List Char} (h : arg ∈ args) :
    bytes arg ≤ bytes ([','].intercalate args) := by
  induction args with
  | nil => cases h
  | cons first rest ih =>
    cases rest with
    | nil =>
      rw [List.intercalate_singleton, List.mem_singleton.1 h]
    | cons next rest =>
      rw [List.intercalate_cons_cons, bytes_append, bytes_append]
      rcases List.mem_cons.1 h with rfl | h
      · omega
      · have hle := ih h
        omega

/-! ## Sources -/

/-- A compiler accepts the texts of a language, as far as they are not too long. -/
structure Accepts (compile : String → Except Fault Operand) (L : List Char → Prop) : Prop where
  sound : ∀ {s : String} {o : Operand}, compile s = .ok o → L s.toList
  complete : ∀ {cs : List Char}, L cs → bytes cs ≤ Lexed.maxLength →
    ∃ o, compile (String.ofList cs) = .ok o

/-- The compiler gives variables exactly for names. -/
structure FindsNames (compile : String → Except Fault Operand) : Prop where
  sound : ∀ {s x : String}, compile s = .ok (.var x) → Text.isName s.toList = true
  complete : ∀ {cs : List Char}, Text.isName cs = true → bytes cs ≤ Lexed.maxLength →
    ∃ x, compile (String.ofList cs) = .ok (.var x)

section Sources

variable {w : Nat} {call : String → Except Fault Operand} {L : List Char → Prop}

theorem wordsIn_of_compiles (hcall : Accepts call L) {ws : List (Token Word)}
    {ts : List (Token Operand)} (h : List.Forall₂ (Compiles w call) ws ts)
    (hknown : ∀ t ∈ ws, t.IsKnown) : WordsIn L ws := by
  induction h with
  | nil => exact nofun
  | @cons t u ws ts ht _ ih =>
    obtain ⟨hk, hks⟩ := List.forall_mem_cons.1 hknown
    refine wordsIn_cons.2 ⟨⟨hk, ?_⟩, ih hks⟩
    intro word hword
    subst hword
    cases ht with
    | operand hword =>
      cases word with
      | numeral cs =>
        obtain ⟨value, hvalue, -⟩ := map_eq_ok_iff.1 hword
        unfold Operand.numeralValue at hvalue
        split at hvalue
        · next hnumeral =>
          rw [String.toList_ofList] at hnumeral
          exact (Numeral.isNumeral_iff cs).1 hnumeral
        · cases hvalue
      | name cs =>
        rw [Word.compile, Operand.ofName, String.toList_ofList] at hword
        split at hword
        · next hname => exact hname
        · cases hword
      | call cs =>
        have hin := hcall.sound hword
        rwa [String.toList_ofList] at hin

/-- Words in their languages that are not too long are compiled. -/
theorem exists_compiles (hcall : Accepts call L) {ws : List (Token Word)} (h : WordsIn L ws)
    (hbytes : ∀ t ∈ ws, bytes (tokenChars t) ≤ Lexed.maxLength) :
    ∃ ts, List.Forall₂ (Compiles w call) ws ts := by
  induction ws with
  | nil => exact ⟨[], .nil⟩
  | cons t ws ih =>
    obtain ⟨⟨-, hword⟩, hws⟩ := wordsIn_cons.1 h
    obtain ⟨hb, hbs⟩ := List.forall_mem_cons.1 hbytes
    obtain ⟨ts, hts⟩ := ih hws hbs
    cases t with
    | operator op => exact ⟨.operator op :: ts, .cons (.operator op) hts⟩
    | grouper g => exact ⟨.grouper g :: ts, .cons (.grouper g) hts⟩
    | operand word =>
      have hin := hword word rfl
      have hcompile : ∃ o, word.compile w call = .ok o := by
        cases word with
        | numeral cs =>
          have hnumeral : Numeral.IsNumeral (String.ofList cs).toList := by
            rw [String.toList_ofList]
            exact hin
          obtain ⟨value, hvalue⟩ := hnumeral.ofNumeral_eq_ok w
          have htest := (Numeral.isNumeral_iff _).2 hnumeral
          refine ⟨.numeral value (String.ofList cs), ?_⟩
          rw [Word.compile, Operand.ofNumeral, Operand.numeralValue, if_pos htest, hvalue, map_ok]
        | name cs =>
          have hname : Text.isName (String.ofList cs).toList = true := by
            rw [String.toList_ofList]
            exact hin
          exact ⟨.var (String.ofList cs), if_pos hname⟩
        | call cs => exact hcall.complete hin hb
      obtain ⟨o, ho⟩ := hcompile
      exact ⟨.operand o :: ts, .cons (.operand ho) hts⟩

theorem ofSource_eq_ok {s : String} {lexed : Lexed} (h : Lexed.ofSource s = .ok lexed) :
    s.utf8ByteSize ≤ Lexed.maxLength ∧ placeholder ∉ s.toList ∧
      ∃ e, extract? s.toList = some e ∧ lexed = ⟨scan e.text, e.calls⟩ := by
  unfold Lexed.ofSource at h
  split at h
  · cases h
  · next hsize =>
    split at h
    · cases h
    · next hplaceholder =>
      split at h
      · cases h
      · next e he =>
        dsimp only at h
        split at h
        · cases h
        · cases h
          exact ⟨by omega, by simpa using hplaceholder, e, he, rfl⟩

theorem exists_words_of_ofSourceWith {s : String} {o : Operand}
    (h : Operand.ofSourceWith w call s = .ok o) :
    s.utf8ByteSize ≤ Lexed.maxLength ∧ ∃ ws ts, List.Forall₂ (Compiles w call) ws ts ∧
      (∀ t ∈ ws, t.IsKnown) ∧ spell ws = s.toList ∧ Token.Chain .joined ts ∧
      (ts = [.operand o] ∨ o = .expression ts) := by
  unfold Operand.ofSourceWith at h
  obtain ⟨lexed, hlexed, h₁⟩ := bind_eq_ok_iff.1 h
  obtain ⟨ts, hts, h₂⟩ := bind_eq_ok_iff.1 h₁
  obtain ⟨hsize, hplaceholder, e, he, rfl⟩ := ofSource_eq_ok hlexed
  obtain ⟨ws, hws, hknown, hspell⟩ := exists_words (fun _ => isProper_of_mem_scan) hts
  rw [flatMap_scan, (restores_of_extract? hplaceholder he).1] at hspell
  refine ⟨hsize, ws, ts, hws, hknown, hspell, ?_⟩
  split at h₂
  · cases h₂
    exact ⟨.last (.operand o), .inl rfl⟩
  · cases h₂
  · split at h₂
    · cases h₂
    · next horder =>
      cases h₂
      exact ⟨(Token.checkOrder_eq_ok_iff _ _).1 horder, .inr rfl⟩

theorem ofSourceWith_of_words (hshape : ∀ cs, L cs → CallShaped cs) {ws : List (Token Word)}
    {ts : List (Token Operand)} (hws : List.Forall₂ (Compiles w call) ws ts)
    (hin : WordsIn L ws) (hchain : Token.Chain .joined ws)
    (hbytes : bytes (spell ws) ≤ Lexed.maxLength) :
    ∃ o, Operand.ofSourceWith w call (String.ofList (spell ws)) = .ok o ∧
      (ts = [.operand o] ∨ (∀ u, ts ≠ [.operand u]) ∧ o = .expression ts) := by
  have hplaceholder : placeholder ∉ spell ws :=
    ((derives_of_chain hchain hin).balanced hshape).placeholder_not_mem
  have hapart := apart_of_chain hchain
  have hne : ws ≠ [] := by
    obtain ⟨word, hword⟩ := hchain.exists_operand
    exact List.ne_nil_of_mem hword
  have hlexed : Lexed.ofSource (String.ofList (spell ws)) =
      .ok ⟨ws.map fragmentOf, ws.filterMap callOf?⟩ := by
    unfold bytes at hbytes
    unfold Lexed.ofSource
    rw [if_neg (Nat.not_lt.2 hbytes), String.toList_ofList, if_neg (by simpa using hplaceholder),
      extract?_spell hshape hapart hin]
    dsimp only
    rw [scan_skeleton hapart hin, if_neg (by simpa using hne)]
  have hchain' := (chain_iff_of_compiles hws).1 hchain
  have horder := (Token.checkOrder_eq_ok_iff Operand.text ts).2 hchain'
  obtain ⟨a, ha⟩ := hchain'.exists_operand
  unfold Operand.ofSourceWith
  rw [hlexed, ok_bind, tokensOf_words hws fun t h => (hin t h).1, ok_bind]
  split
  · next o => exact ⟨o, rfl, .inl rfl⟩
  · next t hnot => exact absurd (List.mem_singleton.1 ha).symm (hnot a)
  · next hnot _ =>
    rw [horder]
    exact ⟨_, rfl, .inr ⟨hnot, rfl⟩⟩

theorem ofSourceWith_word (hshape : ∀ cs, L cs → CallShaped cs) (word : Word) (hword : word.IsIn L)
    {o : Operand} (h : word.compile w call = .ok o) (hbytes : bytes word.chars ≤ Lexed.maxLength) :
    Operand.ofSourceWith w call (String.ofList word.chars) = .ok o := by
  have hspell : spell [.operand word] = word.chars := List.append_nil _
  obtain ⟨o', ho', htokens⟩ := ofSourceWith_of_words hshape (.cons (.operand h) .nil)
    (wordsIn_operand hword) (.last (.operand word)) (by rwa [hspell])
  rw [hspell] at ho'
  rcases htokens with htokens | ⟨hnot, -⟩
  · cases htokens
    exact ho'
  · exact absurd rfl (hnot o)

/-- Sources are compiled exactly if they are expressions over the compiled calls. -/
theorem accepts_ofSourceWith (hcall : Accepts call L) (hshape : ∀ cs, L cs → CallShaped cs) :
    Accepts (Operand.ofSourceWith w call) (Derives L .expression) where
  sound {s o} h := by
    obtain ⟨-, ws, ts, hws, hknown, hspell, hchain, -⟩ := exists_words_of_ofSourceWith h
    rw [← hspell]
    exact derives_of_chain ((chain_iff_of_compiles hws).2 hchain)
      (wordsIn_of_compiles hcall hws hknown)
  complete {cs} h hbytes := by
    obtain ⟨ws, hchain, hin, rfl⟩ := h.exists_chain
    obtain ⟨ts, hws⟩ := exists_compiles hcall hin fun t ht => (bytes_le_spell ht).trans hbytes
    obtain ⟨o, ho, -⟩ := ofSourceWith_of_words hshape hws hin hchain hbytes
    exact ⟨o, ho⟩

/-- Sources are compiled to variables exactly if they are names. -/
theorem findsNames_ofSourceWith (hshape : ∀ cs, L cs → CallShaped cs)
    (hvar : ∀ s x, call s ≠ .ok (.var x)) : FindsNames (Operand.ofSourceWith w call) where
  sound {s x} h := by
    obtain ⟨-, ws, ts, hws, -, hspell, -, rfl | hx⟩ := exists_words_of_ofSourceWith h
    · cases hws with
      | cons hword hnil =>
        cases hnil
        cases hword with
        | @operand word _ hword =>
          rw [← hspell, spell_cons, spell_nil, List.append_nil, tokenChars]
          cases word with
          | numeral cs =>
            obtain ⟨value, hvalue⟩ := Operand.eq_numeral_of_ofNumeral hword
            cases hvalue
          | name cs =>
            rw [Word.compile, Operand.ofName, String.toList_ofList] at hword
            split at hword
            · next hname => exact hname
            · cases hword
          | call cs => exact absurd hword (hvar _ _)
    · cases hx
  complete {cs} h hbytes := by
    have hname : Text.isName (String.ofList cs).toList = true := by
      rw [String.toList_ofList]
      exact h
    exact ⟨_, ofSourceWith_word hshape (.name cs) h (if_pos hname) hbytes⟩

end Sources

/-! ## Calls -/

section Calls

variable {argument : String → Except Fault Operand} {P : List Char → Prop}

/-- Arguments are compiled one by one; none of them is empty. -/
theorem mapM_arguments_eq_ok_iff {fault : Fault} {parts : List (List Char)} {os : List Operand} :
    parts.mapM (fun part =>
      if part.isEmpty then .error fault else argument (String.ofList part)) = .ok os ↔
    List.Forall₂ (fun part o => part ≠ [] ∧ argument (String.ofList part) = .ok o) parts os := by
  have hstep : (fun (part : List Char) (o : Operand) =>
      (if part.isEmpty then .error fault else argument (String.ofList part)) = .ok o) =
        fun part o => part ≠ [] ∧ argument (String.ofList part) = .ok o := by
    funext part o
    cases part <;> simp
  rw [mapM_eq_ok_iff, hstep]

theorem forall_of_forall₂ {α β : Type} {R : α → β → Prop} {Q : α → Prop} {xs : List α}
    {ys : List β} (h : List.Forall₂ R xs ys) (hQ : ∀ x y, R x y → Q x) : ∀ x ∈ xs, Q x := by
  induction h with
  | nil => exact nofun
  | cons hxy _ ih => exact List.forall_mem_cons.2 ⟨hQ _ _ hxy, ih⟩

/-- The first of four arguments is compiled to a variable exactly if it is a name. -/
theorem checkReduction_of_forall₂ (hnames : FindsNames argument) {name : String}
    {parts : List (List Char)} {os : List Operand}
    (hos : List.Forall₂ (fun part o => part ≠ [] ∧ argument (String.ofList part) = .ok o) parts os)
    (hbytes : ∀ part ∈ parts, bytes part ≤ Lexed.maxLength) :
    Operand.checkReduction name os = .ok () ↔
      parts.length = 4 ∧ ∀ first ∈ parts.head?, Text.isName first = true := by
  rw [Operand.checkReduction_eq_ok_iff, hos.length_eq]
  cases hos with
  | nil => simp
  | @cons part o parts os ho hos =>
    obtain ⟨-, ho⟩ := ho
    have hvar : (∃ x, o = .var x) ↔ Text.isName part = true := by
      constructor
      · rintro ⟨x, rfl⟩
        have hname := hnames.sound ho
        rwa [String.toList_ofList] at hname
      · intro hname
        obtain ⟨x, hx⟩ := hnames.complete hname (hbytes part (by simp))
        rw [ho] at hx
        exact ⟨x, Except.ok.inj hx⟩
    constructor
    · rintro ⟨counter, first, last, term, h⟩
      cases h
      refine ⟨rfl, fun first hfirst => ?_⟩
      cases hfirst
      exact hvar.1 ⟨counter, rfl⟩
    · rintro ⟨hlength, hfirst⟩
      obtain ⟨counter, rfl⟩ := hvar.2 (hfirst part rfl)
      match os, hlength with
      | [first, last, term], _ => exact ⟨counter, first, last, term, rfl⟩

/-- Calls are compiled exactly if they are calls over the compiled arguments. -/
theorem accepts_ofCallWith (harg : Accepts argument P) (hnames : FindsNames argument)
    (hsize : ∀ s o, argument s = .ok o → s.utf8ByteSize ≤ Lexed.maxLength)
    (hP : ∀ cs, P cs → Balanced false cs ∧ cs ≠ []) :
    Accepts (Operand.ofCallWith argument) (IsCall P) where
  sound {s o} h := by
    obtain ⟨name, inner, args, hsplit, hargs, hshape, -⟩ := Operand.ofCallWith_eq_ok h
    obtain ⟨hname, heq⟩ := eq_of_splitCall? hsplit
    rw [mapM_arguments_eq_ok_iff] at hargs
    rw [heq, ← intercalate_splitArguments inner]
    refine .mk hname (forall_of_forall₂ hargs ?_) fun hred => ?_
    · rintro part arg ⟨-, h⟩
      have hin := harg.sound h
      rwa [String.toList_ofList] at hin
    · exact (checkReduction_of_forall₂ hnames hargs
        (forall_of_forall₂ hargs fun part arg h => hsize _ _ h.2)).1 (hshape hred)
  complete {cs} h hbytes := by
    obtain ⟨isName, arguments, shape⟩ := h
    rename_i name args
    have hle : ∀ arg ∈ args, bytes arg ≤ Lexed.maxLength := by
      intro arg hmem
      have hle := bytes_le_intercalate hmem
      rw [bytes_append, ← List.singleton_append, bytes_append, bytes_append] at hbytes
      omega
    have hparts : splitArguments ([','].intercalate args) = args :=
      splitArguments_intercalate fun arg hmem => hP arg (arguments arg hmem)
    have hcompile : ∃ os, List.Forall₂
        (fun part o => part ≠ [] ∧ argument (String.ofList part) = .ok o) args os := by
      clear hparts shape hbytes
      induction args with
      | nil => exact ⟨[], .nil⟩
      | cons arg args ih =>
        obtain ⟨hin, hins⟩ := List.forall_mem_cons.1 arguments
        obtain ⟨hb, hbs⟩ := List.forall_mem_cons.1 hle
        obtain ⟨o, ho⟩ := harg.complete hin hb
        obtain ⟨os, hos⟩ := ih hins hbs
        exact ⟨o :: os, .cons ⟨(hP arg hin).2, ho⟩ hos⟩
    obtain ⟨os, hos⟩ := hcompile
    unfold Operand.ofCallWith
    rw [String.toList_ofList, splitCall?_of_isName isName]
    dsimp only
    rw [hparts, mapM_arguments_eq_ok_iff.2 hos, ok_bind]
    split
    · next hred =>
      rw [(checkReduction_of_forall₂ hnames hos hle).2 (shape hred)]
      exact ⟨_, rfl⟩
    · exact ⟨_, rfl⟩

theorem ofCallWith_ne_var (s x : String) : Operand.ofCallWith argument s ≠ .ok (.var x) := by
  intro h
  obtain ⟨_, _, _, _, _, _, ho⟩ := Operand.ofCallWith_eq_ok h
  cases ho

end Calls

theorem size_le_of_compile {w depth : Nat} {s : String} {o : Operand}
    (h : Operand.compile w depth s = .ok o) : s.utf8ByteSize ≤ Lexed.maxLength := by
  rw [Operand.compile_eq] at h
  exact (exists_words_of_ofSourceWith h).1

/-- The compiler accepts expressions whose calls do not nest too deep. -/
theorem accepts_compile (w depth : Nat) :
    Accepts (Operand.compile w depth) (IsExpression depth) ∧
      FindsNames (Operand.compile w depth) := by
  induction depth with
  | zero =>
    have hcall : Accepts (fun _ => .error (.depth .nestedCalls)) (fun _ => False) :=
      ⟨nofun, fun h => h.elim⟩
    have hshape : ∀ cs : List Char, False → CallShaped cs := nofun
    exact ⟨accepts_ofSourceWith hcall hshape, findsNames_ofSourceWith hshape nofun⟩
  | succ depth ih =>
    have hP : ∀ cs, IsExpression depth cs → Balanced false cs ∧ cs ≠ [] := fun _ h =>
      ⟨h.balanced, h.ne_nil⟩
    have hshape : ∀ cs, IsCall (IsExpression depth) cs → CallShaped cs := fun _ h =>
      h.callShaped fun _ => IsExpression.balanced
    have hcall := accepts_ofCallWith ih.1 ih.2 (fun _ _ => size_le_of_compile) hP
    exact ⟨accepts_ofSourceWith hcall hshape, findsNames_ofSourceWith hshape ofCallWith_ne_var⟩

end Reckoner.Grammar
