import Reckoner.Proofs.Grammar.Expression
import Reckoner.Proofs.Order.Chain

/-!
# Expressions as sequences of words

A word is a numeral, a name or a call.  An expression is a well ordered sequence of tokens over
words: what is derived is spelled by such a sequence (`Derives.exists_chain`), and what such a
sequence spells is derived (`derives_of_chain`).
-/

namespace Reckoner

namespace Grammar

/-- A primary that is not a group. -/
inductive Word where
  | numeral (chars : List Char)
  | name (chars : List Char)
  | call (chars : List Char)
deriving DecidableEq

def Word.chars : Word → List Char
  | .numeral cs | .name cs | .call cs => cs

def Word.IsIn (call : List Char → Prop) : Word → Prop
  | .numeral cs => Numeral.IsNumeral cs
  | .name cs => Text.isName cs = true
  | .call cs => call cs

def tokenChars : Token Word → List Char
  | .operand w => w.chars
  | .operator op => [op.symbol]
  | .grouper g => [g.symbol]

def spell (ts : List (Token Word)) : List Char := ts.flatMap tokenChars

@[simp] theorem spell_nil : spell [] = [] := rfl

@[simp] theorem spell_cons (t : Token Word) (ts : List (Token Word)) :
    spell (t :: ts) = tokenChars t ++ spell ts := rfl

theorem spell_append (ts us : List (Token Word)) : spell (ts ++ us) = spell ts ++ spell us :=
  List.flatMap_append

/-- Tokens that mean something, over words that are in a set of calls if they are calls. -/
def WordsIn (call : List Char → Prop) (ts : List (Token Word)) : Prop :=
  ∀ t ∈ ts, t.IsKnown ∧ ∀ w, t = .operand w → w.IsIn call

section WordsIn

variable {call : List Char → Prop} {t : Token Word} {ts us : List (Token Word)}

theorem wordsIn_cons :
    WordsIn call (t :: ts) ↔ (t.IsKnown ∧ ∀ w, t = .operand w → w.IsIn call) ∧ WordsIn call ts :=
  List.forall_mem_cons

theorem wordsIn_append : WordsIn call (ts ++ us) ↔ WordsIn call ts ∧ WordsIn call us :=
  List.forall_mem_append

theorem wordsIn_operand {w : Word} (h : w.IsIn call) : WordsIn call [.operand w] := by
  rw [wordsIn_cons]
  refine ⟨⟨trivial, ?_⟩, fun _ h => by cases h⟩
  intro w' hw'
  cases hw'
  exact h

theorem wordsIn_operator {op : Operator} (h : Fragment.isOperator op.symbol = true) :
    WordsIn call [.operator op] := by
  rw [wordsIn_cons]
  exact ⟨⟨h, fun w hw => by cases hw⟩, fun _ h => by cases h⟩

theorem wordsIn_grouper {g : Grouper} (h : Fragment.isGrouper g.symbol = true) :
    WordsIn call [.grouper g] := by
  rw [wordsIn_cons]
  exact ⟨⟨h, fun w hw => by cases hw⟩, fun _ h => by cases h⟩

end WordsIn

/-! ## Derivations and chains -/

/-- What a chain of tokens spells. -/
def Category.ofReading : Token.Reading → Category
  | .signed => .signed
  | .joined => .expression

/-- What a derived text reads as. -/
def Category.reading : Category → Token.Reading
  | .primary => .signed
  | .signed => .signed
  | .expression => .joined

theorem Word.IsIn.derives {call : List Char → Prop} {w : Word} (h : w.IsIn call) :
    Derives call .primary w.chars := by
  cases w with
  | numeral cs => exact .numeral h
  | name cs => exact .name h
  | call cs => exact .call h

theorem derives_of_chain {call : List Char → Prop} {r : Token.Reading} {ts : List (Token Word)}
    (h : Token.Chain r ts) (hin : WordsIn call ts) :
    Derives call (.ofReading r) (spell ts) := by
  induction h with
  | operand w =>
    rw [spell_cons, spell_nil, List.append_nil]
    exact .plain ((hin _ (by simp)).2 w rfl).derives
  | @group g k ts opens closes _ ih =>
    rw [wordsIn_cons, wordsIn_append, wordsIn_cons] at hin
    obtain ⟨_, hts, hk, _⟩ := hin
    obtain rfl := Grouper.eq_opening opens
    obtain rfl := Grouper.eq_closing hk.1 closes
    rw [spell_cons, spell_append, spell_cons, spell_nil]
    exact .plain (.group (ih hts))
  | sign isSign _ ih =>
    rw [wordsIn_cons] at hin
    exact .sign isSign (ih hin.2)
  | last _ ih => exact .single (ih hin)
  | join _ op _ ihleft ihright =>
    rw [wordsIn_append, wordsIn_cons] at hin
    obtain ⟨hleft, hop, hright⟩ := hin
    rw [spell_append, spell_cons]
    exact .join (ihleft hleft) hop.1 (ihright hright)

theorem Derives.exists_chain {call : List Char → Prop} {k : Category} {cs : List Char}
    (h : Derives call k cs) :
    ∃ ts, Token.Chain k.reading ts ∧ WordsIn call ts ∧ spell ts = cs := by
  have hword : ∀ w : Word, w.IsIn call →
      ∃ ts, Token.Chain .signed ts ∧ WordsIn call ts ∧ spell ts = w.chars := fun w hw =>
    ⟨[.operand w], .operand w, wordsIn_operand hw, List.append_nil _⟩
  induction h with
  | @numeral cs h => exact hword (.numeral cs) h
  | @name cs h => exact hword (.name cs) h
  | @call cs h => exact hword (.call cs) h
  | group _ ih =>
    obtain ⟨ts, hchain, hin, rfl⟩ := ih
    have hgroup : Token.Chain .signed (.grouper ⟨'('⟩ :: (ts ++ [.grouper ⟨')'⟩])) :=
      .group rfl rfl hchain
    refine ⟨_, hgroup, ?_, ?_⟩
    · exact wordsIn_append.2 ⟨wordsIn_grouper rfl, wordsIn_append.2 ⟨hin, wordsIn_grouper rfl⟩⟩
    · rw [spell_cons, spell_append]
      rfl
  | plain _ ih => exact ih
  | @sign c cs isSign _ ih =>
    obtain ⟨ts, hchain, hin, rfl⟩ := ih
    refine ⟨.operator ⟨c⟩ :: ts, .sign isSign hchain, ?_, rfl⟩
    refine wordsIn_append.2 ⟨wordsIn_operator ?_, hin⟩
    rcases isSign with rfl | rfl <;> rfl
  | single _ ih =>
    obtain ⟨ts, hchain, hin, rfl⟩ := ih
    exact ⟨ts, .last hchain, hin, rfl⟩
  | @join c cs ds _ isOperator _ ihleft ihright =>
    obtain ⟨ts, hts, hin, rfl⟩ := ihleft
    obtain ⟨us, hus, hin', rfl⟩ := ihright
    refine ⟨ts ++ .operator ⟨c⟩ :: us, .join hts _ hus, ?_, ?_⟩
    · exact wordsIn_append.2 ⟨hin, wordsIn_append.2 ⟨wordsIn_operator isOperator, hin'⟩⟩
    · rw [spell_append]
      rfl

end Grammar

end Reckoner
