import Reckoner.Proofs.Grammar.Compile
import Reckoner.Proofs.Reduction.Run

/-!
# Sums of terms

A term is a numeral or a variable that has a value in a context.  A source that spells a signed
term, or a sum or difference of two, is compiled, and its value is that of the sum
(`Grammar.Term.run_signed`, `Grammar.Term.run_sum`).
-/

namespace Reckoner

open Evaluation

/-- The value of a numeral or variable in a context. -/
def Operand.valueIn (c : Context) : Operand → Number
  | .numeral value _ => value
  | .var name => (c.valueOf? name).getD 0
  | _ => 0

namespace Grammar

variable {c : Context}

/-- Tokens in order, over words that are no calls and are compiled to operands with values. -/
structure Settled (c : Context) (r : Token.Reading) (ws : List (Token Word))
    (ts : List (Token Operand)) : Prop where
  chain : Token.Chain r ws
  isIn : WordsIn (fun _ => False) ws
  compiles : ∀ call, List.Forall₂ (Compiles c.bits call) ws ts
  values : ∀ call, HaveValues call c (Operand.valueIn c) ts

namespace Settled

variable {ws vs : List (Token Word)} {ts us : List (Token Operand)}

theorem last (h : Settled c .signed ws ts) : Settled c .joined ws ts :=
  ⟨.last h.chain, h.isIn, h.compiles, h.values⟩

theorem minus (h : Settled c .signed ws ts) :
    Settled c .signed (.operator ⟨'-'⟩ :: ws) (.operator ⟨'-'⟩ :: ts) where
  chain := .sign (.inl rfl) h.chain
  isIn := wordsIn_append.2 ⟨wordsIn_operator rfl, h.isIn⟩
  compiles call := .cons (.operator _) (h.compiles call)
  values call o ho := h.values call o (by simpa using ho)

theorem join (h : Settled c .signed ws ts) {op : Operator}
    (hop : Fragment.isOperator op.symbol = true) (h' : Settled c .joined vs us) :
    Settled c .joined (ws ++ .operator op :: vs) (ts ++ .operator op :: us) where
  chain := .join h.chain op h'.chain
  isIn := wordsIn_append.2 ⟨h.isIn, wordsIn_append.2 ⟨wordsIn_operator hop, h'.isIn⟩⟩
  compiles call := List.rel_append (h.compiles call) (.cons (.operator op) (h'.compiles call))
  values call o ho := by
    have ho' : .operand o ∈ ts ∨ .operand o ∈ us := by simpa using ho
    rcases ho' with ho' | ho'
    · exact h.values call o ho'
    · exact h'.values call o ho'

/-- What settled tokens spell is compiled, and evaluates to what the tokens are reduced to. -/
theorem run (h : Settled c .joined ws ts) (depth : Nat)
    (hbytes : bytes (spell ws) ≤ Lexed.maxLength) :
    ∃ o, Operand.compile c.bits depth (String.ofList (spell ws)) = .ok o ∧
      o.evaluate.run c =
        (Reducer.reduceAll (algebra c.numerics) (Operand.valueIn c) Operand.text ts, c) := by
  obtain ⟨o, ho, htokens⟩ := ofSourceWith_of_words (fun _ hcall => hcall.elim)
    (h.compiles (Operand.ofCall c.bits depth)) h.isIn h.chain hbytes
  rw [← Operand.compile_eq] at ho
  refine ⟨o, ho, ?_⟩
  rcases htokens with rfl | ⟨-, rfl⟩
  · have hvalue : (evalAt c.levels o).run c = (.ok (o.valueIn c), c) := by
      cases c.levels with
      | zero => exact h.values _ o (by simp)
      | succ n => exact h.values _ o (by simp)
    unfold Operand.evaluate
    rw [Action.run_context_bind, hvalue]
    rfl
  · exact run_evaluate_values h.values

end Settled

/-! ## Terms -/

/-- A word with the operand that it is compiled to and its value in a context. -/
structure Term (c : Context) (word : Word) (o : Operand) (value : Number) : Prop where
  settled : Settled c .signed [.operand word] [.operand o]
  value : o.valueIn c = value

theorem term_numeral {cs : List Char} {value : Number} (h : Numeral.IsNumeral cs)
    (hvalue : Number.ofNumeral? c.bits (String.ofList cs) = some value) :
    Term c (.numeral cs) (.numeral value (String.ofList cs)) value := by
  refine ⟨⟨.operand _, wordsIn_operand h, fun call => .cons (.operand ?_) .nil, ?_⟩, rfl⟩
  · have htest : Numeral.isNumeral (String.ofList cs).toList = true := by
      rw [String.toList_ofList]
      exact (Numeral.isNumeral_iff cs).2 h
    rw [Word.compile, Operand.ofNumeral, Operand.numeralValue, if_pos htest, Number.ofNumeral,
      hvalue]
    rfl
  · intro call o ho
    cases List.mem_singleton.1 ho
    rw [evalOperand]
    rfl

theorem term_name {cs : List Char} {value : Number} (h : Text.isName cs = true)
    (hvalue : c.valueOf? (String.ofList cs) = some value) :
    Term c (.name cs) (.var (String.ofList cs)) value := by
  refine ⟨⟨.operand _, wordsIn_operand h, fun call => .cons (.operand ?_) .nil, ?_⟩, ?_⟩
  · have hname : Text.isName (String.ofList cs).toList = true := by rwa [String.toList_ofList]
    exact if_pos hname
  · intro call o ho
    cases List.mem_singleton.1 ho
    rw [evalOperand, evalVariable, Action.run_context_bind, Operand.valueIn, hvalue]
    rfl
  · rw [Operand.valueIn, hvalue]
    rfl

def signChars (negative : Bool) : List Char := if negative then ['-'] else []

def joiner (negative : Bool) : Operator := if negative then ⟨'-'⟩ else ⟨'+'⟩

namespace Term

variable {word word' : Word} {o o' : Operand} {value value' : Number}

/-- The tokens of a signed word or operand. -/
def signed {α : Type} (negative : Bool) (a : α) : List (Token α) :=
  if negative then [.operator ⟨'-'⟩, .operand a] else [.operand a]

theorem settled_signed (h : Term c word o value) (negative : Bool) :
    Settled c .signed (signed negative word) (signed negative o) := by
  cases negative with
  | false => exact h.settled
  | true => exact h.settled.minus

theorem spell_signed (negative : Bool) (word : Word) :
    spell (signed negative word) = signChars negative ++ word.chars := by
  cases negative <;> simp [signed, signChars, tokenChars]

def signedValue (w : Nat) (negative : Bool) (value : Number) : Number :=
  if negative then Number.sub w 0 value else value

def sumValue (w : Nat) (left : Number) (negative : Bool) (right : Number) : Number :=
  if negative then Number.sub w left right else Number.add w left right

theorem run_signed (h : Term c word o value) (negative : Bool) (depth : Nat)
    (hbytes : bytes (signChars negative ++ word.chars) ≤ Lexed.maxLength) :
    ∃ e, Operand.compile c.bits depth (String.ofList (signChars negative ++ word.chars)) = .ok e ∧
      e.evaluate.run c = (.ok (signedValue c.bits negative value), c) := by
  rw [← spell_signed] at hbytes ⊢
  obtain ⟨e, he, hrun⟩ := (h.settled_signed negative).last.run depth hbytes
  refine ⟨e, he, ?_⟩
  rw [hrun, ← h.value]
  cases negative <;> rfl

theorem run_sum (h : Term c word o value) (h' : Term c word' o' value') (negative negative' : Bool)
    (depth : Nat)
    (hbytes : bytes (signChars negative ++ word.chars ++ (joiner negative').symbol :: word'.chars) ≤
      Lexed.maxLength) :
    ∃ e, Operand.compile c.bits depth (String.ofList
        (signChars negative ++ word.chars ++ (joiner negative').symbol :: word'.chars)) = .ok e ∧
      e.evaluate.run c =
        (.ok (sumValue c.bits (signedValue c.bits negative value) negative' value'), c) := by
  have hspell : spell (signed negative word ++ .operator (joiner negative') :: [.operand word']) =
      signChars negative ++ word.chars ++ (joiner negative').symbol :: word'.chars := by
    rw [spell_append, spell_signed]
    simp [tokenChars]
  have hop : Fragment.isOperator (joiner negative').symbol = true := by
    cases negative' <;> rfl
  rw [← hspell] at hbytes ⊢
  obtain ⟨e, he, hrun⟩ := ((h.settled_signed negative).join hop h'.settled.last).run depth hbytes
  refine ⟨e, he, ?_⟩
  rw [hrun, ← h.value, ← h'.value]
  -- a sign before the first term is applied before the one between the terms
  cases negative <;> cases negative' <;> rfl

end Term

end Grammar

end Reckoner
