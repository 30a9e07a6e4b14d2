import Reckoner.Proofs.Order.Chain
import Reckoner.Reducer

/-!
# Phrases

A phrase is a token sequence with its grouping: a sum of terms, a term of factors, a factor of
atoms, each read from the left.  A minus before an atom takes the whole rest of its term, so a
phrase that ends in such a minus is open: nothing can be joined to it within the term.

1. `Phrase.tokens` writes a phrase, and `Phrase.value` is its value by recursion.
2. Every chain over known symbols is written by a phrase (`exists_phrase`).  Chains are read from
   the left: one more operand goes to the open end of what has been read (`Extendable`).
-/

namespace Reckoner

variable {α β : Type}

/-- What a phrase is a part of. -/
inductive Rank where
  | sum
  | term
  | factor
  | atom
deriving DecidableEq

/-- Phrases of a rank; the flag tells whether the phrase ends in a minus and the rest of its
term. -/
inductive Phrase (α : Type) : Rank → Bool → Type where
  | operand (a : α) : Phrase α .atom false
  | group {b : Bool} (e : Phrase α .sum b) : Phrase α .atom false
  | plus {b : Bool} (a : Phrase α .atom b) : Phrase α .atom b
  | minus {b : Bool} (t : Phrase α .term b) : Phrase α .atom true
  | atom {b : Bool} (a : Phrase α .atom b) : Phrase α .factor b
  | power {b : Bool} (f : Phrase α .factor false) (a : Phrase α .atom b) : Phrase α .factor b
  | factor {b : Bool} (f : Phrase α .factor b) : Phrase α .term b
  | product {b : Bool} (t : Phrase α .term false) (op : Operator)
      (tight : op.isMultiplicative = true) (f : Phrase α .factor b) : Phrase α .term b
  | term {b : Bool} (t : Phrase α .term b) : Phrase α .sum b
  | sum {b b' : Bool} (e : Phrase α .sum b) (op : Operator)
      (loose : op.symbol = '-' ∨ op.symbol = '+') (t : Phrase α .term b') : Phrase α .sum b'

namespace Phrase

abbrev minusSign : Operator := ⟨'-'⟩

abbrev plusSign : Operator := ⟨'+'⟩

abbrev powerSign : Operator := ⟨'^'⟩

/-- The tokens of a phrase. -/
def tokens {r : Rank} {b : Bool} : Phrase α r b → List (Token α)
  | .operand a => [.operand a]
  | .group e => .grouper ⟨'('⟩ :: (e.tokens ++ [.grouper ⟨')'⟩])
  | .plus a => .operator plusSign :: a.tokens
  | .minus t => .operator minusSign :: t.tokens
  | .atom a => a.tokens
  | .power f a => f.tokens ++ .operator powerSign :: a.tokens
  | .factor f => f.tokens
  | .product t op _ f => t.tokens ++ .operator op :: f.tokens
  | .term t => t.tokens
  | .sum e op _ t => e.tokens ++ .operator op :: t.tokens

/-- Applies an operator to two values that may have failed, the left one first. -/
def applyTo (A : Algebra β) (op : Operator) (x y : Except Fault β) : Except Fault β := do
  let x ← x
  let y ← y
  A.apply op x y

/-- The value of a phrase: joined parts are taken together from the left, a plus sign does not
count, and a minus sign takes the rest of the term from zero. -/
def value (A : Algebra β) (leaf : α → β) {r : Rank} {b : Bool} : Phrase α r b → Except Fault β
  | .operand a => .ok (leaf a)
  | .group e => e.value A leaf
  | .plus a => a.value A leaf
  | .minus t => applyTo A minusSign (.ok A.zero) (t.value A leaf)
  | .atom a => a.value A leaf
  | .power f a => applyTo A powerSign (f.value A leaf) (a.value A leaf)
  | .factor f => f.value A leaf
  | .product t op _ f => applyTo A op (t.value A leaf) (f.value A leaf)
  | .term t => t.value A leaf
  | .sum e op _ t => applyTo A op (e.value A leaf) (t.value A leaf)

/-! ## Joining one more operand -/

/-- Whether an operator binds its operands within a term. -/
def IsTight (op : Operator) : Prop := op.isMultiplicative = true ∨ op = powerSign

theorem isTight_or_sign {op : Operator} (h : Fragment.isOperator op.symbol = true) :
    IsTight op ∨ op.symbol = '-' ∨ op.symbol = '+' := by
  obtain ⟨c⟩ := op
  simp only [Fragment.isOperator, Bool.or_eq_true, beq_iff_eq] at h
  simp only [IsTight, Operator.isMultiplicative, Bool.or_eq_true, beq_iff_eq, Operator.mk.injEq]
  tauto

/-- Whether a phrase can take one more operand within its term, and what it becomes. -/
def Extendable (op : Operator) (us : List (Token α)) :
    (r : Rank) → (b : Bool) → List (Token α) → Prop
  | .atom, false, _ => True
  | .atom, true, ts => ∃ a : Phrase α .atom true, a.tokens = ts ++ .operator op :: us
  | .factor, false, ts =>
    op = powerSign → ∃ (b : Bool) (f : Phrase α .factor b), f.tokens = ts ++ .operator op :: us
  | .factor, true, ts => ∃ f : Phrase α .factor true, f.tokens = ts ++ .operator op :: us
  | .term, _, ts => ∃ (b : Bool) (t : Phrase α .term b), t.tokens = ts ++ .operator op :: us
  | .sum, _, ts => ∃ (b : Bool) (e : Phrase α .sum b), e.tokens = ts ++ .operator op :: us

/-- One more operand can be joined to the open end of a phrase. -/
theorem extendable {op : Operator} (hop : IsTight op) {b' : Bool} (a' : Phrase α .atom b')
    {r : Rank} {b : Bool} (p : Phrase α r b) : Extendable op a'.tokens r b p.tokens := by
  induction p with
  | operand a => trivial
  | group e _ => trivial
  | @plus b a ih =>
    cases b with
    | false => trivial
    | true =>
      obtain ⟨a₁, h⟩ := ih
      exact ⟨.plus a₁, congrArg _ h⟩
  | minus t ih =>
    obtain ⟨b, t₁, h⟩ := ih
    exact ⟨.minus t₁, congrArg _ h⟩
  | @atom b a ih =>
    cases b with
    | false =>
      rintro rfl
      exact ⟨b', .power (.atom a) a', rfl⟩
    | true =>
      obtain ⟨a₁, h⟩ := ih
      exact ⟨.atom a₁, h⟩
  | @power b f a _ ih =>
    cases b with
    | false =>
      rintro rfl
      exact ⟨b', .power (.power f a) a', rfl⟩
    | true =>
      obtain ⟨a₁, h⟩ := ih
      exact ⟨.power f a₁, by simp [tokens, h]⟩
  | @factor b f ih =>
    cases b with
    | false =>
      rcases hop with hop | rfl
      · exact ⟨b', .product (.factor f) op hop (.atom a'), rfl⟩
      · obtain ⟨b₁, f₁, h⟩ := ih rfl
        exact ⟨b₁, .factor f₁, h⟩
    | true =>
      obtain ⟨f₁, h⟩ := ih
      exact ⟨true, .factor f₁, h⟩
  | @product b t op' tight f _ ih =>
    cases b with
    | false =>
      rcases hop with hop | rfl
      · exact ⟨b', .product (.product t op' tight f) op hop (.atom a'), rfl⟩
      · obtain ⟨b₁, f₁, h⟩ := ih rfl
        exact ⟨b₁, .product t op' tight f₁, by simp [tokens, h]⟩
    | true =>
      obtain ⟨f₁, h⟩ := ih
      exact ⟨true, .product t op' tight f₁, by simp [tokens, h]⟩
  | term t ih =>
    obtain ⟨b₁, t₁, h⟩ := ih
    exact ⟨b₁, .term t₁, h⟩
  | sum e op' loose t _ ih =>
    obtain ⟨b₁, t₁, h⟩ := ih
    exact ⟨b₁, .sum e op' loose t₁, by simp [tokens, h]⟩

/-- Any known operator joins one more operand to a sum. -/
theorem exists_join {op : Operator} (hop : Fragment.isOperator op.symbol = true) {b b' : Bool}
    (e : Phrase α .sum b) (a : Phrase α .atom b') :
    ∃ (b₁ : Bool) (e₁ : Phrase α .sum b₁), e₁.tokens = e.tokens ++ .operator op :: a.tokens := by
  rcases isTight_or_sign hop with h | h
  · exact extendable h a e
  · exact ⟨b', .sum e op h (.factor (.atom a)), rfl⟩

/-! ## Chains as phrases -/

/-- What a chain can be read as: an atom, or a sum, also one that continues another. -/
def Readable (ts : List (Token α)) : Token.Reading → Prop
  | .signed => ∃ (b : Bool) (a : Phrase α .atom b), a.tokens = ts
  | .joined => (∃ (b : Bool) (e : Phrase α .sum b), e.tokens = ts) ∧
    ∀ (op : Operator), Fragment.isOperator op.symbol = true → ∀ {b : Bool} (e : Phrase α .sum b),
      ∃ (b₁ : Bool) (e₁ : Phrase α .sum b₁), e₁.tokens = e.tokens ++ .operator op :: ts

theorem readable {rd : Token.Reading} {ts : List (Token α)} (h : Token.Chain rd ts)
    (hknown : ∀ t ∈ ts, t.IsKnown) : Readable ts rd := by
  induction h with
  | operand a => exact ⟨false, .operand a, rfl⟩
  | @group g k ts opens closes _ ih =>
    obtain ⟨⟨b, e, rfl⟩, _⟩ := ih (fun t ht => hknown t (by simp [ht]))
    have hk : Fragment.isGrouper k.symbol = true := hknown (.grouper k) (by simp)
    rw [Grouper.eq_opening opens, Grouper.eq_closing hk closes]
    exact ⟨false, .group e, rfl⟩
  | @sign op ts isSign _ ih =>
    obtain ⟨b, a, rfl⟩ := ih (fun t ht => hknown t (by simp [ht]))
    obtain ⟨c⟩ := op
    rcases isSign with hc | hc <;> simp only at hc <;> subst hc
    · exact ⟨true, .minus (.factor (.atom a)), rfl⟩
    · exact ⟨b, .plus a, rfl⟩
  | last _ ih =>
    obtain ⟨b, a, rfl⟩ := ih hknown
    exact ⟨⟨b, .term (.factor (.atom a)), rfl⟩, fun op hop b e => exists_join hop e a⟩
  | @join ts us _ op _ ihl ihr =>
    obtain ⟨b, a, rfl⟩ := ihl (fun t ht => hknown t (by simp [ht]))
    obtain ⟨_, hjoin⟩ := ihr (fun t ht => hknown t (by simp [ht]))
    have hop : Fragment.isOperator op.symbol = true := hknown (.operator op) (by simp)
    refine ⟨hjoin op hop (.term (.factor (.atom a))), fun op' hop' b' e => ?_⟩
    -- the first operand goes to what stands before the chain, the others follow it
    obtain ⟨b₁, e₁, h₁⟩ := exists_join hop' e a
    obtain ⟨b₂, e₂, h₂⟩ := hjoin op hop e₁
    exact ⟨b₂, e₂, by rw [h₂, h₁, List.append_assoc, List.cons_append]⟩

/-- **Grouping.** Every chain over known symbols is written by a phrase. -/
theorem exists_phrase {ts : List (Token α)} (h : Token.Chain .joined ts)
    (hknown : ∀ t ∈ ts, t.IsKnown) : ∃ (b : Bool) (e : Phrase α .sum b), e.tokens = ts :=
  (readable h hknown).1

end Phrase

end Reckoner
