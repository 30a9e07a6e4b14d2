import Reckoner.Proofs.Order.Phrase
import Reckoner.Proofs.Reduction.Settle

/-!
# Reduction gives the value of a phrase

`evaluate_expression_eq_value`: an expression over numerals whose tokens are well ordered is written
by a phrase, and evaluating it gives the value of the phrase.

1. Taking the tokens of a phrase and then settling is taking its value and then settling
   (`takeAll_phrase`).  A closed phrase can be settled down to its own tightness; an open one
   leaves its minus waiting, so it has to be settled down to the end of the term.
2. A phrase has no value exactly when one of the applications of its value fails
   (`value_fails_iff`).
-/

namespace Reckoner

variable {α β : Type}

/-- The tightness down to which phrases of a rank hold together. -/
def Rank.tightness : Rank → Nat
  | .sum => 0
  | .term => 1
  | .factor => 2
  | .atom => 3

theorem Operator.tightness_of_sign {op : Operator} (h : op.symbol = '-' ∨ op.symbol = '+') :
    op.tightness = 0 := by
  rcases h with h | h <;> simp [tightness, isMultiplicative, h]

theorem Operator.tightness_of_multiplicative {op : Operator} (h : op.isMultiplicative = true) :
    op.tightness = 1 := by
  have hne : op.symbol ≠ '^' := by
    intro hs
    simp [isMultiplicative, hs] at h
  simp [tightness, h, hne]

namespace Reducer

variable {A : Algebra β} {leaf : α → β} {text : α → String}

theorem stops_atom (pending : List Pending) : Stops Rank.atom.tightness pending :=
  fun op _ _ => Nat.lt_succ_of_le op.tightness_le_two

/-! ## Phrases -/

theorem expecting_of_push_operand {r r' : Reducer β} {a : α}
    (h : r.push A leaf text (.operand a) = .ok r') : r'.expecting = false := by
  rw [push] at h
  split at h
  · cases h
    rfl
  · cases h

theorem expecting_of_takeAll {r : Rank} {b : Bool} (p : Phrase α r b) {s s' : Reducer β}
    (h : takeAll A leaf text p.tokens s = .ok s') : s'.expecting = false := by
  induction p generalizing s with
  | operand a =>
    obtain ⟨s₁, h₁, h₂⟩ := bind_eq_ok_iff.1 h
    cases h₂
    exact expecting_of_push_operand h₁
  | group e _ =>
    rw [Phrase.tokens, ← List.cons_append, takeAll_append] at h
    obtain ⟨s₁, _, h₂⟩ := bind_eq_ok_iff.1 h
    obtain ⟨s₂, h₂, h₃⟩ := bind_eq_ok_iff.1 h₂
    cases h₃
    rw [push, pushGrouper, if_neg (by decide)] at h₂
    split at h₂
    · cases h₂
    · next hs =>
      obtain ⟨s₃, _, h₃⟩ := bind_eq_ok_iff.1 h₂
      cases h₃
      simpa using hs
  | plus a ih =>
    obtain ⟨s₁, _, h₂⟩ := bind_eq_ok_iff.1 h
    exact ih h₂
  | minus t ih =>
    obtain ⟨s₁, _, h₂⟩ := bind_eq_ok_iff.1 h
    exact ih h₂
  | atom a ih => exact ih h
  | power f a _ ih =>
    rw [Phrase.tokens, takeAll_append] at h
    obtain ⟨s₁, _, h₂⟩ := bind_eq_ok_iff.1 h
    obtain ⟨s₂, _, h₃⟩ := bind_eq_ok_iff.1 h₂
    exact ih h₃
  | factor f ih => exact ih h
  | product t op tight f _ ih =>
    rw [Phrase.tokens, takeAll_append] at h
    obtain ⟨s₁, _, h₂⟩ := bind_eq_ok_iff.1 h
    obtain ⟨s₂, _, h₃⟩ := bind_eq_ok_iff.1 h₂
    exact ih h₃
  | term t ih => exact ih h
  | sum e op loose t _ ih =>
    rw [Phrase.tokens, takeAll_append] at h
    obtain ⟨s₁, _, h₂⟩ := bind_eq_ok_iff.1 h
    obtain ⟨s₂, _, h₃⟩ := bind_eq_ok_iff.1 h₂
    exact ih h₃

/-- Taking the tokens of a phrase and settling is taking its value and settling. -/
def Settles (A : Algebra β) (leaf : α → β) (text : α → String) {r : Rank} {b : Bool}
    (p : Phrase α r b) (k : Nat) (pending : List Pending) : Prop :=
  ∀ values : List β,
    (takeAll A leaf text p.tokens ⟨values, pending, true⟩ >>= fun s =>
      settle A k s.pending s.values) =
    p.value A leaf >>= fun v => settle A k pending (v :: values)

/-- An operator settles the phrase before it and waits for the one after it. -/
theorem takeAll_joined {r r' : Rank} {b b' : Bool} {p : Phrase α r b} {q : Phrase α r' b'}
    {op : Operator} {k : Nat} {pending : List Pending} (hs : Stops op.tightness pending)
    (hk : k ≤ op.tightness) (hp : Settles A leaf text p op.tightness pending)
    (hq : Settles A leaf text q k (.operator op :: pending)) (values : List β) :
    (takeAll A leaf text (p.tokens ++ .operator op :: q.tokens) ⟨values, pending, true⟩ >>= fun s =>
      settle A k s.pending s.values) =
    Phrase.applyTo A op (p.value A leaf) (q.value A leaf) >>= fun v =>
      settle A k pending (v :: values) := by
  have hwait : (takeAll A leaf text p.tokens ⟨values, pending, true⟩ >>=
      takeAll A leaf text (.operator op :: q.tokens)) =
      p.value A leaf >>= fun v => takeAll A leaf text q.tokens
        ⟨v :: values, .operator op :: pending, true⟩ := by
    calc _ = (takeAll A leaf text p.tokens ⟨values, pending, true⟩ >>= fun s =>
          settle A op.tightness s.pending s.values) >>= fun s =>
          takeAll A leaf text q.tokens ⟨s.2, .operator op :: s.1, true⟩ := by
          rw [bind_assoc]
          refine bind_congr_ok fun s hs => ?_
          rw [takeAll_cons, push_operator_of_not_expecting (expecting_of_takeAll p hs), bind_assoc]
          rfl
      _ = _ := by
          rw [hp values, bind_assoc]
          refine bind_congr fun v => ?_
          rw [settle_of_stops hs, ok_bind]
  rw [takeAll_append, hwait, bind_assoc]
  unfold Phrase.applyTo
  rw [bind_assoc]
  refine bind_congr fun v => ?_
  rw [hq (v :: values), bind_assoc]
  exact bind_congr fun w => settle_operator hk pending v w values

/-- **Phrases.** Taking the tokens of a phrase and settling is taking its value and settling. -/
theorem takeAll_phrase {r : Rank} {b : Bool} (p : Phrase α r b) {k : Nat}
    (hk : k ≤ r.tightness) (hb : b = true → k = 0) {pending : List Pending}
    (hs : Stops r.tightness pending) : Settles A leaf text p k pending := by
  induction p generalizing k pending with
  | operand a => intro values; rfl
  | group e ih =>
    intro values
    have he := ih (Nat.zero_le _) (fun _ => rfl) (stops_grouper 0 ⟨'('⟩ pending) values
    have hopen : takeAll A leaf text (.grouper ⟨'('⟩ :: (e.tokens ++ [.grouper ⟨')'⟩]))
        ⟨values, pending, true⟩ =
          e.value A leaf >>= fun v => .ok ⟨v :: values, pending, false⟩ := by
      calc _ = takeAll A leaf text (e.tokens ++ [.grouper ⟨')'⟩])
            ⟨values, .grouper ⟨'('⟩ :: pending, true⟩ := rfl
        _ = (takeAll A leaf text e.tokens ⟨values, .grouper ⟨'('⟩ :: pending, true⟩ >>= fun s =>
            settle A 0 s.pending s.values) >>= fun s =>
            closeTop ⟨')'⟩ s >>= fun s => .ok ⟨s.2, s.1, false⟩ := by
            rw [takeAll_append, bind_assoc]
            refine bind_congr_ok fun s hs => ?_
            rw [takeAll_cons, push_closing_of_not_expecting (expecting_of_takeAll e hs), bind_assoc]
            refine bind_congr fun s => ?_
            rw [bind_assoc]
            rfl
        _ = _ := by
            rw [he, bind_assoc]
            rfl
    rw [Phrase.tokens, hopen, bind_assoc]
    rfl
  | plus a ih => exact fun values => ih hk hb hs values
  | minus t ih =>
    intro values
    obtain rfl := hb rfl
    have ht := ih (Nat.zero_le _) (fun _ => rfl)
      (stops_operator (by decide : Phrase.minusSign.tightness < 1) pending) (A.zero :: values)
    calc _ = (takeAll A leaf text t.tokens
          ⟨A.zero :: values, .operator Phrase.minusSign :: pending, true⟩ >>= fun s =>
          settle A 0 s.pending s.values) := rfl
      _ = t.value A leaf >>= fun v => A.apply Phrase.minusSign A.zero v >>= fun z =>
          settle A 0 pending (z :: values) := by
          rw [ht]
          exact bind_congr fun v => settle_operator (Nat.zero_le _) pending A.zero v values
      _ = _ := by rw [Phrase.value, Phrase.applyTo, ok_bind, bind_assoc]
  | atom a ih => exact ih (Nat.le_succ_of_le hk) hb (stops_atom pending)
  | power f a ihf iha =>
    exact takeAll_joined hs hk (ihf (Nat.le_refl _) (fun h => by cases h) hs)
      (iha (Nat.le_succ_of_le hk) hb (stops_atom _))
  | factor f ih => exact ih (Nat.le_succ_of_le hk) hb hs.succ
  | product t op tight f iht ihf =>
    have hop := Operator.tightness_of_multiplicative tight
    have hs' : Stops op.tightness pending := by rw [hop]; exact hs
    refine takeAll_joined hs' (by rw [hop]; exact hk) ?_ ?_
    · exact iht (by rw [hop]; exact Nat.le_refl _) (fun h => by cases h) hs
    · exact ihf (Nat.le_succ_of_le hk) hb (stops_operator (by rw [hop]; decide) pending)
  | term t ih => exact ih (Nat.le_succ_of_le hk) hb hs.succ
  | sum e op loose t ihe iht =>
    have hop := Operator.tightness_of_sign loose
    obtain rfl : k = 0 := Nat.le_zero.1 hk
    have hs' : Stops op.tightness pending := by rw [hop]; exact hs
    refine takeAll_joined hs' (Nat.zero_le _) ?_ ?_
    · exact ihe (by rw [hop]; exact Nat.zero_le _) (fun _ => hop) hs
    · exact iht (Nat.zero_le _) (fun _ => rfl) (stops_operator (by rw [hop]; decide) pending)

/-- Reducing the tokens of a phrase gives its value. -/
theorem reduceAll_phrase {b : Bool} (e : Phrase α .sum b) :
    reduceAll A leaf text e.tokens = e.value A leaf := by
  have he : Settles A leaf text e 0 [] :=
    takeAll_phrase e (Nat.le_refl _) (fun _ => rfl) (stops_nil 0)
  calc reduceAll A leaf text e.tokens
      = (takeAll A leaf text e.tokens ⟨[], [], true⟩ >>= fun s =>
          settle A 0 s.pending s.values) >>= fun s => drainTop s >>= onlyValue := by
        rw [bind_assoc]
        exact bind_congr fun s => finish_eq_settle s
    _ = e.value A leaf >>= .ok := by
        rw [he [], bind_assoc]
        rfl
    _ = e.value A leaf := bind_pure _

end Reducer

/-! ## Applications that fail -/

namespace Phrase

variable (A : Algebra β) (leaf : α → β)

/-- Whether the value of a phrase takes an operator to be applied to `x` and `y`. -/
def Applies (op : Operator) (x y : β) {r : Rank} {b : Bool} : Phrase α r b → Prop
  | .operand _ => False
  | .group e => e.Applies op x y
  | .plus a => a.Applies op x y
  | .minus t => t.Applies op x y ∨ (op = minusSign ∧ x = A.zero ∧ t.value A leaf = .ok y)
  | .atom a => a.Applies op x y
  | .power f a => f.Applies op x y ∨ a.Applies op x y ∨
      (op = powerSign ∧ f.value A leaf = .ok x ∧ a.value A leaf = .ok y)
  | .factor f => f.Applies op x y
  | .product t op' _ f => t.Applies op x y ∨ f.Applies op x y ∨
      (op = op' ∧ t.value A leaf = .ok x ∧ f.value A leaf = .ok y)
  | .term t => t.Applies op x y
  | .sum e op' _ t => e.Applies op x y ∨ t.Applies op x y ∨
      (op = op' ∧ e.value A leaf = .ok x ∧ t.value A leaf = .ok y)

def Fails (x : Except Fault β) : Prop := ∃ fault, x = .error fault

/-- Whether some application of the value of a phrase fails. -/
def HasFailure {r : Rank} {b : Bool} (p : Phrase α r b) : Prop :=
  ∃ op x y, p.Applies A leaf op x y ∧ Fails (A.apply op x y)

variable {A leaf}

theorem fails_applyTo_iff (op : Operator) (x y : Except Fault β) :
    Fails (applyTo A op x y) ↔
      Fails x ∨ Fails y ∨ ∃ u v, x = .ok u ∧ y = .ok v ∧ Fails (A.apply op u v) := by
  unfold applyTo Fails
  cases x with
  | error fault => simp
  | ok u =>
    cases y with
    | error fault => simp
    | ok v => simp

theorem fails_joined_iff {r r' : Rank} {b b' : Bool} {p : Phrase α r b} {q : Phrase α r' b'}
    (op : Operator) (hp : Fails (p.value A leaf) ↔ p.HasFailure A leaf)
    (hq : Fails (q.value A leaf) ↔ q.HasFailure A leaf) :
    Fails (applyTo A op (p.value A leaf) (q.value A leaf)) ↔
      ∃ op' x y, (p.Applies A leaf op' x y ∨ q.Applies A leaf op' x y ∨
        (op' = op ∧ p.value A leaf = .ok x ∧ q.value A leaf = .ok y)) ∧
          Fails (A.apply op' x y) := by
  rw [fails_applyTo_iff, hp, hq]
  constructor
  · rintro (⟨op', x, y, h, hf⟩ | ⟨op', x, y, h, hf⟩ | ⟨x, y, hx, hy, hf⟩)
    · exact ⟨op', x, y, .inl h, hf⟩
    · exact ⟨op', x, y, .inr (.inl h), hf⟩
    · exact ⟨op, x, y, .inr (.inr ⟨rfl, hx, hy⟩), hf⟩
  · rintro ⟨op', x, y, h | h | ⟨rfl, hx, hy⟩, hf⟩
    · exact .inl ⟨op', x, y, h, hf⟩
    · exact .inr (.inl ⟨op', x, y, h, hf⟩)
    · exact .inr (.inr ⟨x, y, hx, hy, hf⟩)

/-- A phrase has no value exactly when one of its applications fails. -/
theorem value_fails_iff {r : Rank} {b : Bool} (p : Phrase α r b) :
    Fails (p.value A leaf) ↔ p.HasFailure A leaf := by
  induction p with
  | operand a => simp [value, Fails, HasFailure, Applies]
  | group e ih => exact ih
  | plus a ih => exact ih
  | minus t ih =>
    rw [value, fails_applyTo_iff, ih]
    constructor
    · rintro (⟨_, h⟩ | ⟨op, x, y, h, hf⟩ | ⟨x, y, hx, hy, hf⟩)
      · cases h
      · exact ⟨op, x, y, .inl h, hf⟩
      · cases hx
        exact ⟨minusSign, A.zero, y, .inr ⟨rfl, rfl, hy⟩, hf⟩
    · rintro ⟨op, x, y, h | ⟨rfl, rfl, hy⟩, hf⟩
      · exact .inr (.inl ⟨op, x, y, h, hf⟩)
      · exact .inr (.inr ⟨A.zero, y, rfl, hy, hf⟩)
  | atom a ih => exact ih
  | power f a ihf iha => exact fails_joined_iff powerSign ihf iha
  | factor f ih => exact ih
  | product t op tight f iht ihf => exact fails_joined_iff op iht ihf
  | term t ih => exact ih
  | sum e op loose t ihe iht => exact fails_joined_iff op ihe iht

end Phrase

/-! ## Expressions over numerals -/

/-- **Value.** Well ordered tokens over numerals are those of a phrase, and evaluating them gives
the value of the phrase; it fails exactly when one of the applications of the value fails. -/
theorem evaluate_expression_eq_value {ts : List (Token Operand)}
    (hliteral : ∀ o, .operand o ∈ ts → o.IsLiteral) (hknown : ∀ t ∈ ts, t.IsKnown)
    (horder : Token.checkOrder Operand.text ts = .ok ()) :
    (∃ (b : Bool) (e : Phrase Operand .sum b), e.tokens = ts) ∧
      ∀ {b : Bool} (e : Phrase Operand .sum b), e.tokens = ts → ∀ c : Context,
        (Operand.expression ts).evaluate.run c =
            (e.value (Evaluation.algebra c.numerics) Operand.literal, c) ∧
          (Phrase.Fails ((Operand.expression ts).evaluate.run c).1 ↔
            e.HasFailure (Evaluation.algebra c.numerics) Operand.literal) := by
  refine ⟨Phrase.exists_phrase ((Token.checkOrder_eq_ok_iff _ ts).1 horder) hknown, ?_⟩
  rintro b e rfl c
  have hrun : (Operand.expression e.tokens).evaluate.run c =
      (e.value (Evaluation.algebra c.numerics) Operand.literal, c) := by
    rw [Evaluation.run_evaluate_literals c hliteral, Reducer.reduceAll_phrase]
  rw [hrun]
  exact ⟨rfl, Phrase.value_fails_iff e⟩

/-- Eight divided by a minus and two times a group: the minus takes the product from zero. -/
def negatedProduct : List (Token Operand) :=
  [.operand (.numeral 8 "8"), .operator ⟨'/'⟩, .operator ⟨'-'⟩, .operand (.numeral 2 "2"),
    .operator ⟨'*'⟩, .grouper ⟨'('⟩, .operand (.numeral 1 "1"), .operator ⟨'+'⟩,
    .operand (.numeral 3 "3"), .grouper ⟨')'⟩]

def negatedProductPhrase : Phrase Operand .sum true :=
  .term (.product (.factor (.atom (.operand (.numeral 8 "8")))) ⟨'/'⟩ (by decide)
    (.atom (.minus (.product (.factor (.atom (.operand (.numeral 2 "2")))) ⟨'*'⟩ (by decide)
      (.atom (.group (.sum (.term (.factor (.atom (.operand (.numeral 1 "1"))))) ⟨'+'⟩
        (.inr rfl) (.factor (.atom (.operand (.numeral 3 "3")))))))))))

theorem evaluate_negatedProduct :
    Token.checkOrder Operand.text negatedProduct = .ok () ∧
      (Operand.expression negatedProduct).evaluate.run (Context.fresh .standard) =
        (negatedProductPhrase.value (Evaluation.algebra (Context.fresh .standard).numerics)
          Operand.literal, Context.fresh .standard) := by
  have horder : Token.checkOrder Operand.text negatedProduct = .ok () := by rfl
  have hliteral : ∀ o, .operand o ∈ negatedProduct → o.IsLiteral := by
    intro o ho
    simp only [negatedProduct, List.mem_cons, Token.operand.injEq, reduceCtorEq, false_or,
      List.not_mem_nil, or_false] at ho
    rcases ho with rfl | rfl | rfl | rfl <;> exact ⟨_, _, rfl⟩
  have hknown : ∀ t ∈ negatedProduct, t.IsKnown := by
    simp [negatedProduct, Token.IsKnown, Fragment.isOperator, Fragment.isGrouper]
  exact ⟨horder, ((evaluate_expression_eq_value hliteral hknown horder).2
    negatedProductPhrase rfl (Context.fresh .standard)).1⟩

end Reckoner
