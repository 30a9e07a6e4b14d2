import Mathlib.Data.Complex.Basic
import Reckoner.Proofs.Evaluation.Replay
import Reckoner.Proofs.Number.Integer
import Reckoner.Proofs.Reduction.Minus

/-!
# Parentheses around a minus

`Evaluation.parentheses_around_minus`: where parentheses around a minus and its operand leave the
value of an expression as it is.  The operands are evaluated in the same order with and without the
parentheses, so only the reduction of their values has to be compared.

`Evaluation.lossless`: the numbers with operators that refuse to lose anything in a difference, a
product or a quotient.  They are exact in the complex numbers (`exactIn_lossless`), and a value that
is found with them is the value of the expression (`reduceAll_of_lossless`).

Between other pairs of operators the parentheses make a difference to some expression
(`Evaluation.exists_parting_place`).
-/

namespace Reckoner

variable {α β : Type}

/-! ## Operators that lose nothing -/

namespace Number

def minus (a b : Number) : Number := ⟨a.re - b.re, a.im - b.im⟩

def times (a b : Number) : Number :=
  ⟨a.re * b.re - a.im * b.im, a.re * b.im + a.im * b.re⟩

noncomputable def toComplex (z : Number) : ℂ := ⟨z.re.toRat, z.im.toRat⟩

theorem toComplex_injective : Function.Injective toComplex := by
  intro a b h
  obtain ⟨re, im⟩ := a
  obtain ⟨re', im'⟩ := b
  obtain ⟨hre, him⟩ := Complex.mk.inj h
  rw [Rat.cast_inj, Dyadic.toRat_inj] at hre him
  exact congrArg₂ Number.mk hre him

theorem toComplex_zero : toComplex 0 = 0 := by
  refine Complex.ext ?_ ?_ <;> simp [toComplex] <;> rfl

theorem toComplex_minus (a b : Number) : (a.minus b).toComplex = a.toComplex - b.toComplex := by
  refine Complex.ext ?_ ?_ <;> simp [toComplex, minus, Dyadic.toRat_sub]

theorem toComplex_times (a b : Number) : (a.times b).toComplex = a.toComplex * b.toComplex := by
  refine Complex.ext ?_ ?_ <;>
    simp [toComplex, times, Dyadic.toRat_sub, Dyadic.toRat_add, Dyadic.toRat_mul]

end Number

/-- Whether a result is the exact one.  Only differences, products and quotients are looked at. -/
def Operator.isLossless (op : Operator) (a b z : Number) : Bool :=
  match op.symbol with
  | '-' => z == a.minus b
  | '*' => z == a.times b
  | '/' => z.times b == a
  | _ => true

namespace Evaluation

/-- The numbers; an operator that would lose something counts as unknown. -/
def lossless (m : Numerics) : Algebra Number :=
  ⟨0, fun op a b => do
    let z ← op.apply m.library m.bits a b
    if op.isLossless a b z then .ok z else .error (.defect (.unknownOperator op.symbol))⟩

theorem lossless_apply_eq_ok_iff {m : Numerics} {op : Operator} {a b z : Number} :
    (lossless m).apply op a b = .ok z ↔
      op.apply m.library m.bits a b = .ok z ∧ op.isLossless a b z = true := by
  constructor
  · intro h
    obtain ⟨y, hy, h⟩ := bind_eq_ok_iff.1 h
    split at h
    · next hlossless =>
      cases h
      exact ⟨hy, hlossless⟩
    · cases h
  · rintro ⟨hz, hlossless⟩
    exact bind_eq_ok_iff.2 ⟨z, hz, if_pos hlossless⟩

/-- Operators that lose nothing are those of the complex numbers. -/
theorem exactIn_lossless (m : Numerics) : (lossless m).ExactIn Number.toComplex where
  injective := Number.toComplex_injective
  zero := Number.toComplex_zero
  sub {x y z} h := by
    obtain ⟨-, hlossless⟩ := lossless_apply_eq_ok_iff.1 h
    obtain rfl : z = x.minus y := by simpa [Operator.isLossless] using hlossless
    exact Number.toComplex_minus x y
  mul {x y z} h := by
    obtain ⟨-, hlossless⟩ := lossless_apply_eq_ok_iff.1 h
    obtain rfl : z = x.times y := by simpa [Operator.isLossless] using hlossless
    exact Number.toComplex_times x y
  div {x y z} h := by
    obtain ⟨hdiv, hlossless⟩ := lossless_apply_eq_ok_iff.1 h
    obtain rfl : z.times y = x := by simpa [Operator.isLossless] using hlossless
    have hy : y.toComplex ≠ 0 := by
      rw [← Number.toComplex_zero]
      intro hzero
      have : y.isZero = true := (Number.isZero_iff y).2 (Number.toComplex_injective hzero)
      simp [Operator.apply, Number.div, this] at hdiv
    rw [Number.toComplex_times, mul_div_cancel_right₀ _ hy]

end Evaluation

/-! ## Values with fewer operators -/

namespace Phrase

variable {A B : Algebra β} {leaf : α → β}

theorem applyTo_eq_ok_iff {op : Operator} {x y : Except Fault β} {z : β} :
    applyTo A op x y = .ok z ↔ ∃ u v, x = .ok u ∧ y = .ok v ∧ A.apply op u v = .ok z := by
  unfold applyTo
  simp only [bind_eq_ok_iff]
  constructor
  · rintro ⟨u, hu, v, hv, hz⟩
    exact ⟨u, v, hu, hv, hz⟩
  · rintro ⟨u, v, hu, hv, hz⟩
    exact ⟨u, hu, v, hv, hz⟩

/-- A phrase keeps its value if more applications give a result. -/
theorem value_mono (hzero : A.zero = B.zero)
    (happly : ∀ {op x y z}, A.apply op x y = .ok z → B.apply op x y = .ok z) {r : Rank} {b : Bool}
    (p : Phrase α r b) {v : β} (h : p.value A leaf = .ok v) : p.value B leaf = .ok v := by
  induction p generalizing v with
  | operand a => exact h
  | group e ih => exact ih h
  | plus a ih => exact ih h
  | minus t ih =>
    obtain ⟨x, y, hx, hy, hv⟩ := applyTo_eq_ok_iff.1 h
    exact applyTo_eq_ok_iff.2 ⟨x, y, by rw [← hzero]; exact hx, ih hy, happly hv⟩
  | atom a ih => exact ih h
  | power f a ihf iha =>
    obtain ⟨x, y, hx, hy, hv⟩ := applyTo_eq_ok_iff.1 h
    exact applyTo_eq_ok_iff.2 ⟨x, y, ihf hx, iha hy, happly hv⟩
  | factor f ih => exact ih h
  | product t op tight f iht ihf =>
    obtain ⟨x, y, hx, hy, hv⟩ := applyTo_eq_ok_iff.1 h
    exact applyTo_eq_ok_iff.2 ⟨x, y, iht hx, ihf hy, happly hv⟩
  | term t ih => exact ih h
  | sum e op loose t ihe iht =>
    obtain ⟨x, y, hx, hy, hv⟩ := applyTo_eq_ok_iff.1 h
    exact applyTo_eq_ok_iff.2 ⟨x, y, ihe hx, iht hy, happly hv⟩

end Phrase

namespace Evaluation

/-- What is reduced without loss is reduced to the same value when losses are allowed. -/
theorem reduceAll_of_lossless {m : Numerics} {leaf : α → Number} {text : α → String}
    {ts : List (Token α)} (horder : Token.checkOrder text ts = .ok ())
    (hknown : ∀ t ∈ ts, t.IsKnown) {v : Number}
    (h : Reducer.reduceAll (lossless m) leaf text ts = .ok v) :
    Reducer.reduceAll (algebra m) leaf text ts = .ok v := by
  obtain ⟨b, e, rfl⟩ := Phrase.exists_phrase ((Token.checkOrder_eq_ok_iff text ts).1 horder) hknown
  rw [Reducer.reduceAll_phrase] at h ⊢
  have happly : ∀ {op x y z}, (lossless m).apply op x y = .ok z →
      (algebra m).apply op x y = .ok z := fun hz => (lossless_apply_eq_ok_iff.1 hz).1
  have hzero : (lossless m).zero = (algebra m).zero := rfl
  exact e.value_mono hzero happly h

/-- The operands of tokens have values in turn, and reducing these loses nothing in a difference, a
product or a quotient. -/
def Untruncated (c : Context) (ts : List (Token Operand)) : Prop :=
  ∃ us d v, bare us = ts ∧ Valued us c d ∧
    Reducer.reduceAll (lossless c.numerics) Prod.snd Worth.text us = .ok v

/-! ## Places over numerals -/

theorem reduceAll_map (A : Algebra β) {γ : Type} (f : α → γ) (leaf : γ → β) (text : γ → String)
    (ts : List (Token α)) :
    Reducer.reduceAll A leaf text (ts.map (Token.map f)) =
      Reducer.reduceAll A (fun a => leaf (f a)) (fun a => text (f a)) ts := by
  have htake : ∀ r, Reducer.takeAll A leaf text (ts.map (Token.map f)) r =
      Reducer.takeAll A (fun a => leaf (f a)) (fun a => text (f a)) ts r := by
    induction ts with
    | nil => intro r; rfl
    | cons t ts ih =>
      intro r
      rw [List.map_cons, Reducer.takeAll_cons, Reducer.takeAll_cons]
      cases t <;> exact bind_congr ih
  unfold Reducer.reduceAll
  rw [htake]

def isLiteralToken : Token Operand → Bool
  | .operand (.numeral _ _) => true
  | .operand _ => false
  | _ => true

theorem isLiteral_of_all {ts : List (Token Operand)} (h : ts.all isLiteralToken = true)
    (o : Operand) (ho : .operand o ∈ ts) : o.IsLiteral := by
  have hliteral := List.all_eq_true.1 h _ ho
  cases o with
  | numeral value text => exact ⟨value, text, rfl⟩
  | var name => cases hliteral
  | expression tokens => cases hliteral
  | call name args => cases hliteral

/-- Numerals have their values in any context, which they leave as it is. -/
theorem valued_of_literals (c : Context) {ts : List (Token Operand)}
    (h : ∀ o, .operand o ∈ ts → o.IsLiteral) :
    Valued (ts.map (Token.map fun o => (o, o.literal))) c c := by
  induction ts with
  | nil => exact .done c
  | cons t ts ih =>
    have hrest := ih fun o ho => h o (List.mem_cons_of_mem _ ho)
    cases t with
    | operand o =>
      obtain ⟨value, text, rfl⟩ := h o List.mem_cons_self
      refine .operand ?_ hrest
      obtain ⟨call, hcall⟩ := exists_evalAt_eq c.levels
      rw [Operand.evaluate, Action.run_context_bind, hcall, evalOperand]
      rfl
    | operator op => exact .operator op hrest
    | grouper g => exact .grouper g hrest

theorem run_literals_of_lossless {c : Context} {ts : List (Token Operand)}
    (hall : ts.all isLiteralToken = true) (horder : Token.checkOrder Operand.text ts = .ok ())
    (hknown : ∀ t ∈ ts, t.IsKnown) {v : Number}
    (h : Reducer.reduceAll (lossless c.numerics) Operand.literal Operand.text ts = .ok v) :
    (Operand.expression ts).evaluate.run c = (.ok v, c) ∧ Untruncated c ts := by
  have hliteral := isLiteral_of_all hall
  constructor
  · rw [run_evaluate_literals c hliteral, reduceAll_of_lossless horder hknown h]
  · refine ⟨_, c, v, ?_, valued_of_literals c hliteral, ?_⟩
    · rw [bare, List.map_map]
      refine (List.map_congr_left fun t _ => ?_).trans (List.map_id ts)
      cases t <;> rfl
    · rw [reduceAll_map]
      exact h

def numeral (n : Nat) : Operand := .numeral (.ofInt n) n.repr

/-- The place in the expression `a first -b second c` over natural numbers. -/
def numeralPlace (a : Nat) (first : Char) (b : Nat) (second : Char) (c : Nat) :
    MinusPlace Operand :=
  ⟨[.operand (numeral a)], ⟨first⟩, [.operand (numeral b)], ⟨second⟩, [.operand (numeral c)]⟩

theorem stands_numeralPlace (a : Nat) {first : Char} (b : Nat) {second : Char} (c : Nat)
    (hfirst : Fragment.isOperator first = true) (hsecond : Fragment.isOperator second = true) :
    (numeralPlace a first b second c).Stands Operand.text where
  ordered := rfl
  known := by
    have hminus : Fragment.isOperator '-' = true := rfl
    simp [numeralPlace, MinusPlace.plain, Token.IsKnown, hfirst, hsecond, hminus]
  binary := ⟨0, rfl⟩
  primary := .operand _

/-- The value that tokens over numerals are reduced to without loss at the standard precision. -/
def losslessValue (ts : List (Token Operand)) : Except Fault Number :=
  Reducer.reduceAll (lossless (Context.fresh .standard).numerics) Operand.literal Operand.text ts

/-- Both expressions of a place have a value in a fresh context, and nothing is lost. -/
structure Compares (p : MinusPlace Operand) (v v' : Number) : Prop where
  stands : p.Stands Operand.text
  plain : (Operand.expression p.plain).evaluate.run (.fresh .standard) = (.ok v, .fresh .standard)
  grouped : (Operand.expression p.grouped).evaluate.run (.fresh .standard) =
    (.ok v', .fresh .standard)
  plainExact : Untruncated (.fresh .standard) p.plain
  groupedExact : Untruncated (.fresh .standard) p.grouped

theorem compares_of_losslessValue {p : MinusPlace Operand} (h : p.Stands Operand.text)
    (hall : p.plain.all isLiteralToken = true) {v v' : Number}
    (hplain : losslessValue p.plain = .ok v) (hgrouped : losslessValue p.grouped = .ok v') :
    Compares p v v' := by
  have hall' : p.grouped.all isLiteralToken = true := by
    simpa [MinusPlace.plain, MinusPlace.grouped, isLiteralToken] using hall
  obtain ⟨hv, hexact⟩ := run_literals_of_lossless hall h.ordered h.known hplain
  obtain ⟨hv', hexact'⟩ :=
    run_literals_of_lossless hall' h.checkOrder_grouped h.known_grouped hgrouped
  exact ⟨h, hv, hv', hexact, hexact'⟩

/-- The place in `6*-(1+3)/2*-3-1`. -/
def productPlace : MinusPlace Operand :=
  ⟨[.operand (numeral 6)], ⟨'*'⟩, [.grouper ⟨'('⟩, .operand (numeral 1), .operator ⟨'+'⟩,
    .operand (numeral 3), .grouper ⟨')'⟩], ⟨'/'⟩, [.operand (numeral 2), .operator ⟨'*'⟩,
    .operator ⟨'-'⟩, .operand (numeral 3), .operator ⟨'-'⟩, .operand (numeral 1)]⟩

theorem compares_productPlace : Compares productPlace 35 35 := by
  have hstands : productPlace.Stands Operand.text := {
    ordered := rfl
    known := by decide
    binary := ⟨0, rfl⟩
    primary := .group (.join (.operand _) _ (.last (.operand _)))
  }
  exact compares_of_losslessValue hstands rfl (by decide +kernel) (by decide +kernel)

theorem factors_productPlace : Token.Factors productPlace.after :=
  .next (.atom (.operand (numeral 2))) (.inl rfl)
    (.last (.atom (.minus (.factor (.atom (.operand (numeral 3)))))) rfl)

/-! ## Parentheses -/

/-- Parentheses do not change what the operands are evaluated to. -/
theorem valued_grouped_iff {q : MinusPlace Worth} {c d : Context} :
    Valued q.grouped c d ↔ Valued q.plain c d := by
  simp [MinusPlace.grouped, MinusPlace.plain, Valued.append_iff]

section Place

variable {p : MinusPlace Operand} (h : p.Stands Operand.text) {c d d' : Context} {v v' : Number}

include h

theorem run_grouped_iff_of_loose (hloose : p.second.tightness = 0) :
    (Operand.expression p.grouped).evaluate.run c = (.ok v, d) ↔
      (Operand.expression p.plain).evaluate.run c = (.ok v, d) := by
  rw [run_expression_eq_ok_iff, run_expression_eq_ok_iff]
  constructor
  · rintro ⟨us, hbare, hvalued, hreduce⟩
    obtain ⟨q, rfl, rfl⟩ := MinusPlace.exists_of_map_grouped hbare
    have hq : q.Stands Worth.text := h.of_map
    refine ⟨q.plain, q.map_plain, valued_grouped_iff.1 hvalued, ?_⟩
    rwa [Reducer.reduceAll_grouped_of_loose hq hloose] at hreduce
  · rintro ⟨us, hbare, hvalued, hreduce⟩
    obtain ⟨q, rfl, rfl⟩ := MinusPlace.exists_of_map_plain hbare
    have hq : q.Stands Worth.text := h.of_map
    refine ⟨q.grouped, q.map_grouped, valued_grouped_iff.2 hvalued, ?_⟩
    rwa [Reducer.reduceAll_grouped_of_loose hq hloose]

theorem value_grouped_of_factors (hfirst : p.first = ⟨'*'⟩)
    (hsecond : p.second.symbol = '*' ∨ p.second.symbol = '/') (hafter : Token.Factors p.after)
    (hplain : (Operand.expression p.plain).evaluate.run c = (.ok v, d))
    (hgrouped : (Operand.expression p.grouped).evaluate.run c = (.ok v', d'))
    (hexact : Untruncated c p.plain) (hexact' : Untruncated c p.grouped) :
    v' = v ∧ d' = d := by
  rw [run_expression_eq_ok_iff] at hplain hgrouped
  obtain ⟨us, hbare, hvalued, hv⟩ := hplain
  obtain ⟨us', hbare', hvalued', hv'⟩ := hgrouped
  obtain ⟨us₁, d₁, w, hbare₁, hvalued₁, hw⟩ := hexact
  obtain ⟨us₂, d₂, w', hbare₂, hvalued₂, hw'⟩ := hexact'
  obtain ⟨q, rfl, rfl⟩ := MinusPlace.exists_of_map_plain hbare
  -- the operands have the same values in all of these evaluations
  have hvaluedq := valued_grouped_iff.2 hvalued
  obtain ⟨rfl, rfl⟩ := hvalued.unique hvalued₁ (hbare₁.trans hbare.symm)
  obtain ⟨rfl, rfl⟩ := hvaluedq.unique hvalued' (hbare'.trans q.map_grouped.symm)
  obtain ⟨rfl, rfl⟩ := hvaluedq.unique hvalued₂ (hbare₂.trans q.map_grouped.symm)
  have hq : q.Stands Worth.text := h.of_map
  have hwv := (reduceAll_of_lossless hq.ordered hq.known hw).symm.trans hv
  have hwv' := (reduceAll_of_lossless hq.checkOrder_grouped hq.known_grouped hw').symm.trans hv'
  rw [← Except.ok.inj hwv, ← Except.ok.inj hwv']
  exact ⟨Reducer.reduceAll_grouped_of_factors (exactIn_lossless c.numerics) hq hfirst hsecond
    hafter.of_map hw hw', rfl⟩

end Place

/-- **Parentheses around a minus.** They keep a sequence well ordered.  They do not change the value
of an expression or what evaluation leaves behind where a sum or a difference follows the operand of
the minus.  Nor do they after a product, if products and quotients join the rest of the term, as far
as nothing is lost in a difference, a product or a quotient. -/
theorem parentheses_around_minus {p : MinusPlace Operand} (h : p.Stands Operand.text) :
    Token.checkOrder Operand.text p.grouped = .ok () ∧
    (p.second.symbol = '-' ∨ p.second.symbol = '+' → ∀ c v d,
      (Operand.expression p.grouped).evaluate.run c = (.ok v, d) ↔
        (Operand.expression p.plain).evaluate.run c = (.ok v, d)) ∧
    (p.first = ⟨'*'⟩ → p.second.symbol = '*' ∨ p.second.symbol = '/' → Token.Factors p.after →
      ∀ c v v' d d', (Operand.expression p.plain).evaluate.run c = (.ok v, d) →
        (Operand.expression p.grouped).evaluate.run c = (.ok v', d') →
        Untruncated c p.plain → Untruncated c p.grouped → v' = v ∧ d' = d) := by
  refine ⟨h.checkOrder_grouped, fun hloose c v d => ?_, ?_⟩
  · exact run_grouped_iff_of_loose h (Operator.tightness_of_sign hloose)
  · intro hfirst hsecond hafter c v v' d d'
    exact value_grouped_of_factors h hfirst hsecond hafter

theorem parentheses_around_minus_of_numerals :
    (∃ v, (Operand.expression (numeralPlace 2 '^' 1 '+' 4).plain).evaluate.run (.fresh .standard) =
        (.ok v, .fresh .standard) ∧
      (Operand.expression (numeralPlace 2 '^' 1 '+' 4).grouped).evaluate.run (.fresh .standard) =
        (.ok v, .fresh .standard)) ∧
    ∃ v v', Compares productPlace v v' ∧ v' = v := by
  constructor
  · have hstands := stands_numeralPlace 2 1 4 (rfl : Fragment.isOperator '^' = true)
      (rfl : Fragment.isOperator '+' = true)
    obtain ⟨hplain, -⟩ := run_literals_of_lossless (c := .fresh .standard)
      (v := .ofReal (.ofIntWithPrec 9 1)) rfl hstands.ordered hstands.known
      (by decide +kernel)
    exact ⟨_, hplain, ((parentheses_around_minus hstands).2.1 (.inr rfl) _ _ _).2 hplain⟩
  · have h := compares_productPlace
    refine ⟨35, 35, h, ?_⟩
    exact ((parentheses_around_minus h.stands).2.2 rfl (.inr rfl) factors_productPlace _ _ _ _ _
      h.plain h.grouped h.plainExact h.groupedExact).1

/-- Divided by a minus and then multiplied, and raised to a minus and then multiplied: the minus
takes the product from zero, so the product comes before the quotient and before the power. -/
theorem product_comes_first_under_minus :
    (Compares (numeralPlace 8 '/' 2 '*' 4) (.ofInt (-1)) (.ofInt (-16)) ∧
      (Operator.mk '*').precedes ⟨'/'⟩ = false) ∧
    Compares (numeralPlace 2 '^' 1 '*' 4) (.ofReal (.ofIntWithPrec 1 4)) 2 ∧
      (Operator.mk '*').precedes ⟨'^'⟩ = false := by
  refine ⟨⟨?_, by decide⟩, ?_, by decide⟩
  · exact compares_of_losslessValue (stands_numeralPlace 8 2 4 rfl rfl) rfl
      (by decide +kernel) (by decide +kernel)
  · exact compares_of_losslessValue (stands_numeralPlace 2 1 4 rfl rfl) rfl
      (by decide +kernel) (by decide +kernel)

/-- A place between two operators where parentheses make a difference, if there is one. -/
def partingPlace (first second : Char) : MinusPlace Operand :=
  if first = '^' then numeralPlace 2 first 4 second 2
  else if first = '/' then numeralPlace 8 first 2 second 4
  else numeralPlace 7 first 5 second 4

theorem exists_partingPlace_eq (first second : Char) :
    ∃ a b c, partingPlace first second = numeralPlace a first b second c := by
  unfold partingPlace
  split_ifs <;> exact ⟨_, _, _, rfl⟩

/-- Whether the expressions of a place over numerals have different values without loss. -/
def isParting (p : MinusPlace Operand) : Bool :=
  match losslessValue p.plain, losslessValue p.grouped with
  | .ok v, .ok v' => v' != v
  | _, _ => false

/-- The pairs of operators with a place where parentheses make a difference. -/
def partingPairs : List (Char × Char) :=
  [('*', '%'), ('/', '*'), ('/', '/'), ('/', '%'), ('%', '*'), ('%', '/'), ('%', '%'), ('^', '*'),
    ('^', '/'), ('^', '%'), ('^', '^')]

theorem isParting_partingPlace :
    partingPairs.all (fun pair => isParting (partingPlace pair.1 pair.2)) = true := by
  decide +kernel

/-- **Elsewhere.** Between two operators that the minus can stand between, parentheses make a
difference to some expression, unless the second operator is a sum or a difference, or the first
one is a product and the second one a product or a quotient. -/
theorem exists_parting_place {first second : Operator}
    (hfirst : Fragment.isOperator first.symbol = true)
    (hsecond : Fragment.isOperator second.symbol = true)
    (hprecedes : second.precedes first = false)
    (htight : ¬ (second.symbol = '-' ∨ second.symbol = '+'))
    (hproduct : ¬ (first.symbol = '*' ∧ (second.symbol = '*' ∨ second.symbol = '/'))) :
    ∃ p v v', p.first = first ∧ p.second = second ∧ Compares p v v' ∧ v' ≠ v := by
  obtain ⟨first⟩ := first
  obtain ⟨second⟩ := second
  have hmem : (first, second) ∈ partingPairs := by
    simp only [Fragment.isOperator, Bool.or_eq_true, beq_iff_eq, or_assoc] at hfirst hsecond
    rcases hfirst with rfl | rfl | rfl | rfl | rfl | rfl <;>
      rcases hsecond with rfl | rfl | rfl | rfl | rfl | rfl <;>
      revert hprecedes htight hproduct <;> decide
  have hparting := List.all_eq_true.1 isParting_partingPlace _ hmem
  obtain ⟨a, b, c, heq⟩ := exists_partingPlace_eq first second
  rw [heq, isParting] at hparting
  split at hparting
  · next v v' hplain hgrouped =>
    refine ⟨numeralPlace a first b second c, v, v', rfl, rfl, ?_, by simpa using hparting⟩
    exact compares_of_losslessValue (stands_numeralPlace a b c hfirst hsecond) rfl hplain hgrouped
  · cases hparting

end Evaluation

end Reckoner
