import Mathlib.Algebra.Field.Basic
import Mathlib.Tactic.Ring
import Reckoner.Proofs.Order.Relabelling
import Reckoner.Proofs.Reduction.Acceptance
import Reckoner.Proofs.Reduction.Value

/-!
# A minus between two operators

`MinusPlace`: a place in a token sequence where a minus follows an operator and stands before an
operand or a group, and a second operator comes next.  The minus takes the rest of its term, so
parentheses around the minus and its operand are not always redundant.

1. They are where the second operator ends the term, whatever the values are
   (`reduceAll_grouped_of_loose`).
2. They are if the first operator is a product and the rest of the term is joined by products and
   quotients, where operators are applied without loss (`reduceAll_grouped_of_factors`).  The two
   reductions hold different values until the term ends: one has the product `s` where the other one
   still has to take `t` from zero and multiply it with `x`.  That `s` is `-(x * t)` is kept factor
   by factor (`resume_factors`).
-/

namespace Reckoner

variable {α β K : Type}

namespace Token

/-- An operand, or a group in parentheses. -/
inductive Primary : List (Token α) → Prop where
  | operand (a : α) : Primary [.operand a]
  | group {ts : List (Token α)} (inner : Chain .joined ts) :
      Primary (.grouper ⟨'('⟩ :: (ts ++ [.grouper ⟨')'⟩]))

theorem Primary.chain {ts : List (Token α)} (h : Primary ts) : Chain .signed ts := by
  cases h with
  | operand a => exact .operand a
  | group inner => exact .group rfl rfl inner

theorem Primary.exists_phrase {ts : List (Token α)} (h : Primary ts)
    (hknown : ∀ t ∈ ts, t.IsKnown) : ∃ a : Phrase α .atom false, a.tokens = ts := by
  cases h with
  | operand a => exact ⟨.operand a, rfl⟩
  | group inner =>
    obtain ⟨b, e, rfl⟩ := Phrase.exists_phrase inner fun t ht => hknown t (by simp [ht])
    exact ⟨.group e, rfl⟩

theorem walk_append_of_ok {text : α → String} {p p' : Place} {ts : List (Token α)}
    (h : p.walk text ts = .ok p') (us : List (Token α)) :
    p.walk text (ts ++ us) = p'.walk text us := by
  induction ts generalizing p with
  | nil =>
    cases h
    rfl
  | cons t ts ih =>
    rw [List.cons_append, Place.walk]
    rw [Place.walk] at h
    cases hstep : p.step text t with
    | error fault => rw [hstep] at h; cases h
    | ok q =>
      rw [hstep] at h
      exact ih h

/-- What can come after a term: nothing, a sum or a difference, or the end of the group. -/
def EndsTerm : List (Token α) → Prop
  | [] => True
  | .operand _ :: _ => False
  | .operator op :: _ => op.tightness = 0
  | .grouper g :: _ => g = ⟨')'⟩

/-- The rest of a term after a product or a quotient, if products and quotients join it. -/
inductive Factors : List (Token α) → Prop where
  | last {b : Bool} (f : Phrase α .factor b) {rest : List (Token α)} (ends : EndsTerm rest) :
      Factors (f.tokens ++ rest)
  | next (f : Phrase α .factor false) {op : Operator} (join : op.symbol = '*' ∨ op.symbol = '/')
      {rest : List (Token α)} (more : Factors rest) :
      Factors (f.tokens ++ .operator op :: rest)

end Token

/-! ## Places -/

/-- A minus between two operators, before an operand. -/
structure MinusPlace (α : Type) where
  before : List (Token α)
  first : Operator
  operand : List (Token α)
  second : Operator
  after : List (Token α)

namespace MinusPlace

open Token

def plain (p : MinusPlace α) : List (Token α) :=
  p.before ++ .operator p.first :: .operator Phrase.minusSign ::
    (p.operand ++ .operator p.second :: p.after)

/-- The token sequence with parentheses around the minus and its operand. -/
def grouped (p : MinusPlace α) : List (Token α) :=
  p.before ++ .operator p.first :: .grouper ⟨'('⟩ :: .operator Phrase.minusSign ::
    (p.operand ++ .grouper ⟨')'⟩ :: .operator p.second :: p.after)

/-- The sequence is well ordered, the first operator stands where no operand is due, and the minus
stands before an operand or a group. -/
structure Stands (text : α → String) (p : MinusPlace α) : Prop where
  ordered : checkOrder text p.plain = .ok ()
  known : ∀ t ∈ p.plain, t.IsKnown
  binary : ∃ d, Place.start.walk text p.before = .ok ⟨false, d⟩
  primary : Primary p.operand

variable {text : α → String} {p : MinusPlace α}

theorem Stands.checkOrder_grouped (h : p.Stands text) : checkOrder text p.grouped = .ok () := by
  obtain ⟨d, hbefore⟩ := h.binary
  have hsign : Phrase.minusSign.symbol = '-' ∨ Phrase.minusSign.symbol = '+' := .inl rfl
  have hwalk : Place.start.walk text p.grouped = Place.start.walk text p.plain := by
    unfold grouped plain
    rw [walk_append_of_ok hbefore, walk_append_of_ok hbefore, walk_operator, walk_operator,
      walk_opening_due text d _ rfl, walk_sign text _ _ hsign, walk_sign text _ _ hsign,
      h.primary.chain.walk_append, h.primary.chain.walk_append, walk_closing text d _ rfl]
  rw [checkOrder_eq_ok_iff_endsWell, EndsWell, hwalk]
  exact (checkOrder_eq_ok_iff_endsWell text p.plain).1 h.ordered

theorem Stands.known_grouped (h : p.Stands text) : ∀ t ∈ p.grouped, t.IsKnown := by
  have hknown := h.known
  simp only [plain, grouped, List.forall_mem_append, List.forall_mem_cons] at hknown ⊢
  obtain ⟨hbefore, hfirst, hminus, hoperand, hrest⟩ := hknown
  exact ⟨hbefore, hfirst, rfl, hminus, hoperand, rfl, hrest⟩

theorem Stands.exists_phrase (h : p.Stands text) :
    ∃ a : Phrase α .atom false, a.tokens = p.operand :=
  h.primary.exists_phrase fun t ht => h.known t (by simp [plain, ht])

end MinusPlace

/-! ## Values in a field -/

/-- Values stand for elements of a field, and differences, products and quotients are applied
without loss. -/
structure Algebra.ExactIn [Field K] (A : Algebra β) (val : β → K) : Prop where
  injective : Function.Injective val
  zero : val A.zero = 0
  sub : ∀ {x y z : β}, A.apply ⟨'-'⟩ x y = .ok z → val z = val x - val y
  mul : ∀ {x y z : β}, A.apply ⟨'*'⟩ x y = .ok z → val z = val x * val y
  div : ∀ {x y z : β}, A.apply ⟨'/'⟩ x y = .ok z → val z = val x / val y

/-- Two values stay in a fixed proportion if both are multiplied or divided by a third one. -/
theorem Algebra.ExactIn.eq_neg_mul [Field K] {A : Algebra β} {val : β → K} (hA : A.ExactIn val)
    {op : Operator} (hop : op.symbol = '*' ∨ op.symbol = '/') {x s s' t t' y : β}
    (h : val s = -(val x * val t)) (ht : A.apply op t y = .ok t') (hs : A.apply op s y = .ok s') :
    val s' = -(val x * val t') := by
  obtain ⟨c⟩ := op
  rcases hop with hc | hc <;> simp only at hc <;> subst hc
  · rw [hA.mul ht, hA.mul hs, h]
    ring
  · rw [hA.div ht, hA.div hs, h]
    ring

/-! ## Reducing up to the minus and from there on -/

namespace Reducer

variable {A : Algebra β} {leaf : α → β} {text : α → String}

/-- The value of a reduction that takes the tokens that are left. -/
def resume (A : Algebra β) (leaf : α → β) (text : α → String) (ts : List (Token α))
    (r : Reducer β) : Except Fault β :=
  takeAll A leaf text ts r >>= fun r => r.finish A

theorem resume_append (ts us : List (Token α)) (r : Reducer β) :
    resume A leaf text (ts ++ us) r = takeAll A leaf text ts r >>= resume A leaf text us := by
  rw [resume, takeAll_append, bind_assoc]
  rfl

theorem resume_operator {r : Reducer β} (h : r.expecting = false) (op : Operator)
    (ts : List (Token α)) :
    resume A leaf text (.operator op :: ts) r =
      settle A op.tightness r.pending r.values >>= fun s =>
        resume A leaf text ts ⟨s.2, .operator op :: s.1, true⟩ := by
  rw [resume, takeAll_cons, push_operator_of_not_expecting h, bind_assoc, bind_assoc]
  rfl

/-- What comes after a term settles everything in its group. -/
theorem exists_resume_of_endsTerm (A : Algebra β) (leaf : α → β) (text : α → String)
    {ts : List (Token α)} (h : Token.EndsTerm ts) :
    ∃ next : List Pending × List β → Except Fault β, ∀ r : Reducer β, r.expecting = false →
      resume A leaf text ts r = settle A 0 r.pending r.values >>= next := by
  match ts, h with
  | [], _ => exact ⟨_, fun r _ => finish_eq_settle r⟩
  | .operator op :: ts, h =>
    refine ⟨fun s => resume A leaf text ts ⟨s.2, .operator op :: s.1, true⟩, fun r hr => ?_⟩
    rw [resume_operator hr, h]
  | .grouper g :: ts, h =>
    obtain rfl := h
    refine ⟨fun s => closeTop ⟨')'⟩ s >>= fun s => resume A leaf text ts ⟨s.2, s.1, false⟩,
      fun r hr => ?_⟩
    rw [resume, takeAll_cons, push_closing_of_not_expecting hr]
    simp only [bind_assoc]
    rfl

theorem takeAll_atom (a : Phrase α .atom false) (values : List β) (pending : List Pending) :
    takeAll A leaf text a.tokens ⟨values, pending, true⟩ =
      a.value A leaf >>= fun v => .ok ⟨v :: values, pending, false⟩ := by
  have hsettles : Settles A leaf text a Rank.atom.tightness pending :=
    takeAll_phrase a (Nat.le_refl _) (fun h => by cases h) (stops_atom pending)
  calc _ = (takeAll A leaf text a.tokens ⟨values, pending, true⟩ >>= fun s =>
        settle A Rank.atom.tightness s.pending s.values) >>= fun s => .ok ⟨s.2, s.1, false⟩ := by
        rw [bind_assoc]
        refine (bind_pure _).symm.trans (bind_congr_ok fun s hs => ?_)
        rw [settle_of_stops (stops_atom _), ok_bind, ← expecting_of_takeAll a hs]
        rfl
    _ = _ := by
        rw [hsettles, bind_assoc]
        refine bind_congr fun v => ?_
        rw [settle_of_stops (stops_atom _), ok_bind]

theorem takeAll_grouped_minus (a : Phrase α .atom false) (values : List β)
    (pending : List Pending) :
    takeAll A leaf text
        (.grouper ⟨'('⟩ :: .operator Phrase.minusSign :: (a.tokens ++ [.grouper ⟨')'⟩]))
        ⟨values, pending, true⟩ =
      a.value A leaf >>= fun v => A.apply Phrase.minusSign A.zero v >>= fun z =>
        .ok ⟨z :: values, pending, false⟩ := by
  refine (takeAll_atom (.group (.term (.factor (.atom (.minus (.factor (.atom a)))))))
    values pending).trans ?_
  simp only [Phrase.value, Phrase.applyTo, ok_bind, bind_assoc]

theorem stops_of_settle {k : Nat} {pending : List Pending} {values : List β}
    {s : List Pending × List β} (h : settle A k pending values = .ok s) : Stops k s.1 := by
  induction pending generalizing values with
  | nil =>
    cases h
    exact stops_nil k
  | cons top rest ih =>
    cases top with
    | grouper g =>
      cases h
      exact stops_grouper k g rest
    | operator op =>
      rw [settle] at h
      split at h
      · obtain ⟨values', -, h⟩ := bind_eq_ok_iff.1 h
        exact ih h
      · cases h
        exact stops_operator (by omega) rest

section Place

variable {p : MinusPlace α} (h : p.Stands text) {a : Phrase α .atom false}
  (ha : a.tokens = p.operand)

include h

/-- No operand is due before the first operator. -/
theorem exists_follows_before {r : Reducer β}
    (hr : takeAll A leaf text p.before .start = .ok r) : ∃ d, Follows ⟨false, d⟩ r := by
  obtain ⟨d, hbefore⟩ := h.binary
  obtain ⟨q, hq, hfollows⟩ :=
    follows_start.takeAll_ok (fun t ht => h.known t (by simp [MinusPlace.plain, ht])) hr
  obtain rfl : (⟨false, d⟩ : Token.Place) = q := Except.ok.inj (hbefore.symm.trans hq)
  exact ⟨d, hfollows⟩

theorem reduceAll_before (us : List (Token α)) :
    reduceAll A leaf text (p.before ++ .operator p.first :: us) =
      takeAll A leaf text p.before .start >>= fun r =>
        settle A p.first.tightness r.pending r.values >>= fun s =>
          resume A leaf text us ⟨s.2, .operator p.first :: s.1, true⟩ := by
  refine (resume_append p.before _ .start).trans (bind_congr_ok fun r hr => ?_)
  obtain ⟨d, hfollows⟩ := exists_follows_before h hr
  exact resume_operator hfollows.expecting p.first us

include ha

/-- Without parentheses the minus waits when the second operator comes. -/
theorem reduceAll_plain :
    reduceAll A leaf text p.plain =
      takeAll A leaf text p.before .start >>= fun r =>
        settle A p.first.tightness r.pending r.values >>= fun s => a.value A leaf >>= fun v =>
          resume A leaf text (.operator p.second :: p.after)
            ⟨v :: A.zero :: s.2, .operator Phrase.minusSign :: .operator p.first :: s.1,
              false⟩ := by
  rw [MinusPlace.plain, reduceAll_before h, ← ha]
  refine bind_congr fun r => bind_congr fun s => ?_
  calc _ = resume A leaf text (a.tokens ++ .operator p.second :: p.after)
        ⟨A.zero :: s.2, .operator Phrase.minusSign :: .operator p.first :: s.1, true⟩ := rfl
    _ = _ := by
        rw [resume_append, takeAll_atom, bind_assoc]
        rfl

/-- With parentheses the minus is applied when the second operator comes. -/
theorem reduceAll_grouped :
    reduceAll A leaf text p.grouped =
      takeAll A leaf text p.before .start >>= fun r =>
        settle A p.first.tightness r.pending r.values >>= fun s => a.value A leaf >>= fun v =>
          A.apply Phrase.minusSign A.zero v >>= fun z =>
            resume A leaf text (.operator p.second :: p.after)
              ⟨z :: s.2, .operator p.first :: s.1, false⟩ := by
  rw [MinusPlace.grouped, reduceAll_before h, ← ha]
  refine bind_congr fun r => bind_congr fun s => ?_
  have htokens : (.grouper ⟨'('⟩ :: .operator Phrase.minusSign ::
      (a.tokens ++ .grouper ⟨')'⟩ :: .operator p.second :: p.after) : List (Token α)) =
      (.grouper ⟨'('⟩ :: .operator Phrase.minusSign :: (a.tokens ++ [.grouper ⟨')'⟩])) ++
        .operator p.second :: p.after := by simp
  rw [htokens, resume_append, takeAll_grouped_minus]
  simp only [bind_assoc, ok_bind]

end Place

/-! ## The second operator ends the term -/

/-- Parentheses around a minus and its operand make no difference where the term ends. -/
theorem reduceAll_grouped_of_loose {p : MinusPlace α} (h : p.Stands text)
    (hloose : p.second.tightness = 0) :
    reduceAll A leaf text p.grouped = reduceAll A leaf text p.plain := by
  obtain ⟨a, ha⟩ := h.exists_phrase
  rw [reduceAll_grouped h ha, reduceAll_plain h ha]
  refine bind_congr fun r => bind_congr fun s => bind_congr fun v => ?_
  rw [resume_operator rfl, hloose, settle_operator (Nat.zero_le _), bind_assoc]
  refine bind_congr fun z => ?_
  rw [resume_operator rfl, hloose]

/-! ## The rest of the term is made of factors -/

theorem tightness_of_join {op : Operator} (h : op.symbol = '*' ∨ op.symbol = '/') :
    op.tightness = 1 := by
  refine Operator.tightness_of_multiplicative ?_
  rcases h with h | h <;> simp [Operator.isMultiplicative, h]

section Factors

variable {op : Operator} {pending : List Pending} {values : List β} {x s : β}

/-- A closed factor and the operator after it: the factor is joined to what stands before it. -/
theorem resume_factor_operator (f : Phrase α .factor false)
    (hop : op.symbol = '*' ∨ op.symbol = '/') {op' : Operator}
    (hop' : op'.symbol = '*' ∨ op'.symbol = '/') (hstops : Stops 1 pending)
    (ts : List (Token α)) :
    resume A leaf text (f.tokens ++ .operator op' :: ts)
        ⟨s :: values, .operator op :: pending, true⟩ =
      f.value A leaf >>= fun y => A.apply op s y >>= fun z =>
        resume A leaf text ts ⟨z :: values, .operator op' :: pending, true⟩ := by
  have htight := tightness_of_join hop
  have hsettles : Settles A leaf text f 1 (.operator op :: pending) :=
    takeAll_phrase f (by decide) (fun h => by cases h)
      (stops_operator (by rw [htight]; decide) pending)
  calc _ = (takeAll A leaf text f.tokens ⟨s :: values, .operator op :: pending, true⟩ >>= fun r =>
        settle A 1 r.pending r.values) >>= fun q =>
        resume A leaf text ts ⟨q.2, .operator op' :: q.1, true⟩ := by
        rw [resume_append, bind_assoc]
        refine bind_congr_ok fun r hr => ?_
        rw [resume_operator (expecting_of_takeAll f hr), tightness_of_join hop']
    _ = _ := by
        rw [hsettles, bind_assoc]
        refine bind_congr fun y => ?_
        rw [settle_operator (by rw [htight]), bind_assoc]
        refine bind_congr fun z => ?_
        rw [settle_of_stops hstops, ok_bind]

/-- The last factor of a term: everything in the group is settled after it. -/
theorem exists_resume_last_factor (A : Algebra β) (leaf : α → β) (text : α → String) {b : Bool}
    (f : Phrase α .factor b) {ts : List (Token α)} (hends : Token.EndsTerm ts) :
    ∃ next : List Pending × List β → Except Fault β, ∀ {op : Operator},
      (op.symbol = '*' ∨ op.symbol = '/') → ∀ (s : β) (values : List β) (pending : List Pending),
      resume A leaf text (f.tokens ++ ts) ⟨s :: values, .operator op :: pending, true⟩ =
        f.value A leaf >>= fun y => A.apply op s y >>= fun z =>
          settle A 0 pending (z :: values) >>= next := by
  obtain ⟨next, hnext⟩ := exists_resume_of_endsTerm A leaf text hends
  refine ⟨next, fun hop s values pending => ?_⟩
  have hsettles : Settles A leaf text f 0 (.operator _ :: pending) :=
    takeAll_phrase f (Nat.zero_le _) (fun _ => rfl)
      (stops_operator (by rw [tightness_of_join hop]; decide) pending)
  calc _ = (takeAll A leaf text f.tokens ⟨s :: values, .operator _ :: pending, true⟩ >>= fun r =>
        settle A 0 r.pending r.values) >>= next := by
        rw [resume_append, bind_assoc]
        exact bind_congr_ok fun r hr => hnext r (expecting_of_takeAll f hr)
    _ = _ := by
        rw [hsettles, bind_assoc]
        refine bind_congr fun y => ?_
        rw [settle_operator (Nat.zero_le _), bind_assoc]

/-- **Factors.** The product that the grouped reduction holds is the one that the plain reduction
will come to, so both end alike. -/
theorem resume_factors [Field K] {val : β → K} (hA : A.ExactIn val) {ts : List (Token α)}
    (h : Token.Factors ts) (hop : op.symbol = '*' ∨ op.symbol = '/') (hstops : Stops 1 pending)
    {t v v' : β} (hs : val s = -(val x * val t))
    (hplain : resume A leaf text ts ⟨t :: A.zero :: x :: values, .operator op ::
      .operator Phrase.minusSign :: .operator ⟨'*'⟩ :: pending, true⟩ = .ok v)
    (hgrouped : resume A leaf text ts ⟨s :: values, .operator op :: pending, true⟩ = .ok v') :
    v' = v := by
  induction h generalizing op s t with
  | last f ends =>
    obtain ⟨next, hnext⟩ := exists_resume_last_factor A leaf text f ends
    rw [hnext hop] at hplain hgrouped
    obtain ⟨y, hy, hplain⟩ := bind_eq_ok_iff.1 hplain
    obtain ⟨t', ht', hplain⟩ := bind_eq_ok_iff.1 hplain
    rw [hy, ok_bind] at hgrouped
    obtain ⟨s', hs', hgrouped⟩ := bind_eq_ok_iff.1 hgrouped
    -- the minus and the product that still wait are applied now
    rw [settle_operator (Nat.zero_le _), bind_assoc] at hplain
    obtain ⟨n, hn, hplain⟩ := bind_eq_ok_iff.1 hplain
    rw [settle_operator (Nat.zero_le _), bind_assoc] at hplain
    obtain ⟨z, hz, hplain⟩ := bind_eq_ok_iff.1 hplain
    have hval : val s' = val z := by
      rw [hA.eq_neg_mul hop hs ht' hs', hA.mul hz, hA.sub hn, hA.zero]
      ring
    rw [hA.injective hval, hplain] at hgrouped
    exact (Except.ok.inj hgrouped).symm
  | next f join more ih =>
    rw [resume_factor_operator f hop join hstops] at hgrouped
    rw [resume_factor_operator f hop join (stops_operator (by decide) _)] at hplain
    obtain ⟨y, hy, hplain⟩ := bind_eq_ok_iff.1 hplain
    obtain ⟨t', ht', hplain⟩ := bind_eq_ok_iff.1 hplain
    rw [hy, ok_bind] at hgrouped
    obtain ⟨s', hs', hgrouped⟩ := bind_eq_ok_iff.1 hgrouped
    exact ih join (hA.eq_neg_mul hop hs ht' hs') hplain hgrouped

end Factors

/-- Parentheses around a minus after a product make no difference in a term of products and
quotients, if operators are applied without loss. -/
theorem reduceAll_grouped_of_factors [Field K] {val : β → K} (hA : A.ExactIn val)
    {p : MinusPlace α} (h : p.Stands text) (hfirst : p.first = ⟨'*'⟩)
    (hsecond : p.second.symbol = '*' ∨ p.second.symbol = '/') (hafter : Token.Factors p.after)
    {v v' : β} (hplain : reduceAll A leaf text p.plain = .ok v)
    (hgrouped : reduceAll A leaf text p.grouped = .ok v') : v' = v := by
  obtain ⟨a, ha⟩ := h.exists_phrase
  rw [reduceAll_plain h ha, hfirst] at hplain
  rw [reduceAll_grouped h ha, hfirst] at hgrouped
  obtain ⟨r, hr, hplain⟩ := bind_eq_ok_iff.1 hplain
  obtain ⟨⟨pending, values⟩, hsettle, hplain⟩ := bind_eq_ok_iff.1 hplain
  obtain ⟨t, ht, hplain⟩ := bind_eq_ok_iff.1 hplain
  rw [hr, ok_bind, hsettle, ok_bind, ht, ok_bind] at hgrouped
  obtain ⟨n, hn, hgrouped⟩ := bind_eq_ok_iff.1 hgrouped
  have hstops : Stops 1 pending := stops_of_settle hsettle
  -- what the product multiplies is on top
  obtain ⟨x, values, rfl⟩ : ∃ x rest, values = x :: rest := by
    obtain ⟨d, hfollows⟩ := exists_follows_before h hr
    have hcount := hfollows.count
    have hlen := (count_of_settle hsettle).1
    simp only [Bool.toNat_false, Nat.add_zero] at hcount hlen
    exact List.exists_cons_of_length_pos (by omega)
  have htight := tightness_of_join hsecond
  rw [resume_operator rfl, htight, settle_of_stops (stops_operator (by decide) _), ok_bind]
    at hplain
  rw [resume_operator rfl, htight, settle_operator (by decide), bind_assoc] at hgrouped
  obtain ⟨s, hs, hgrouped⟩ := bind_eq_ok_iff.1 hgrouped
  rw [settle_of_stops hstops, ok_bind] at hgrouped
  have hval : val s = -(val x * val t) := by
    rw [hA.mul hs, hA.sub hn, hA.zero]
    ring
  exact resume_factors hA hafter hsecond hstops hval hplain hgrouped

end Reducer

/-! ## Places over other operands -/

section Map

variable {f : α → β}

namespace Token

theorem Primary.of_map {ts : List (Token α)} (h : Primary (ts.map (Token.map f))) :
    Primary ts := by
  generalize hus : ts.map (Token.map f) = us at h
  cases h with
  | operand b =>
    obtain ⟨a, _, rfl, -, hrest⟩ := map_eq_operand_cons_iff.1 hus
    rw [List.map_eq_nil_iff.1 hrest]
    exact .operand a
  | group inner =>
    obtain ⟨vs, rfl, rfl⟩ := exists_of_map_eq_group hus
    rw [← checkOrder_eq_ok_iff (fun _ => ""), checkOrder_map, checkOrder_eq_ok_iff] at inner
    exact .group inner

theorem EndsTerm.of_map {ts : List (Token α)} (h : EndsTerm (ts.map (Token.map f))) :
    EndsTerm ts := by
  match ts, h with
  | [], _ => trivial
  | .operator _ :: _, h => exact h
  | .grouper _ :: _, h => exact h

theorem Factors.of_map {ts : List (Token α)} (h : Factors (ts.map (Token.map f))) :
    Factors ts := by
  generalize hus : ts.map (Token.map f) = us at h
  induction h generalizing ts with
  | last q ends =>
    obtain ⟨vs, rest, rfl, hvs, rfl⟩ := List.map_eq_append_iff.1 hus
    obtain ⟨p, rfl⟩ := q.exists_of_map hvs
    exact .last p ends.of_map
  | next q join _ ih =>
    obtain ⟨vs, rest, rfl, hvs, hrest⟩ := exists_of_map_eq_join hus
    obtain ⟨p, rfl⟩ := q.exists_of_map hvs
    exact .next p join (ih hrest)

end Token

namespace MinusPlace

def map (f : α → β) (p : MinusPlace α) : MinusPlace β :=
  ⟨p.before.map (Token.map f), p.first, p.operand.map (Token.map f), p.second,
    p.after.map (Token.map f)⟩

theorem map_plain (p : MinusPlace α) : p.plain.map (Token.map f) = (p.map f).plain := by
  simp [plain, map]

theorem map_grouped (p : MinusPlace α) : p.grouped.map (Token.map f) = (p.map f).grouped := by
  simp [grouped, map]

theorem exists_of_map_plain {p : MinusPlace β} {ts : List (Token α)}
    (h : ts.map (Token.map f) = p.plain) : ∃ q : MinusPlace α, q.map f = p ∧ q.plain = ts := by
  obtain ⟨before, _, rfl, hbefore, hminus⟩ := Token.exists_of_map_eq_join h
  obtain ⟨_, rfl, hrest⟩ := Token.map_eq_operator_cons_iff.1 hminus
  obtain ⟨operand, after, rfl, hoperand, hafter⟩ := Token.exists_of_map_eq_join hrest
  refine ⟨⟨before, p.first, operand, p.second, after⟩, ?_, rfl⟩
  rw [map, hbefore, hoperand, hafter]

theorem exists_of_map_grouped {p : MinusPlace β} {ts : List (Token α)}
    (h : ts.map (Token.map f) = p.grouped) : ∃ q : MinusPlace α, q.map f = p ∧ q.grouped = ts := by
  obtain ⟨before, _, rfl, hbefore, hopening⟩ := Token.exists_of_map_eq_join h
  obtain ⟨_, rfl, hminus⟩ := Token.map_eq_grouper_cons_iff.1 hopening
  obtain ⟨_, rfl, hrest⟩ := Token.map_eq_operator_cons_iff.1 hminus
  obtain ⟨operand, _, rfl, hoperand, hclosing⟩ := List.map_eq_append_iff.1 hrest
  obtain ⟨_, rfl, hsecond⟩ := Token.map_eq_grouper_cons_iff.1 hclosing
  obtain ⟨after, rfl, hafter⟩ := Token.map_eq_operator_cons_iff.1 hsecond
  refine ⟨⟨before, p.first, operand, p.second, after⟩, ?_, rfl⟩
  rw [map, hbefore, hoperand, hafter]

theorem Stands.of_map {text : β → String} {p : MinusPlace α} (h : (p.map f).Stands text) :
    p.Stands (fun a => text (f a)) where
  ordered := by
    rw [← Token.checkOrder_map, map_plain]
    exact h.ordered
  known t ht := by
    refine Token.isKnown_map.1 (h.known (t.map f) ?_)
    rw [← map_plain]
    exact List.mem_map_of_mem ht
  binary := by
    obtain ⟨d, hd⟩ := h.binary
    exact ⟨d, (Token.walk_map text p.before .start).symm.trans hd⟩
  primary := h.primary.of_map

end MinusPlace

end Map

end Reckoner
