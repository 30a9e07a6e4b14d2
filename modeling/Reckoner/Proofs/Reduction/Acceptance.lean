import Reckoner.Proofs.Order.Chain
import Reckoner.Proofs.Reduction.Settle

/-!
# Reduction and order check accept the same sequences

A reduction follows a walk over known tokens when it expects an operand where the walk does, has as
many groups open, and has one value more than operators waiting, or as many if an operand is due
(`Follows`).

1. A token that the reduction takes is one that the walk takes, and the two stay together
   (`Follows.push_ok`).
2. At a token that the walk takes, the reduction fails only where an operator cannot be applied,
   and it applies known operators only (`Follows.push_error`).

So the two accept the same sequences when every operator can be applied
(`reduceAll_iff_checkOrder`).
-/

namespace Reckoner

variable {α β : Type}

/-- Whether a fault comes from applying an operator. -/
def Algebra.Gives (A : Algebra β) (fault : Fault) : Prop := ∃ op x y, A.apply op x y = .error fault

/-- Whether a fault comes from applying a known operator. -/
def Algebra.Fails (A : Algebra β) (fault : Fault) : Prop :=
  ∃ op x y, Fragment.isOperator op.symbol = true ∧ A.apply op x y = .error fault

theorem Algebra.Fails.gives {A : Algebra β} {fault : Fault} (h : A.Fails fault) :
    A.Gives fault := by
  obtain ⟨op, x, y, -, hxy⟩ := h
  exact ⟨op, x, y, hxy⟩

namespace Pending

def operators : List Pending → Nat
  | [] => 0
  | .operator _ :: rest => operators rest + 1
  | .grouper _ :: rest => operators rest

def groupers : List Pending → List Grouper
  | [] => []
  | .operator _ :: rest => groupers rest
  | .grouper g :: rest => g :: groupers rest

def Known (pending : List Pending) : Prop :=
  ∀ op, .operator op ∈ pending → Fragment.isOperator op.symbol = true

theorem Known.tail {top : Pending} {rest : List Pending} (h : Known (top :: rest)) : Known rest :=
  fun op hop => h op (List.mem_cons_of_mem _ hop)

theorem Known.operator {op : Operator} {pending : List Pending} (h : Known pending)
    (hop : Fragment.isOperator op.symbol = true) : Known (.operator op :: pending) := by
  intro op' hop'
  rcases List.mem_cons.1 hop' with heq | hmem
  · cases heq
    exact hop
  · exact h op' hmem

theorem Known.grouper {pending : List Pending} (h : Known pending) (g : Grouper) :
    Known (.grouper g :: pending) := by
  intro op hop
  rcases List.mem_cons.1 hop with heq | hmem
  · cases heq
  · exact h op hmem

end Pending

open Pending

namespace Reducer

variable {A : Algebra β} {leaf : α → β} {text : α → String}

/-! ## Counting values and operators -/

theorem length_of_reduce {op : Operator} {values values' : List β}
    (h : reduce A op values = .ok values') : values.length = values'.length + 1 := by
  match values, h with
  | y :: x :: rest, h =>
    obtain ⟨z, _, rfl⟩ := map_eq_ok_iff.1 h
    rfl

theorem fails_of_reduce {op : Operator} (hop : Fragment.isOperator op.symbol = true)
    {values : List β} {fault : Fault} (hl : 2 ≤ values.length)
    (h : reduce A op values = .error fault) : A.Fails fault := by
  match values, hl, h with
  | y :: x :: rest, _, h =>
    rw [reduce] at h
    cases hz : A.apply op x y with
    | ok z => rw [hz] at h; cases h
    | error f => rw [hz] at h; cases h; exact ⟨op, x, y, hop, hz⟩

/-- Settling takes away as many values as operators and leaves the groups. -/
theorem count_of_settle {k : Nat} {pending : List Pending} {values : List β}
    {s : List Pending × List β} (h : settle A k pending values = .ok s) :
    s.2.length + operators pending = values.length + operators s.1 ∧
      groupers s.1 = groupers pending := by
  induction pending generalizing values with
  | nil =>
    cases h
    exact ⟨rfl, rfl⟩
  | cons top rest ih =>
    cases top with
    | grouper g =>
      cases h
      exact ⟨rfl, rfl⟩
    | operator op =>
      rw [settle] at h
      split at h
      · obtain ⟨values', hr, hs⟩ := bind_eq_ok_iff.1 h
        obtain ⟨hcount, hgroups⟩ := ih hs
        have hlen := length_of_reduce hr
        exact ⟨by rw [operators]; omega, hgroups⟩
      · cases h
        exact ⟨rfl, rfl⟩

theorem known_of_settle {k : Nat} {pending : List Pending} (hknown : Known pending)
    {values : List β} {s : List Pending × List β} (h : settle A k pending values = .ok s) :
    Known s.1 := by
  induction pending generalizing values with
  | nil =>
    cases h
    exact hknown
  | cons top rest ih =>
    cases top with
    | grouper g =>
      cases h
      exact hknown
    | operator op =>
      rw [settle] at h
      split at h
      · obtain ⟨values', -, hs⟩ := bind_eq_ok_iff.1 h
        exact ih hknown.tail hs
      · cases h
        exact hknown

/-- With one value more than operators, settling fails only where an operator does. -/
theorem fails_of_settle {k : Nat} {pending : List Pending} (hknown : Known pending)
    {values : List β} {fault : Fault} (hl : values.length = operators pending + 1)
    (h : settle A k pending values = .error fault) : A.Fails fault := by
  induction pending generalizing values with
  | nil => cases h
  | cons top rest ih =>
    cases top with
    | grouper g => cases h
    | operator op =>
      rw [settle] at h
      rw [operators] at hl
      split at h
      · cases hr : reduce A op values with
        | error f =>
          rw [hr] at h
          cases h
          exact fails_of_reduce (hknown op List.mem_cons_self) (by omega) hr
        | ok values' =>
          rw [hr] at h
          have hlen := length_of_reduce hr
          exact ih hknown.tail (by omega) h
      · cases h

theorem settle_zero_cases {pending : List Pending} {values : List β} {s : List Pending × List β}
    (h : settle A 0 pending values = .ok s) :
    s.1 = [] ∨ ∃ g rest, s.1 = .grouper g :: rest := by
  induction pending generalizing values with
  | nil =>
    cases h
    exact .inl rfl
  | cons top rest ih =>
    cases top with
    | grouper g =>
      cases h
      exact .inr ⟨g, rest, rfl⟩
    | operator op =>
      rw [settle, if_pos (Nat.zero_le _)] at h
      obtain ⟨values', _, hs⟩ := bind_eq_ok_iff.1 h
      exact ih hs

/-! ## Following a walk -/

/-- The state of a reduction belongs to a place of a walk. -/
structure Follows (p : Token.Place) (r : Reducer β) : Prop where
  expecting : r.expecting = p.expecting
  groups : groupers r.pending = List.replicate p.depth ⟨'('⟩
  count : r.values.length + p.expecting.toNat = operators r.pending + 1
  known : Known r.pending

theorem follows_start : Follows .start (start : Reducer β) :=
  ⟨rfl, rfl, rfl, fun _ h => absurd h List.not_mem_nil⟩

section Push

variable {p p' : Token.Place} {r r' : Reducer β} {fault : Fault}

theorem Follows.push_operand_ok (h : Follows p r) {a : α}
    (hr : r.push A leaf text (.operand a) = .ok r') :
    ∃ p', p.step text (.operand a) = .ok p' ∧ Follows p' r' := by
  obtain ⟨e, d⟩ := p
  have he : r.expecting = e := h.expecting
  rw [push] at hr
  cases e with
  | false => rw [if_neg (by rw [he]; exact Bool.false_ne_true)] at hr; cases hr
  | true =>
    rw [if_pos he] at hr
    cases hr
    exact ⟨⟨false, d⟩, rfl, rfl, h.groups, h.count, h.known⟩

theorem Follows.push_operator_ok (h : Follows p r) {op : Operator}
    (hop : Fragment.isOperator op.symbol = true)
    (hr : r.push A leaf text (.operator op) = .ok r') :
    ∃ p', p.step text (.operator op) = .ok p' ∧ Follows p' r' := by
  obtain ⟨e, d⟩ := p
  have he : r.expecting = e := h.expecting
  have hcount := h.count
  cases e with
  | false =>
    rw [push_operator_of_not_expecting he] at hr
    obtain ⟨s, hs, hr⟩ := bind_eq_ok_iff.1 hr
    cases hr
    obtain ⟨hlen, hgroups⟩ := count_of_settle hs
    have hknown := (known_of_settle h.known hs).operator hop
    refine ⟨⟨true, d⟩, rfl, rfl, hgroups.trans h.groups, ?_, hknown⟩
    simp only [Bool.toNat_false, Nat.add_zero] at hcount
    simp only [operators, Bool.toNat_true]
    omega
  | true =>
    rw [push, pushOperator, if_pos he] at hr
    simp only [Token.Place.step, if_true]
    by_cases hm : op.symbol = '-'
    · simp only [hm, beq_self_eq_true, if_true, Bool.true_or, Except.ok.injEq] at hr ⊢
      subst hr
      refine ⟨_, rfl, he, h.groups, ?_, h.known.operator hop⟩
      simp only [List.length_cons, operators, Bool.toNat_true] at hcount ⊢
      omega
    · by_cases hp : op.symbol = '+'
      · simp only [hp] at hr ⊢
        cases hr
        exact ⟨_, rfl, h⟩
      · simp [hm, hp] at hr

theorem Follows.push_opening_ok (h : Follows p r) {g : Grouper} (hg : g.isOpening = true)
    (hr : r.push A leaf text (.grouper g) = .ok r') :
    ∃ p', p.step text (.grouper g) = .ok p' ∧ Follows p' r' := by
  obtain ⟨e, d⟩ := p
  have he : r.expecting = e := h.expecting
  rw [push, pushGrouper, if_pos hg] at hr
  cases e with
  | false => rw [if_neg (by rw [he]; exact Bool.false_ne_true)] at hr; cases hr
  | true =>
    rw [if_pos he] at hr
    cases hr
    refine ⟨⟨true, d + 1⟩, by simp [Token.Place.step, hg], he, ?_, h.count, h.known.grouper g⟩
    rw [groupers, h.groups, Grouper.eq_opening hg]
    rfl

/-- A closing symbol is taken exactly when the group it closes is open. -/
theorem Follows.push_closing_ok (h : Follows p r)
    (hr : r.push A leaf text (.grouper ⟨')'⟩) = .ok r') :
    ∃ p', p.step text (.grouper ⟨')'⟩) = .ok p' ∧ Follows p' r' := by
  obtain ⟨e, d⟩ := p
  have he : r.expecting = e := h.expecting
  cases e with
  | true => rw [push, pushGrouper, if_neg (by decide), if_pos he] at hr; cases hr
  | false =>
    rw [push_closing_of_not_expecting he] at hr
    obtain ⟨s, hs, hr⟩ := bind_eq_ok_iff.1 hr
    obtain ⟨hlen, hgroups⟩ := count_of_settle hs
    obtain ⟨pending, values⟩ := s
    rcases settle_zero_cases hs with h0 | ⟨g, rest, h0⟩ <;> simp only at h0 <;> subst h0
    · cases hr
    · rw [h.groups, groupers] at hgroups
      cases d with
      | zero => cases hgroups
      | succ d =>
        rw [List.replicate_succ, List.cons.injEq] at hgroups
        obtain ⟨rfl, hrest⟩ := hgroups
        cases hr
        have hcount := h.count
        refine ⟨⟨false, d⟩, rfl, rfl, hrest, ?_, (known_of_settle h.known hs).tail⟩
        simp only [operators, Bool.toNat_false, Nat.add_zero] at hcount hlen ⊢
        omega

theorem Follows.push_ok (h : Follows p r) {t : Token α} (ht : t.IsKnown)
    (hr : r.push A leaf text t = .ok r') : ∃ p', p.step text t = .ok p' ∧ Follows p' r' := by
  cases t with
  | operand a => exact h.push_operand_ok hr
  | operator op => exact h.push_operator_ok ht hr
  | grouper g =>
    cases hg : g.isOpening with
    | true => exact h.push_opening_ok hg hr
    | false =>
      obtain rfl := Grouper.eq_closing ht hg
      exact h.push_closing_ok hr

/-- A closing symbol that the walk takes finds its group open. -/
theorem Follows.push_closing_error {d : Nat} (h : Follows ⟨false, d + 1⟩ r)
    (hr : r.push A leaf text (.grouper ⟨')'⟩) = .error fault) : A.Fails fault := by
  have hcount : r.values.length = operators r.pending + 1 := h.count
  rw [push_closing_of_not_expecting h.expecting] at hr
  cases hs : settle A 0 r.pending r.values with
  | error f =>
    rw [hs] at hr
    cases hr
    exact fails_of_settle h.known hcount hs
  | ok s =>
    have hgroups := (count_of_settle hs).2.trans h.groups
    obtain ⟨pending, values⟩ := s
    rw [hs] at hr
    rcases settle_zero_cases hs with h0 | ⟨g, rest, h0⟩ <;> simp only at h0 <;> subst h0
    · cases hgroups
    · rw [groupers, List.replicate_succ, List.cons.injEq] at hgroups
      obtain ⟨rfl, _⟩ := hgroups
      cases hr

/-- At a token that the walk takes, the reduction fails only where an operator does. -/
theorem Follows.push_error (h : Follows p r) {t : Token α} (ht : t.IsKnown)
    (hp : p.step text t = .ok p') (hr : r.push A leaf text t = .error fault) : A.Fails fault := by
  obtain ⟨e, d⟩ := p
  have he : r.expecting = e := h.expecting
  cases t with
  | operand a =>
    cases e with
    | false => cases hp
    | true => rw [push, if_pos he] at hr; cases hr
  | operator op =>
    cases e with
    | false =>
      rw [push_operator_of_not_expecting he] at hr
      cases hs : settle A op.tightness r.pending r.values with
      | error f =>
        rw [hs] at hr
        cases hr
        exact fails_of_settle h.known h.count hs
      | ok s => rw [hs] at hr; cases hr
    | true =>
      -- only signs are taken where an operand is due, and they apply nothing
      simp only [Token.Place.step, if_true] at hp
      rw [push, pushOperator, if_pos he] at hr
      by_cases hm : op.symbol = '-'
      · simp [hm] at hr
      · by_cases hs : op.symbol = '+'
        · simp [hs] at hr
        · simp [hm, hs] at hp
  | grouper g =>
    cases hg : g.isOpening with
    | true =>
      cases e with
      | false => simp [Token.Place.step, hg] at hp
      | true => rw [push, pushGrouper, if_pos hg, if_pos he] at hr; cases hr
    | false =>
      obtain rfl := Grouper.eq_closing ht hg
      cases e with
      | true => cases d <;> cases hp
      | false =>
        cases d with
        | zero => cases hp
        | succ d => exact h.push_closing_error hr

/-! ## Whole sequences -/

theorem Follows.takeAll_ok {ts : List (Token α)} (h : Follows p r) (hts : ∀ t ∈ ts, t.IsKnown)
    (hr : takeAll A leaf text ts r = .ok r') : ∃ p', p.walk text ts = .ok p' ∧ Follows p' r' := by
  induction ts generalizing p r with
  | nil =>
    cases hr
    exact ⟨p, rfl, h⟩
  | cons t ts ih =>
    obtain ⟨r₁, hr₁, hr⟩ := bind_eq_ok_iff.1 hr
    obtain ⟨p₁, hp₁, h₁⟩ := h.push_ok (hts t (by simp)) hr₁
    obtain ⟨p', hp', h'⟩ := ih h₁ (fun t ht => hts t (by simp [ht])) hr
    exact ⟨p', by rw [Token.Place.walk, hp₁]; exact hp', h'⟩

theorem Follows.takeAll_error {ts : List (Token α)} (h : Follows p r)
    (hts : ∀ t ∈ ts, t.IsKnown) (hp : p.walk text ts = .ok p')
    (hr : takeAll A leaf text ts r = .error fault) : A.Fails fault := by
  induction ts generalizing p r with
  | nil => cases hr
  | cons t ts ih =>
    have ht := hts t (by simp)
    rw [takeAll_cons] at hr
    rw [Token.Place.walk] at hp
    cases hp₁ : p.step text t with
    | error f => rw [hp₁] at hp; cases hp
    | ok p₁ =>
      rw [hp₁] at hp
      cases hr₁ : r.push A leaf text t with
      | error f =>
        rw [hr₁] at hr
        cases hr
        exact h.push_error ht hp₁ hr₁
      | ok r₁ =>
        rw [hr₁] at hr
        obtain ⟨p₂, hp₂, h₂⟩ := h.push_ok ht hr₁
        obtain rfl : p₁ = p₂ := Except.ok.inj (hp₁.symm.trans hp₂)
        exact ih h₂ (fun t ht => hts t (by simp [ht])) hp hr

/-- A reduction ends with a value only where the walk ends well. -/
theorem Follows.finish_ok {v : β} (h : Follows p r) (hr : r.finish A = .ok v) :
    p = ⟨false, 0⟩ := by
  obtain ⟨e, d⟩ := p
  have hcount := h.count
  rw [finish_eq_settle] at hr
  obtain ⟨⟨pending, values⟩, hs, hr⟩ := bind_eq_ok_iff.1 hr
  obtain ⟨values', hd, hv⟩ := bind_eq_ok_iff.1 hr
  obtain ⟨hlen, hgroups⟩ := count_of_settle hs
  rw [h.groups] at hgroups
  rcases settle_zero_cases hs with h0 | ⟨g, rest, h0⟩ <;> simp only at h0 <;> subst h0
  · cases hd
    match values, hv with
    | [v'], _ =>
      cases d with
      | succ d => cases hgroups
      | zero =>
        cases e with
        | false => rfl
        | true =>
          simp only [operators, List.length_singleton, Bool.toNat_true] at hlen hcount
          omega
  · cases hd

theorem Follows.finish_error (h : Follows ⟨false, 0⟩ r) (hr : r.finish A = .error fault) :
    A.Fails fault := by
  have hcount : r.values.length = operators r.pending + 1 := h.count
  rw [finish_eq_settle] at hr
  cases hs : settle A 0 r.pending r.values with
  | error f =>
    rw [hs] at hr
    cases hr
    exact fails_of_settle h.known hcount hs
  | ok s =>
    obtain ⟨pending, values⟩ := s
    obtain ⟨hlen, hgroups⟩ := count_of_settle hs
    rw [hs] at hr
    rw [h.groups] at hgroups
    rcases settle_zero_cases hs with h0 | ⟨g, rest, h0⟩ <;> simp only at h0 <;> subst h0
    · simp only [operators] at hlen
      obtain ⟨v, rfl⟩ := List.length_eq_one_iff.1 (show values.length = 1 by omega)
      cases hr
    · cases hgroups

end Push

/-- Known tokens are reduced to a value exactly when they are well ordered, if every operator can
be applied. -/
theorem reduceAll_iff_checkOrder (hA : ∀ fault, ¬ A.Gives fault) {ts : List (Token α)}
    (hts : ∀ t ∈ ts, t.IsKnown) :
    Token.checkOrder text ts = .ok () ↔ ∃ v, reduceAll A leaf text ts = .ok v := by
  rw [Token.checkOrder_eq_ok_iff_endsWell]
  unfold Token.EndsWell
  constructor
  · intro hwalk
    cases hr : takeAll A leaf text ts .start with
    | error fault => exact absurd (follows_start.takeAll_error hts hwalk hr).gives (hA fault)
    | ok r =>
      obtain ⟨p, hp, h⟩ := follows_start.takeAll_ok hts hr
      obtain rfl : (⟨false, 0⟩ : Token.Place) = p := Except.ok.inj (hwalk.symm.trans hp)
      cases hv : r.finish A with
      | error fault => exact absurd (h.finish_error hv).gives (hA fault)
      | ok v => exact ⟨v, by rw [reduceAll, hr, ok_bind, hv]⟩
  · rintro ⟨v, hv⟩
    obtain ⟨r, hr, hv⟩ := bind_eq_ok_iff.1 hv
    obtain ⟨p, hp, h⟩ := follows_start.takeAll_ok hts hr
    rw [hp, h.finish_ok hv]

end Reducer

end Reckoner
