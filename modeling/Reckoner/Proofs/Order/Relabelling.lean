import Reckoner.Proofs.Order.Phrase

/-!
# Tokens over other operands

Operands can be replaced in a token sequence (`Token.map`).  Order and grouping do not depend on
what the operands are: the walk over a sequence is the same (`Token.walk_map`), and what is written
by a phrase after the replacement was written by one before (`Phrase.exists_of_map`).
-/

namespace Reckoner

variable {α β : Type}

def Token.map (f : α → β) : Token α → Token β
  | .operand a => .operand (f a)
  | .operator op => .operator op
  | .grouper g => .grouper g

namespace Token

variable {f : α → β} {ts : List (Token α)} {us : List (Token β)}

@[simp] theorem map_operator (op : Operator) : (Token.operator op : Token α).map f = .operator op :=
  rfl

@[simp] theorem map_grouper (g : Grouper) : (Token.grouper g : Token α).map f = .grouper g := rfl

theorem map_eq_operand_cons_iff {b : β} : ts.map (map f) = .operand b :: us ↔
    ∃ a vs, ts = .operand a :: vs ∧ f a = b ∧ vs.map (map f) = us := by
  rw [List.map_eq_cons_iff]
  constructor
  · rintro ⟨t, vs, rfl, ht, hvs⟩
    cases t with
    | operand a => exact ⟨a, vs, rfl, Token.operand.inj ht, hvs⟩
    | operator op => cases ht
    | grouper g => cases ht
  · rintro ⟨a, vs, rfl, rfl, hvs⟩
    exact ⟨_, vs, rfl, rfl, hvs⟩

theorem map_eq_operator_cons_iff {op : Operator} : ts.map (map f) = .operator op :: us ↔
    ∃ vs, ts = .operator op :: vs ∧ vs.map (map f) = us := by
  rw [List.map_eq_cons_iff]
  constructor
  · rintro ⟨t, vs, rfl, ht, hvs⟩
    cases t <;> cases ht
    exact ⟨vs, rfl, hvs⟩
  · rintro ⟨vs, rfl, hvs⟩
    exact ⟨_, vs, rfl, rfl, hvs⟩

theorem map_eq_grouper_cons_iff {g : Grouper} : ts.map (map f) = .grouper g :: us ↔
    ∃ vs, ts = .grouper g :: vs ∧ vs.map (map f) = us := by
  rw [List.map_eq_cons_iff]
  constructor
  · rintro ⟨t, vs, rfl, ht, hvs⟩
    cases t <;> cases ht
    exact ⟨vs, rfl, hvs⟩
  · rintro ⟨vs, rfl, hvs⟩
    exact ⟨_, vs, rfl, rfl, hvs⟩

theorem exists_of_map_eq_group
    (h : ts.map (map f) = .grouper ⟨'('⟩ :: (us ++ [.grouper ⟨')'⟩])) :
    ∃ vs, ts = .grouper ⟨'('⟩ :: (vs ++ [.grouper ⟨')'⟩]) ∧ vs.map (map f) = us := by
  obtain ⟨_, rfl, hrest⟩ := map_eq_grouper_cons_iff.1 h
  obtain ⟨vs, _, rfl, hvs, hlast⟩ := List.map_eq_append_iff.1 hrest
  obtain ⟨_, rfl, hnil⟩ := map_eq_grouper_cons_iff.1 hlast
  rw [List.map_eq_nil_iff.1 hnil]
  exact ⟨vs, rfl, hvs⟩

theorem exists_of_map_eq_join {us' : List (Token β)} {op : Operator}
    (h : ts.map (map f) = us ++ .operator op :: us') :
    ∃ vs vs', ts = vs ++ .operator op :: vs' ∧ vs.map (map f) = us ∧ vs'.map (map f) = us' := by
  obtain ⟨vs, _, rfl, hvs, hjoin⟩ := List.map_eq_append_iff.1 h
  obtain ⟨vs', rfl, hvs'⟩ := map_eq_operator_cons_iff.1 hjoin
  exact ⟨vs, vs', rfl, hvs, hvs'⟩

/-! ## Order -/

theorem isKnown_map {t : Token α} : (t.map f).IsKnown ↔ t.IsKnown := by
  cases t <;> rfl

theorem walk_map (text : β → String) (ts : List (Token α)) (p : Place) :
    p.walk text (ts.map (map f)) = p.walk (fun a => text (f a)) ts := by
  induction ts generalizing p with
  | nil => rfl
  | cons t ts ih =>
    have hstep : p.step text (t.map f) = p.step (fun a => text (f a)) t := by
      cases t <;> rfl
    rw [List.map_cons, Place.walk, Place.walk, hstep]
    cases p.step (fun a => text (f a)) t with
    | error fault => rfl
    | ok q => exact ih q

theorem checkOrder_map (text : β → String) (ts : List (Token α)) :
    checkOrder text (ts.map (map f)) = checkOrder (fun a => text (f a)) ts := by
  unfold checkOrder
  rw [walk_map]

end Token

/-! ## Grouping -/

theorem Phrase.exists_of_map {f : α → β} {r : Rank} {b : Bool} (q : Phrase β r b)
    {ts : List (Token α)} (h : ts.map (Token.map f) = q.tokens) :
    ∃ p : Phrase α r b, p.tokens = ts := by
  induction q generalizing ts with
  | operand b =>
    obtain ⟨a, _, rfl, -, hrest⟩ := Token.map_eq_operand_cons_iff.1 h
    rw [List.map_eq_nil_iff.1 hrest]
    exact ⟨.operand a, rfl⟩
  | group e ih =>
    obtain ⟨vs, rfl, hvs⟩ := Token.exists_of_map_eq_group h
    obtain ⟨p, rfl⟩ := ih hvs
    exact ⟨.group p, rfl⟩
  | plus a ih =>
    obtain ⟨vs, rfl, hvs⟩ := Token.map_eq_operator_cons_iff.1 h
    obtain ⟨p, rfl⟩ := ih hvs
    exact ⟨.plus p, rfl⟩
  | minus t ih =>
    obtain ⟨vs, rfl, hvs⟩ := Token.map_eq_operator_cons_iff.1 h
    obtain ⟨p, rfl⟩ := ih hvs
    exact ⟨.minus p, rfl⟩
  | atom a ih =>
    obtain ⟨p, rfl⟩ := ih h
    exact ⟨.atom p, rfl⟩
  | power f a ihf iha =>
    obtain ⟨vs, vs', rfl, hvs, hvs'⟩ := Token.exists_of_map_eq_join h
    obtain ⟨p, rfl⟩ := ihf hvs
    obtain ⟨p', rfl⟩ := iha hvs'
    exact ⟨.power p p', rfl⟩
  | factor f ih =>
    obtain ⟨p, rfl⟩ := ih h
    exact ⟨.factor p, rfl⟩
  | product t op tight f iht ihf =>
    obtain ⟨vs, vs', rfl, hvs, hvs'⟩ := Token.exists_of_map_eq_join h
    obtain ⟨p, rfl⟩ := iht hvs
    obtain ⟨p', rfl⟩ := ihf hvs'
    exact ⟨.product p op tight p', rfl⟩
  | term t ih =>
    obtain ⟨p, rfl⟩ := ih h
    exact ⟨.term p, rfl⟩
  | sum e op loose t ihe iht =>
    obtain ⟨vs, vs', rfl, hvs, hvs'⟩ := Token.exists_of_map_eq_join h
    obtain ⟨p, rfl⟩ := ihe hvs
    obtain ⟨p', rfl⟩ := iht hvs'
    exact ⟨.sum p op loose p', rfl⟩

end Reckoner
