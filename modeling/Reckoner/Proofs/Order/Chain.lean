import Mathlib.Tactic.Common
import Reckoner.Fragment.Basic
import Reckoner.Operand.Order

/-!
# Well ordered token sequences as chains

A chain is a run of signed operands joined by operators, where a group counts as one operand.
`checkOrder_eq_ok_iff`: the walk over a token sequence accepts exactly the chains.

1. Walking over a chain turns "an operand is due" into "no operand is due" at the same depth
   (`Chain.walk_append`).
2. Conversely, a walk that ends well starts with a signed operand (`exists_signed`) and, up to the
   end or to the symbol that closes the group it is in, with a chain (`joinedBelow`).
-/

namespace Reckoner

theorem Grouper.eq_opening {g : Grouper} (h : g.isOpening = true) : g = ⟨'('⟩ := by
  obtain ⟨c⟩ := g
  simpa [isOpening] using h

theorem Grouper.eq_closing {g : Grouper} (hk : Fragment.isGrouper g.symbol = true)
    (h : g.isOpening = false) : g = ⟨')'⟩ := by
  obtain ⟨c⟩ := g
  simp only [Fragment.isGrouper, Bool.or_eq_true, beq_iff_eq] at hk
  simp only [isOpening, beq_eq_false_iff_ne] at h
  simpa [h] using hk

namespace Token

variable {α : Type}

/-- Tokens over the operators and grouping symbols that mean something. -/
def IsKnown : Token α → Prop
  | .operand _ => True
  | .operator op => Fragment.isOperator op.symbol = true
  | .grouper g => Fragment.isGrouper g.symbol = true

instance instDecidableIsKnown : (t : Token α) → Decidable t.IsKnown
  | .operand _ => inferInstanceAs (Decidable True)
  | .operator op => inferInstanceAs (Decidable (Fragment.isOperator op.symbol = true))
  | .grouper g => inferInstanceAs (Decidable (Fragment.isGrouper g.symbol = true))

/-- What a piece of a token sequence is read as. -/
inductive Reading where
  | signed
  | joined
deriving DecidableEq

/-- Signed operands, and signed operands joined by operators. -/
inductive Chain : Reading → List (Token α) → Prop where
  | operand (a : α) : Chain .signed [.operand a]
  | group {g k : Grouper} {ts : List (Token α)} (opens : g.isOpening = true)
      (closes : k.isOpening = false) (inner : Chain .joined ts) :
      Chain .signed (.grouper g :: (ts ++ [.grouper k]))
  | sign {op : Operator} {ts : List (Token α)} (isSign : op.symbol = '-' ∨ op.symbol = '+')
      (rest : Chain .signed ts) : Chain .signed (.operator op :: ts)
  | last {ts : List (Token α)} (only : Chain .signed ts) : Chain .joined ts
  | join {ts us : List (Token α)} (left : Chain .signed ts) (op : Operator)
      (right : Chain .joined us) : Chain .joined (ts ++ .operator op :: us)

theorem Chain.exists_operand {r : Reading} {ts : List (Token α)} (h : Chain r ts) :
    ∃ a, .operand a ∈ ts := by
  induction h with
  | operand a => exact ⟨a, List.mem_singleton_self _⟩
  | group _ _ _ ih =>
    obtain ⟨a, ha⟩ := ih
    exact ⟨a, List.mem_cons_of_mem _ (List.mem_append_left _ ha)⟩
  | sign _ _ ih =>
    obtain ⟨a, ha⟩ := ih
    exact ⟨a, List.mem_cons_of_mem _ ha⟩
  | last _ ih => exact ih
  | join _ _ _ ih _ =>
    obtain ⟨a, ha⟩ := ih
    exact ⟨a, List.mem_append_left _ ha⟩

/-! ## Steps of a walk -/

section Steps

variable (text : α → String) (d : Nat) (ts : List (Token α))

theorem walk_operand_due (a : α) :
    Place.walk text ⟨true, d⟩ (.operand a :: ts) = Place.walk text ⟨false, d⟩ ts := rfl

theorem walk_opening_due {g : Grouper} (hg : g.isOpening = true) :
    Place.walk text ⟨true, d⟩ (.grouper g :: ts) = Place.walk text ⟨true, d + 1⟩ ts := by
  simp [Place.walk, Place.step, hg]

theorem walk_closing {g : Grouper} (hg : g.isOpening = false) :
    Place.walk text ⟨false, d + 1⟩ (.grouper g :: ts) = Place.walk text ⟨false, d⟩ ts := by
  simp [Place.walk, Place.step, hg]

theorem walk_sign {op : Operator} (hop : op.symbol = '-' ∨ op.symbol = '+') :
    Place.walk text ⟨true, d⟩ (.operator op :: ts) = Place.walk text ⟨true, d⟩ ts := by
  rcases hop with hop | hop <;> simp [Place.walk, Place.step, hop]

theorem walk_operator (op : Operator) :
    Place.walk text ⟨false, d⟩ (.operator op :: ts) = Place.walk text ⟨true, d⟩ ts := rfl

end Steps

/-! ## Chains are accepted -/

theorem Chain.walk_append {r : Reading} {ts : List (Token α)} (h : Chain r ts) (text : α → String)
    (d : Nat) (rest : List (Token α)) :
    Place.walk text ⟨true, d⟩ (ts ++ rest) = Place.walk text ⟨false, d⟩ rest := by
  induction h generalizing d rest with
  | operand a => exact walk_operand_due text d rest a
  | group opens closes _ ih =>
    rw [List.cons_append, walk_opening_due text d _ opens, List.append_assoc, ih]
    exact walk_closing text d rest closes
  | sign isSign _ ih => rw [List.cons_append, walk_sign text d _ isSign, ih]
  | last _ ih => exact ih d rest
  | join _ op _ ihl ihr => rw [List.append_assoc, ihl, List.cons_append, walk_operator, ihr]

/-! ## Accepted sequences are chains -/

/-- The walk over a sequence ends outside all groups with no operand due. -/
def EndsWell (text : α → String) (p : Place) (ts : List (Token α)) : Prop :=
  p.walk text ts = .ok ⟨false, 0⟩

/-- What can follow a chain in a walk that ends well: nothing, or the end of the group. -/
def Closed (text : α → String) (d : Nat) (ts : List (Token α)) : Prop :=
  (d = 0 ∧ ts = []) ∨ ∃ (k : Grouper) (d' : Nat) (rest : List (Token α)),
    k.isOpening = false ∧ d = d' + 1 ∧ ts = .grouper k :: rest ∧ EndsWell text ⟨false, d'⟩ rest

/-- With no operand due, an operator follows or the chain has ended. -/
theorem EndsWell.cases {text : α → String} {d : Nat} {ts : List (Token α)}
    (h : EndsWell text ⟨false, d⟩ ts) :
    (∃ (op : Operator) (us : List (Token α)),
        ts = .operator op :: us ∧ EndsWell text ⟨true, d⟩ us) ∨
      Closed text d ts := by
  unfold EndsWell at h
  match ts, h with
  | [], h =>
    simp only [Place.walk, Except.ok.injEq, Place.mk.injEq] at h
    exact .inr (.inl ⟨h.2, rfl⟩)
  | .operand a :: us, h => simp [Place.walk, Place.step] at h
  | .operator op :: us, h =>
    rw [walk_operator] at h
    exact .inl ⟨op, us, rfl, h⟩
  | .grouper g :: us, h =>
    cases hg : g.isOpening with
    | true => simp [Place.walk, Place.step, hg] at h
    | false =>
      cases d with
      | zero => simp [Place.walk, Place.step, hg] at h
      | succ d =>
        rw [walk_closing text d us hg] at h
        exact .inr (.inr ⟨g, d, us, hg, rfl, rfl, h⟩)

/-- Every walk over fewer than `n` tokens that ends well and has an operand due starts with a chain
that is followed by the end of the group. -/
def JoinedBelow (text : α → String) (n : Nat) : Prop :=
  ∀ (d : Nat) (ts : List (Token α)), ts.length < n → EndsWell text ⟨true, d⟩ ts →
    ∃ us rest, ts = us ++ rest ∧ Chain .joined us ∧ Closed text d rest

theorem sign_of_endsWell {text : α → String} {d : Nat} {op : Operator} {ts : List (Token α)}
    (h : EndsWell text ⟨true, d⟩ (.operator op :: ts)) : op.symbol = '-' ∨ op.symbol = '+' := by
  by_contra hop
  rw [not_or] at hop
  simp [EndsWell, Place.walk, Place.step, hop] at h

theorem opening_of_endsWell {text : α → String} {d : Nat} {g : Grouper} {ts : List (Token α)}
    (h : EndsWell text ⟨true, d⟩ (.grouper g :: ts)) : g.isOpening = true := by
  by_contra hg
  rw [Bool.not_eq_true] at hg
  cases d <;> simp [EndsWell, Place.walk, Place.step, hg] at h

/-- A walk that ends well and has an operand due starts with a signed operand. -/
theorem exists_signed {text : α → String} {d : Nat} {ts : List (Token α)}
    (hbelow : JoinedBelow text ts.length) (h : EndsWell text ⟨true, d⟩ ts) :
    ∃ us rest, ts = us ++ rest ∧ us ≠ [] ∧ Chain .signed us ∧ EndsWell text ⟨false, d⟩ rest := by
  induction ts with
  | nil => simp [EndsWell, Place.walk] at h
  | cons t ts ih =>
    cases t with
    | operand a => exact ⟨[.operand a], ts, rfl, by simp, .operand a, h⟩
    | operator op =>
      have hop := sign_of_endsWell h
      unfold EndsWell at h
      rw [walk_sign text d ts hop] at h
      obtain ⟨us, rest, rfl, _, hus, hrest⟩ :=
        ih (fun d' vs hvs => hbelow d' vs (Nat.lt_succ_of_lt hvs)) h
      exact ⟨.operator op :: us, rest, rfl, by simp, .sign hop hus, hrest⟩
    | grouper g =>
      have hg := opening_of_endsWell h
      unfold EndsWell at h
      rw [walk_opening_due text d ts hg] at h
      obtain ⟨us, rest, rfl, hus, hclosed⟩ := hbelow (d + 1) ts (Nat.lt_succ_self _) h
      rcases hclosed with ⟨h0, _⟩ | ⟨k, d', rest', hk, hd, rfl, hrest⟩
      · omega
      · obtain rfl : d = d' := by omega
        exact ⟨.grouper g :: (us ++ [.grouper k]), rest', by simp, by simp, .group hg hk hus, hrest⟩

theorem joinedBelow (text : α → String) (n : Nat) : JoinedBelow text n := by
  induction n with
  | zero => intro d ts hts; omega
  | succ n ih =>
    intro d ts hts h
    have hbelow : JoinedBelow text ts.length := fun d' us hus => ih d' us (by omega)
    obtain ⟨us, rest, rfl, hne, hus, hrest⟩ := exists_signed hbelow h
    rcases hrest.cases with ⟨op, vs, rfl, hvs⟩ | hclosed
    · have hlen := List.length_pos_iff.2 hne
      obtain ⟨ws, rest', rfl, hws, hclosed⟩ :=
        hbelow d vs (by rw [List.length_append, List.length_cons]; omega) hvs
      exact ⟨us ++ .operator op :: ws, rest', by simp, .join hus op hws, hclosed⟩
    · exact ⟨us, rest, rfl, .last hus, hclosed⟩

theorem finish_eq_ok_iff (p : Place) : p.finish = .ok () ↔ p = ⟨false, 0⟩ := by
  obtain ⟨e, d⟩ := p
  unfold Place.finish
  cases e <;> cases d <;> simp

theorem checkOrder_eq_ok_iff_endsWell (text : α → String) (ts : List (Token α)) :
    checkOrder text ts = .ok () ↔ EndsWell text .start ts := by
  unfold checkOrder EndsWell
  cases Place.start.walk text ts with
  | error fault => simp
  | ok p => simp [finish_eq_ok_iff]

/-- **Order.** The order check accepts exactly the chains. -/
theorem checkOrder_eq_ok_iff (text : α → String) (ts : List (Token α)) :
    checkOrder text ts = .ok () ↔ Chain .joined ts := by
  rw [checkOrder_eq_ok_iff_endsWell]
  constructor
  · intro h
    obtain ⟨us, rest, rfl, hus, hclosed⟩ :=
      joinedBelow text (ts.length + 1) 0 ts (Nat.lt_succ_self _) h
    rcases hclosed with ⟨_, rfl⟩ | ⟨_, _, _, _, h0, _⟩
    · rwa [List.append_nil]
    · omega
  · intro h
    have hwalk := h.walk_append text 0 []
    rwa [List.append_nil] at hwalk

end Token

end Reckoner
