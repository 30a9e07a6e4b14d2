import Reckoner.Proofs.Evaluation.Fold
import Reckoner.Proofs.Order.Relabelling
import Reckoner.Proofs.Reduction.Run

/-!
# Evaluating an expression is evaluating its operands and then reducing

Evaluation takes the operands of an expression from the left and applies operators in between.  An
operand may add to memory or draw random numbers, so equal operands need not have equal values and a
value belongs to a place in the sequence.

1. `Evaluation.Valued`: tokens whose operands carry the values that they have in turn.
2. An expression has a value exactly when its operands have values and the sequence of these values
   is reduced to it (`Evaluation.run_expression_eq_ok_iff`): applying operators changes nothing
   and reads only the numerics, which operands leave as they are.
-/

namespace Reckoner

namespace Evaluation

/-! ## Tokens with values -/

/-- An operand with a value. -/
abbrev Worth := Operand × Number

abbrev bare (us : List (Token Worth)) : List (Token Operand) := us.map (Token.map Prod.fst)

/-- The operands of tokens, evaluated in turn from the left, have the values that they carry. -/
inductive Valued : List (Token Worth) → Context → Context → Prop where
  | done (c : Context) : Valued [] c c
  | operand {o : Operand} {v : Number} {us : List (Token Worth)} {c d e : Context}
      (value : o.evaluate.run c = (.ok v, d)) (rest : Valued us d e) :
      Valued (.operand (o, v) :: us) c e
  | operator (op : Operator) {us : List (Token Worth)} {c d : Context} (rest : Valued us c d) :
      Valued (.operator op :: us) c d
  | grouper (g : Grouper) {us : List (Token Worth)} {c d : Context} (rest : Valued us c d) :
      Valued (.grouper g :: us) c d

namespace Valued

variable {us vs : List (Token Worth)} {c d e : Context}

@[simp] theorem operator_iff {op : Operator} : Valued (.operator op :: us) c d ↔ Valued us c d :=
  ⟨fun h => by cases h; assumption, .operator op⟩

@[simp] theorem grouper_iff {g : Grouper} : Valued (.grouper g :: us) c d ↔ Valued us c d :=
  ⟨fun h => by cases h; assumption, .grouper g⟩

theorem append_iff : Valued (us ++ vs) c e ↔ ∃ d, Valued us c d ∧ Valued vs d e := by
  constructor
  · intro h
    induction us generalizing c with
    | nil => exact ⟨c, .done c, h⟩
    | cons u us ih =>
      cases h with
      | operand value rest =>
        obtain ⟨d, hus, hvs⟩ := ih rest
        exact ⟨d, .operand value hus, hvs⟩
      | operator op rest =>
        obtain ⟨d, hus, hvs⟩ := ih rest
        exact ⟨d, .operator op hus, hvs⟩
      | grouper g rest =>
        obtain ⟨d, hus, hvs⟩ := ih rest
        exact ⟨d, .grouper g hus, hvs⟩
  · rintro ⟨d, hus, hvs⟩
    induction hus with
    | done c => exact hvs
    | operand value _ ih => exact .operand value (ih hvs)
    | operator op _ ih => exact .operator op (ih hvs)
    | grouper g _ ih => exact .grouper g (ih hvs)

theorem grows (h : Valued us c d) : c.Grows d := by
  induction h with
  | done c => exact .refl c
  | operand value _ ih => exact (Operand.grows_of_run value).trans ih
  | operator _ _ ih => exact ih
  | grouper _ _ ih => exact ih

theorem unique (h : Valued us c d) (h' : Valued vs c e) (hbare : bare vs = bare us) :
    vs = us ∧ e = d := by
  induction h generalizing vs with
  | done c =>
    obtain rfl : vs = [] := List.map_eq_nil_iff.1 hbare
    cases h'
    exact ⟨rfl, rfl⟩
  | operand value _ ih =>
    obtain ⟨⟨_, v⟩, ws, rfl, rfl, hws⟩ := Token.map_eq_operand_cons_iff.1 hbare
    cases h' with
    | operand value' rest' =>
      obtain ⟨hv, rfl⟩ := Prod.mk.inj (value'.symm.trans value)
      obtain ⟨rfl, rfl⟩ := ih rest' hws
      exact ⟨by rw [Except.ok.inj hv], rfl⟩
  | operator op _ ih =>
    obtain ⟨ws, rfl, hws⟩ := Token.map_eq_operator_cons_iff.1 hbare
    obtain ⟨rfl, rfl⟩ := ih (operator_iff.1 h') hws
    exact ⟨rfl, rfl⟩
  | grouper g _ ih =>
    obtain ⟨ws, rfl, hws⟩ := Token.map_eq_grouper_cons_iff.1 hbare
    obtain ⟨rfl, rfl⟩ := ih (grouper_iff.1 h') hws
    exact ⟨rfl, rfl⟩

end Valued

/-! ## Evaluation and reduction -/

def Worth.text (u : Worth) : String := u.1.text

theorem exists_evalAt_eq (levels : Nat) : ∃ call, evalAt levels = evalOperand call := by
  cases levels with
  | zero => exact ⟨_, rfl⟩
  | succ levels => exact ⟨_, rfl⟩

section

variable {call : String → List Operand → Action Number} {levels : Nat} {ts : List (Token Operand)}
  {c d : Context} {r r' : Reducer Number}

/-- Taking tokens from a reduction on is evaluating their operands and taking the values. -/
def Replays (call : String → List Operand → Action Number) (ts : List (Token Operand))
    (c d : Context) (r r' : Reducer Number) : Prop :=
  (evalTokens call ts r).run c = (.ok r', d) ↔ ∃ us, bare us = ts ∧ Valued us c d ∧
    r.takeAll (algebra c.numerics) Prod.snd Worth.text us = .ok r'

/-- A token that is not an operand is taken alike on both sides. -/
theorem replays_cons {t : Token Operand} {u : Token Worth}
    (hrun : (evalTokens call (t :: ts) r).run c =
      (Action.ofExcept (r.push (algebra c.numerics) Prod.snd Worth.text u) >>=
        evalTokens call ts).run c)
    (hbare : ∀ us, bare us = t :: ts ↔ ∃ vs, us = u :: vs ∧ bare vs = ts)
    (hvalued : ∀ us, Valued (u :: us) c d ↔ Valued us c d)
    (ih : ∀ r, Replays call ts c d r r') : Replays call (t :: ts) c d r r' := by
  unfold Replays at ih ⊢
  simp only [hrun, hbare]
  cases hpush : r.push (algebra c.numerics) Prod.snd Worth.text u with
  | error fault =>
    refine iff_of_false (fun h => by cases h) ?_
    rintro ⟨us, ⟨vs, rfl, -⟩, -, htake⟩
    rw [Reducer.takeAll_cons, hpush] at htake
    cases htake
  | ok r₁ =>
    rw [Action.run_ofExcept_ok_bind, ih r₁]
    constructor
    · rintro ⟨us, hus, hval, htake⟩
      refine ⟨_, ⟨us, rfl, hus⟩, (hvalued us).2 hval, ?_⟩
      rwa [Reducer.takeAll_cons, hpush, ok_bind]
    · rintro ⟨us, ⟨vs, rfl, hvs⟩, hval, htake⟩
      rw [Reducer.takeAll_cons, hpush, ok_bind] at htake
      exact ⟨vs, hvs, (hvalued vs).1 hval, htake⟩

/-- An operand is evaluated where one is due, and leaves the levels and the numerics as they
are. -/
theorem replays_operand_cons (hcall : evalAt levels = evalOperand call)
    (hlevels : c.levels = levels) {o : Operand}
    (ih : ∀ {c'}, c'.levels = levels → ∀ r, Replays call ts c' d r r') :
    Replays call (.operand o :: ts) c d r r' := by
  have hevaluate : o.evaluate.run c = (evalOperand call o).run c := by
    rw [Operand.evaluate, Action.run_context_bind, hlevels, hcall]
  have hrest : ∀ {v c'}, o.evaluate.run c = (.ok v, c') →
      ((evalTokens call ts (r.pushValue v)).run c' = (.ok r', d) ↔ ∃ us, bare us = ts ∧
        Valued us c' d ∧
          (r.pushValue v).takeAll (algebra c.numerics) Prod.snd Worth.text us = .ok r') := by
    intro v c' hv
    have hgrows := Operand.grows_of_run hv
    have hreplays := ih (hgrows.levels_eq.trans hlevels) (r.pushValue v)
    rwa [Replays, hgrows.numerics] at hreplays
  unfold Replays
  rw [evalTokens]
  by_cases hr : r.expecting = true
  · rw [if_pos hr]
    constructor
    · intro h
      rcases hrun : (evalOperand call o).run c with ⟨fault | v, c'⟩
      · rw [Action.run_bind_of_error hrun] at h
        cases h
      · rw [Action.run_bind_of_ok hrun] at h
        rw [← hevaluate] at hrun
        obtain ⟨us, hbare, hvalued, htake⟩ := (hrest hrun).1 h
        refine ⟨.operand (o, v) :: us, ?_, .operand hrun hvalued, ?_⟩
        · exact Token.map_eq_operand_cons_iff.2 ⟨(o, v), us, rfl, rfl, hbare⟩
        · rwa [Reducer.takeAll_cons, Reducer.push, if_pos hr, ok_bind]
    · rintro ⟨us, hbare, hvalued, htake⟩
      obtain ⟨⟨_, v⟩, vs, rfl, rfl, hvs⟩ := Token.map_eq_operand_cons_iff.1 hbare
      cases hvalued with
      | operand value rest =>
        rw [Action.run_bind_of_ok (hevaluate.symm.trans value), hrest value]
        rw [Reducer.takeAll_cons, Reducer.push, if_pos hr, ok_bind] at htake
        exact ⟨vs, hvs, rest, htake⟩
  · rw [if_neg hr]
    refine iff_of_false (fun h => by cases h) ?_
    rintro ⟨us, hbare, -, htake⟩
    obtain ⟨_, vs, rfl, -, -⟩ := Token.map_eq_operand_cons_iff.1 hbare
    rw [Reducer.takeAll_cons, Reducer.push, if_neg hr] at htake
    cases htake

theorem replays (hcall : evalAt levels = evalOperand call) (hlevels : c.levels = levels) :
    Replays call ts c d r r' := by
  induction ts generalizing c r with
  | nil =>
    unfold Replays
    rw [evalTokens, Action.run_pure]
    constructor
    · intro h
      cases h
      exact ⟨[], rfl, .done _, rfl⟩
    · rintro ⟨us, hbare, hvalued, htake⟩
      obtain rfl : us = [] := List.map_eq_nil_iff.1 hbare
      cases hvalued
      cases htake
      rfl
  | cons t ts ih =>
    cases t with
    | operand o => exact replays_operand_cons hcall hlevels fun h r => ih h
    | operator op =>
      refine replays_cons (u := .operator op) ?_ (fun us => ?_) (fun us => Valued.operator_iff)
        fun r => ih hlevels
      · rw [evalTokens]
        rfl
      · exact Token.map_eq_operator_cons_iff
    | grouper g =>
      refine replays_cons (u := .grouper g) ?_ (fun us => ?_) (fun us => Valued.grouper_iff)
        fun r => ih hlevels
      · rw [evalTokens]
        rfl
      · exact Token.map_eq_grouper_cons_iff

end

/-- **Replay.** An expression has a value exactly when its operands have values in turn and these
are reduced to it. -/
theorem run_expression_eq_ok_iff {ts : List (Token Operand)} {c d : Context} {v : Number} :
    (Operand.expression ts).evaluate.run c = (.ok v, d) ↔ ∃ us, bare us = ts ∧ Valued us c d ∧
      Reducer.reduceAll (algebra c.numerics) Prod.snd Worth.text us = .ok v := by
  obtain ⟨call, hcall⟩ := exists_evalAt_eq c.levels
  have hrun : (Operand.expression ts).evaluate.run c = (.ok v, d) ↔
      ∃ r, (evalTokens call ts .start).run c = (.ok r, d) ∧
        r.finish (algebra d.numerics) = .ok v := by
    rw [Operand.evaluate, Action.run_context_bind, hcall, evalOperand]
    rcases htokens : (evalTokens call ts .start).run c with ⟨fault | r, c'⟩
    · rw [Action.run_bind_of_error htokens]
      simp
    · rw [Action.run_bind_of_ok htokens, Action.run_context_bind, Action.run_ofExcept]
      constructor
      · intro h
        obtain ⟨hv, rfl⟩ := Prod.mk.inj h
        exact ⟨r, rfl, hv⟩
      · rintro ⟨r', h, hv⟩
        cases h
        rw [hv]
  rw [hrun]
  constructor
  · rintro ⟨r, hr, hv⟩
    obtain ⟨us, hbare, hvalued, htake⟩ := (replays hcall rfl).1 hr
    rw [hvalued.grows.numerics] at hv
    exact ⟨us, hbare, hvalued, bind_eq_ok_iff.2 ⟨r, htake, hv⟩⟩
  · rintro ⟨us, hbare, hvalued, hreduce⟩
    obtain ⟨r, htake, hv⟩ := bind_eq_ok_iff.1 hreduce
    refine ⟨r, (replays hcall rfl).2 ⟨us, hbare, hvalued, htake⟩, ?_⟩
    rwa [hvalued.grows.numerics]

end Evaluation

end Reckoner
