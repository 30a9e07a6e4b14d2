import Reckoner.Proofs.Evaluation.Counting
import Reckoner.Proofs.Evaluation.Trace

/-!
# Summation and product are left folds

`Evaluation.Terms`: what evaluating a term at some integers in turn gives, with the counter bound to
each of them.  An evaluation starts with what the one before left in memory, and the first one that
fails is the last one.

A summation or product folds these values from the left (`Evaluation.reduction_is_left_fold`).  The
bounds are integers of the working width, so the counter takes the integers between them, and
evaluation adds only to memory, so the context stays at its depth while the terms are evaluated.
-/

namespace Reckoner

theorem Context.Grows.levels_eq {c d : Context} (h : c.Grows d) : d.levels = c.levels := by
  unfold Context.levels
  rw [h.ceiling, h.depth]

theorem Context.valueOf?_of_isTaken_eq_false {c : Context} {name : String}
    (h : c.isTaken name = false) : c.valueOf? name = none := by
  rw [Context.isTaken, Bool.or_eq_false_iff, Bool.or_eq_false_iff, Context.hasVariable_eq,
    Option.isSome_eq_false_iff, Option.isNone_iff_eq_none] at h
  exact h.1.1

namespace Evaluation

variable {counter : String} {term : Operand}

/-! ## Terms -/

/-- The values of a term at integers in turn, or the fault of the first one that fails. -/
inductive Terms (counter : String) (term : Operand) :
    List Int → Context → Except Fault (List Number) → Context → Prop
  | done (c : Context) : Terms counter term [] c (.ok []) c
  | fault {i : Int} {is : List Int} {c d : Context} {fault : Fault} :
      term.evaluate.run (c.setVariable counter (.ofInt i)) = (.error fault, d) →
      Terms counter term (i :: is) c (.error fault) d
  | value {i : Int} {is : List Int} {c d e : Context} {v : Number}
      {outcome : Except Fault (List Number)} :
      term.evaluate.run (c.setVariable counter (.ofInt i)) = (.ok v, d) →
      Terms counter term is d outcome e →
      Terms counter term (i :: is) c (outcome.map (v :: ·)) e

/-- Whatever the counter was before, it is bound for the first term. -/
theorem Terms.of_setVariable {i : Int} {is : List Int} {c e : Context} {x : Number}
    {outcome : Except Fault (List Number)}
    (h : Terms counter term (i :: is) (c.setVariable counter x) outcome e) :
    Terms counter term (i :: is) c outcome e := by
  cases h with
  | fault hrun =>
    rw [Context.setVariable_setVariable] at hrun
    exact .fault hrun
  | value hrun hrest =>
    rw [Context.setVariable_setVariable] at hrun
    exact .value hrun hrest

/-- The steps of a summation or product evaluate the terms in turn and fold their values. -/
theorem exists_terms (w : Nat) (name : String) {levels : Nat} (is : List Int) {c : Context}
    (hlevels : c.levels = levels) (total : Number) :
    ∃ outcome e, Terms counter term is c outcome e ∧
      (is.foldlM (fun total k => termStep w name counter (evalAt levels term) (.ofInt k) total)
        total).run c = (outcome.map (·.foldl (reductionStep w name) total), e) := by
  induction is generalizing c total with
  | nil => exact ⟨.ok [], c, .done c, rfl⟩
  | cons i is ih =>
    have hsame : (evalAt levels term).run (c.setVariable counter (.ofInt i)) =
        term.evaluate.run (c.setVariable counter (.ofInt i)) := by
      subst hlevels
      rfl
    rw [List.foldlM_cons]
    rcases hrun : term.evaluate.run (c.setVariable counter (.ofInt i)) with ⟨_ | v, d⟩
    · next fault =>
      rw [hrun] at hsame
      exact ⟨.error fault, d, .fault hrun,
        Action.run_bind_of_error (run_termStep_eq w name counter total hsame)⟩
    · rw [hrun] at hsame
      -- the next term is evaluated with as many levels left
      have hlevels' : d.levels = levels := (Operand.grows_of_run hrun).levels_eq.trans hlevels
      obtain ⟨outcome, e, hterms, hrest⟩ := ih hlevels' (reductionStep w name total v)
      refine ⟨outcome.map (v :: ·), e, .value hrun hterms, ?_⟩
      rw [Action.run_bind_of_ok (run_termStep_eq w name counter total hsame), hrest]
      cases outcome with
      | error fault => rfl
      | ok values => rfl

/-! ## Calls -/

/-- Once its bounds are evaluated to integers in order, a summation or product counts. -/
theorem run_evalReduction {eval : Operand → Action Number} {c c₁ c₂ : Context} {name : String}
    {first last : Operand} {i j : Int} (hcounter : c.isTaken counter = false)
    (hfirst : (eval first).run c = (.ok (.ofInt i), c₁))
    (hlast : (eval last).run c₁ = (.ok (.ofInt j), c₂)) (hle : i ≤ j) :
    (evalReduction eval name [.var counter, first, last, term]).run c =
      (countTerms name counter (.ofInt i) (.ofInt j) (eval term)).run c₂ := by
  have hinteger : ∀ i : Int, (Number.ofInt i).isInteger = true := fun i => by
    simp [Number.isInteger, Number.isReal, Number.ofInt, Number.ofReal]
  have horder : ¬(Number.ofInt j).re < (Number.ofInt i).re := by
    rw [Number.ofInt, Number.ofInt, Number.ofReal, Number.ofReal, Binary.ofInt_lt_ofInt]
    omega
  unfold evalReduction evalBounds
  rw [Action.run_context_bind, hcounter, if_neg (by decide), Action.run_bind_of_ok hfirst,
    Action.run_bind_of_ok hlast, hinteger, hinteger, if_neg (by decide), if_neg horder]
  rfl

/-- A count with a free counter evaluates the terms at the integers in turn and leaves the counter
free. -/
theorem exists_terms_countTerms {c : Context} (name : String) {i j : Int} (hle : i ≤ j)
    (hi : -2 ^ c.bits ≤ i) (hj : j < 2 ^ c.bits) (hfree : c.valueOf? counter = none) :
    ∃ outcome e, Terms counter term (Int.range i (j + 1)) c outcome e ∧
      (countTerms name counter (.ofInt i) (.ofInt j) (evalAt c.levels term)).run c =
        (outcome.map (·.foldl (reductionStep c.bits name) (reductionUnit name)),
          e.eraseVariable counter) := by
  obtain ⟨outcome, e, hterms, hrun⟩ := @exists_terms counter term c.bits name c.levels
    (Int.range i (j + 1)) (c.setVariable counter (.ofInt i)) rfl (reductionUnit name)
  refine ⟨outcome, e, ?_, ?_⟩
  · rw [Binary.range_eq_cons (by omega)] at hterms ⊢
    exact hterms.of_setVariable
  · rw [run_countTerms_ofInt hi hj, Action.run_binding]
    show (((_ : Action Number).run (c.setVariable counter (.ofInt i))).1,
      ((_ : Action Number).run (c.setVariable counter (.ofInt i))).2.restore
        (counter, c.valueOf? counter)) = _
    rw [hrun, hfree]
    rfl

/-- **Left folds.** A summation or product whose counter is free and whose bounds are integers of
the working width, in order, evaluates its last argument at the integers from the first to the last
one in turn.  It gives the fold of the values, or the fault of the first term that fails.  The
counter is gone afterwards, and the variables are the ones from before. -/
theorem reduction_is_left_fold {c d d₁ d₂ : Context} {name : String} {first last : Operand}
    {i j : Int} (hname : Reserved.isReduction name = true) (hcounter : c.isTaken counter = false)
    (hdepth : c.enter = .ok d) (hfirst : first.evaluate.run d = (.ok (.ofInt i), d₁))
    (hlast : last.evaluate.run d₁ = (.ok (.ofInt j), d₂)) (hle : i ≤ j)
    (hi : |i| < 2 ^ c.bits) (hj : |j| < 2 ^ c.bits) :
    ∃ outcome e, Terms counter term (Int.range i (j + 1)) d₂ outcome e ∧
      (Operand.call name [.var counter, first, last, term]).evaluate.run c =
        (outcome.map (·.foldl (reductionStep c.bits name) (reductionUnit name)),
          (e.eraseVariable counter).leave) ∧
      (e.eraseVariable counter).leave.valueOf? counter = none ∧
      (e.eraseVariable counter).leave.vars = c.vars := by
  obtain ⟨-, hd⟩ := (Context.enter_eq_ok_iff c d).1 hdepth
  have hgrows₁ : d.Grows d₁ := Operand.grows_of_run hfirst
  have hgrows₂ : d.Grows d₂ := hgrows₁.trans (Operand.grows_of_run hlast)
  have hbits : d₂.bits = c.bits := by
    rw [Context.bits, hgrows₂.numerics, hd]
    rfl
  have htaken : d.isTaken counter = false := by
    rw [hd]
    exact hcounter
  have hfree : d₂.valueOf? counter = none := by
    rw [hgrows₂.valueOf?_eq]
    exact Context.valueOf?_of_isTaken_eq_false htaken
  rw [← hbits] at hi hj ⊢
  rw [abs_lt] at hi hj
  obtain ⟨outcome, e, hterms, hrun⟩ :=
    @exists_terms_countTerms counter term d₂ name i j hle (by omega) (by omega) hfree
  have hcall : (Operand.call name [.var counter, first, last, term]).evaluate.run c =
      (outcome.map (·.foldl (reductionStep d₂.bits name) (reductionUnit name)),
        (e.eraseVariable counter).leave) := by
    have hfirst' : (evalAt d.levels first).run d = (.ok (.ofInt i), d₁) := hfirst
    have hlast' : (evalAt d.levels last).run d₁ = (.ok (.ofInt j), d₂) := by
      rw [← hgrows₁.levels_eq]
      exact hlast
    rw [run_evaluate_call hdepth, evalCall, if_pos hname,
      run_evalReduction htaken hfirst' hlast' hle, ← hgrows₂.levels_eq, hrun]
  have hgrows := Operand.grows_of_run hcall
  refine ⟨outcome, e, hterms, hcall, ?_, hgrows.vars⟩
  rw [hgrows.valueOf?_eq]
  exact Context.valueOf?_of_isTaken_eq_false hcounter

/-- A context inside a call, with a variable `n` and the function `g[n]=n*n`. -/
def squareContext : Context :=
  (({ Context.empty .standard with depth := 1 } : Context).setVariable "n" 7).setFunction "g"
    (.user (.define ["n"] (some (.expression
      [.operand (.var "n"), .operator ⟨'*'⟩, .operand (.var "n")]))))

/-- The bound `g[0]-1`. -/
def squareBound : Operand :=
  .expression [.operand (.call "g" [.numeral 0 "0"]), .operator ⟨'-'⟩, .operand (.numeral 1 "1")]

/-- The term `g[k]/k`. -/
def squareQuotient : Operand :=
  .expression [.operand (.call "g" [.var "k"]), .operator ⟨'/'⟩, .operand (.var "k")]

/-- The sum `sum[k,g[0]-1,2,g[k]/k]`: its second term fails, so the function `g` is not called for
the terms behind it. -/
theorem reduction_is_left_fold_of_quotients :
    let d : Context := { squareContext with depth := 2 }
    let d₁ := (squareBound.evaluate.run d).2
    let out := (Operand.call "sum"
      [.var "k", squareBound, .numeral 2 "2", squareQuotient]).evaluate.run squareContext
    squareContext.isTaken "k" = false ∧ squareContext.enter = .ok d ∧
      squareBound.evaluate.run d = (.ok (.ofInt (-1)), d₁) ∧
      (∃ e, Terms "k" squareQuotient (Int.range (-1) 3) d₁ (.error (.eval .divisionByZero)) e ∧
        out = (.error (.eval .divisionByZero), (e.eraseVariable "k").leave)) ∧
      out.2.valueOf? "k" = none ∧ out.2.vars = squareContext.vars ∧
      (out.2.user? "g").map (fun f => f.memo.entries) = some [([.ofInt (-1)], 1), ([0], 0)] := by
  intro d d₁ out
  have hbound : squareBound.evaluate.run d = (.ok (.ofInt (-1)), d₁) :=
    Prod.ext (by decide +kernel) rfl
  have hout : out.1 = .error (.eval .divisionByZero) := by decide +kernel
  obtain ⟨outcome, e, hterms, hrun, hfree, hvars⟩ :=
    @reduction_is_left_fold "k" squareQuotient squareContext d d₁ d₁ "sum" squareBound
      (.numeral 2 "2") (-1) 2 (by decide) (by decide +kernel) rfl hbound rfl (by decide)
      (by decide +kernel) (by decide +kernel)
  have houtcome : outcome = .error (.eval .divisionByZero) := by
    cases outcome with
    | ok values => cases hout.symm.trans (congrArg Prod.fst hrun)
    | error fault =>
      have hfault : (.error fault : Except Fault Number) = .error (.eval .divisionByZero) :=
        (congrArg Prod.fst hrun).symm.trans hout
      rw [Except.error.inj hfault]
  subst houtcome
  have hcontext : out.2 = (e.eraseVariable "k").leave := congrArg Prod.snd hrun
  refine ⟨by decide +kernel, rfl, hbound, ⟨e, hterms, hrun⟩, ?_, ?_, by decide +kernel⟩
  · rw [hcontext]
    exact hfree
  · rw [hcontext]
    exact hvars

end Evaluation

end Reckoner
