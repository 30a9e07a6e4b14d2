import Reckoner.Proofs.Evaluation.Congruence
import Reckoner.Proofs.Memory.Growth
import Reckoner.Proofs.Memory.Meaning

/-!
# Evaluation leaves no trace but memory

1. `Evaluation.watchedAt` is evaluation that compares the depth of calls with the ceiling before
   each operand that it is asked for and right after each call is entered, which is the only place
   where the depth rises.  Where the depth is above the ceiling it runs an alarm instead.
2. `Action.Traceless act act'`: the action `act` only adds to memory, whether it gives a result or
   fails, and where calls are not too deep `act'` does the same.  One rule for each way to build an
   action.
3. Evaluation is traceless, and its watched form never runs the alarm
   (`Operand.evaluate_leaves_no_trace`).
-/

namespace Reckoner

/-! ## Watched evaluation -/

/-- Runs an action where calls are no deeper than the ceiling, and an alarm elsewhere. -/
def Action.watched {α : Type} (alarm act : Action α) : Action α :=
  ⟨fun c => if c.depth ≤ c.ceiling then act.run c else alarm.run c⟩

/-- Evaluation with a number of levels left that watches how deep calls are. -/
def Evaluation.watchedAt (alarm : Action Number) : Nat → Operand → Action Number
  | 0 => fun o => .watched alarm (evalOperand (fun _ _ => .fail (.depth .recursion)) o)
  | levels + 1 => fun o => .watched alarm (evalOperand (fun name args =>
      .deeper (.watched alarm (evalCall (watchedAt alarm levels) name args))) o)

/-- Evaluates an operand and watches how deep calls are. -/
def Operand.evaluateWatched (alarm : Action Number) (o : Operand) : Action Number := do
  let c ← Action.context
  Evaluation.watchedAt alarm c.levels o

/-! ## Traceless actions -/

namespace Action

variable {α β : Type}

/-- In a context the action only adds to memory, and another one does the same if calls are not too
deep. -/
structure TracelessAt (c : Context) (act act' : Action α) : Prop where
  grows : c.Grows (act.run c).2
  same : c.depth ≤ c.ceiling → act'.run c = act.run c

/-- The action only adds to memory, and another one does the same where calls are not too deep. -/
def Traceless (act act' : Action α) : Prop := ∀ c, TracelessAt c act act'

theorem Traceless.of_stays {act : Action α} (h : ∀ c, (act.run c).2 = c) : Traceless act act :=
  fun c => ⟨by rw [h]; exact .refl c, fun _ => rfl⟩

theorem Traceless.pure (a : α) : Traceless (Pure.pure a) (Pure.pure a) := of_stays fun _ => rfl

theorem Traceless.fail (fault : Fault) :
    Traceless (Action.fail fault : Action α) (.fail fault) := of_stays fun _ => rfl

theorem Traceless.ofExcept (x : Except Fault α) :
    Traceless (Action.ofExcept x) (.ofExcept x) := of_stays fun _ => rfl

theorem Traceless.context_bind {next next' : Context → Action β}
    (h : ∀ c, TracelessAt c (next c) (next' c)) :
    Traceless (Action.context >>= next) (Action.context >>= next') :=
  fun c => ⟨(h c).grows, (h c).same⟩

theorem Traceless.bind {act act' : Action α} {next next' : α → Action β} (h : Traceless act act')
    (hn : ∀ a, Traceless (next a) (next' a)) : Traceless (act >>= next) (act' >>= next') := by
  intro c
  obtain ⟨hgrows, hsame⟩ := h c
  rcases hrun : act.run c with ⟨x, d⟩
  rw [hrun] at hgrows hsame
  cases x with
  | error fault =>
    refine ⟨?_, fun hdepth => ?_⟩
    · rwa [run_bind_of_error hrun]
    · rw [run_bind_of_error hrun, run_bind_of_error (hsame hdepth)]
  | ok a =>
    have hnext := hn a d
    refine ⟨?_, fun hdepth => ?_⟩
    · rw [run_bind_of_ok hrun]
      exact hgrows.trans hnext.grows
    · have hd : d.depth ≤ d.ceiling := by
        rw [hgrows.depth, hgrows.ceiling]
        exact hdepth
      rw [run_bind_of_ok hrun, run_bind_of_ok (hsame hdepth)]
      exact hnext.same hd

/-- Watching makes no difference. -/
theorem Traceless.watched {act act' : Action α} (h : Traceless act act') (alarm : Action α) :
    Traceless act (Action.watched alarm act') := by
  intro c
  refine ⟨(h c).grows, fun hdepth => ?_⟩
  rw [← (h c).same hdepth]
  exact if_pos hdepth

/-- The number of working digits is the former one again when the action is over. -/
theorem Traceless.withDigits {act act' : Action α} (h : Traceless act act') (digits : Nat) :
    Traceless (Action.withDigits digits act) (Action.withDigits digits act') := by
  intro c
  obtain ⟨hgrows, hsame⟩ := h { c with numerics := c.numerics.setDigits digits }
  refine ⟨?_, fun hdepth => ?_⟩
  · rw [run_withDigits]
    refine ⟨hgrows.vars, ?_, hgrows.ceiling, hgrows.depth, hgrows.functions⟩
    show Numerics.setDigits _ _ = _
    rw [hgrows.numerics]
    rfl
  · rw [run_withDigits, run_withDigits, hsame hdepth]

/-- One call deeper, the ceiling is still not exceeded. -/
theorem Traceless.deeper {act act' : Action α} (h : Traceless act act') :
    Traceless (Action.deeper act) (Action.deeper act') := by
  intro c
  cases he : c.enter with
  | error fault =>
    refine ⟨?_, fun _ => ?_⟩
    · rw [run_deeper_of_error he]
      exact .refl c
    · rw [run_deeper_of_error he, run_deeper_of_error he]
  | ok d =>
    obtain ⟨hlt, rfl⟩ := (Context.enter_eq_ok_iff c d).1 he
    have hact := h { c with depth := c.depth + 1 }
    refine ⟨?_, fun _ => ?_⟩
    · rw [run_deeper_of_ok he]
      exact hact.grows.leave
    · rw [run_deeper_of_ok he, run_deeper_of_ok he, hact.same hlt]

theorem bindAll_eq (c : Context) (scope : Scope) (bindings : List (String × Number)) :
    (c.bindAll scope bindings).2 = { c with vars := (c.bindAll scope bindings).2.vars } := by
  induction bindings generalizing c scope with
  | nil => rfl
  | cons binding bindings ih => exact ih (c.setVariable binding.1 binding.2) _

/-- Names bound around an action are what they were before when it is over. -/
theorem Traceless.binding {act act' : Action α} (h : Traceless act act')
    (bindings : List (String × Number)) :
    Traceless (Action.binding bindings act) (Action.binding bindings act') := by
  intro c
  have hact := h (c.bindAll [] bindings).2
  refine ⟨?_, fun hdepth => ?_⟩
  · have hclose := hact.grows.close (c.bindAll [] bindings).1
    rw [c.close_bindAll] at hclose
    rw [run_binding]
    exact hclose
  · rw [run_binding, run_binding, hact.same]
    rw [bindAll_eq]
    exact hdepth

end Action

/-! ## Summation and product -/

namespace Evaluation

open Reckoner.Action

/-- The steps of a summation only add to memory, apart from the counter. -/
theorem traceless_termSteps {term term' : Action Number} (hterm : Traceless term term') (w : Nat)
    (name counter : String) (last : Dyadic) (fuel : Nat) (k : Dyadic) (total : Number)
    (c : Context) (x : Number) {d : Context} (hd : (c.setVariable counter x).Grows d) :
    (∃ y, (c.setVariable counter y).Grows
      ((termSteps w name counter last term fuel k total).run d).2) ∧
    (d.depth ≤ d.ceiling → (termSteps w name counter last term' fuel k total).run d =
      (termSteps w name counter last term fuel k total).run d) := by
  induction fuel generalizing k total x d with
  | zero => exact ⟨⟨x, hd⟩, fun _ => rfl⟩
  | succ fuel ih =>
    simp only [termSteps_succ]
    split
    · obtain ⟨hgrows, hsame⟩ := hterm (d.setVariable counter (.ofReal k))
      rcases hrun : term.run (d.setVariable counter (.ofReal k)) with ⟨r, d'⟩
      rw [hrun] at hgrows hsame
      have hd' : (c.setVariable counter (.ofReal k)).Grows d' := by
        have hset := hd.setVariable counter (.ofReal k)
        rw [Context.setVariable_setVariable] at hset
        exact hset.trans hgrows
      have hstep := run_termStep_eq w name counter total hrun
      have hstep' : d.depth ≤ d.ceiling → (termStep w name counter term' k total).run d =
          (r.map (reductionStep w name total), d') :=
        fun hdepth => run_termStep_eq w name counter total (hsame hdepth)
      cases r with
      | error fault =>
        refine ⟨⟨.ofReal k, ?_⟩, fun hdepth => ?_⟩
        · rwa [run_bind_of_error hstep]
        · rw [run_bind_of_error hstep, run_bind_of_error (hstep' hdepth)]
      | ok value =>
        obtain ⟨hrest, hrest'⟩ :=
          ih (Binary.add w k 1) (reductionStep w name total value) (.ofReal k) hd'
        refine ⟨?_, fun hdepth => ?_⟩
        · rwa [run_bind_of_ok hstep]
        · rw [run_bind_of_ok hstep, run_bind_of_ok (hstep' hdepth)]
          refine hrest' ?_
          rw [hgrows.depth, hgrows.ceiling]
          exact hdepth
    · exact ⟨⟨x, hd⟩, fun _ => rfl⟩

theorem traceless_countTerms {term term' : Action Number} (hterm : Traceless term term')
    (name counter : String) (first last : Dyadic) :
    Traceless (countTerms name counter first last term)
      (countTerms name counter first last term') := by
  intro c
  obtain ⟨⟨y, hgrows⟩, hsame⟩ := traceless_termSteps hterm c.bits name counter last
    (Binary.stepCount first last + 1) first (reductionUnit name) c (.ofReal first) (.refl _)
  rcases hrun : (termSteps c.bits name counter last term (Binary.stepCount first last + 1) first
    (reductionUnit name)).run (c.setVariable counter (.ofReal first)) with ⟨r, d⟩
  rw [hrun] at hgrows hsame
  refine ⟨?_, fun hdepth => ?_⟩
  · have hrestore := hgrows.restore (counter, c.valueOf? counter)
    rw [Context.restore_setVariable] at hrestore
    rwa [run_countTerms hrun]
  · rw [run_countTerms hrun, run_countTerms (hsame hdepth)]

/-! ## Operands -/

theorem congruence_traceless : Congruence (fun _ => Traceless) where
  reading f := .context_bind fun c => Traceless.ofExcept (f c.numerics) c
  bind hact hnext := hact.bind hnext

theorem traceless_evalVariable (name : String) :
    Traceless (evalVariable name) (evalVariable name) := by
  refine .context_bind fun c => ?_
  split
  · exact Traceless.pure _ c
  · exact Traceless.fail _ c

theorem traceless_evalOperand {call call' : String → List Operand → Action Number}
    (hcall : ∀ name args, Traceless (call name args) (call' name args)) (o : Operand) :
    Traceless (evalOperand call o) (evalOperand call' o) :=
  congruence_traceless.evalOperand (fun n _ => traceless_evalVariable n)
    fun name args _ => hcall name args

/-! ## Calls -/

section Calls

variable {eval eval' : Operand → Action Number} (heval : ∀ o, Traceless (eval o) (eval' o))

theorem traceless_callBuiltin (b : Builtin) (args : List Number) :
    Traceless (callBuiltin b args) (callBuiltin b args) := by
  have hdraw : Traceless drawFraction drawFraction := fun c =>
    ⟨Context.grows_of_functions_eq rfl rfl rfl rfl rfl, fun _ => rfl⟩
  have hfraction : Traceless (fractionFor b) (fractionFor b) := by
    unfold fractionFor
    split
    · exact hdraw
    · exact .pure 0
  have hcompute : Traceless (computeBuiltin b args) (computeBuiltin b args) :=
    hfraction.bind fun fraction =>
      congruence_traceless.reading fun m => b.value m.library m.bits fraction args
  refine (Traceless.ofExcept _).bind fun _ => (Traceless.ofExcept _).bind fun digits? => ?_
  cases digits? with
  | none => exact hcompute
  | some digits => exact hcompute.withDigits _

include heval in
/-- The body of a function is evaluated and its value remembered where nothing was known. -/
theorem traceless_body {c : Context} {name : String} {f : UserFunction}
    (hf : c.user? name = some f) {args : List Number} (hlength : args.length = f.arity)
    (hbase : f.baseCases.find? args = none) (hmemo : f.memo.find? args = none) {body : Operand}
    (hbody : f.body = some body) :
    TracelessAt c
      (do
        let value ← Action.binding (f.params.zip args) (eval body)
        Action.change (fun c => c.updateUser name (fun f => f.remember args value))
        pure value)
      (do
        let value ← Action.binding (f.params.zip args) (eval' body)
        Action.change (fun c => c.updateUser name (fun f => f.remember args value))
        pure value) := by
  obtain ⟨hgrows, hsame⟩ := (heval body).binding (f.params.zip args) c
  rcases hrun : (Action.binding (f.params.zip args) (eval body)).run c with ⟨x, d⟩
  rw [hrun] at hgrows hsame
  cases x with
  | error fault =>
    refine ⟨?_, fun hdepth => ?_⟩
    · rwa [run_bind_of_error hrun]
    · rw [run_bind_of_error hrun, run_bind_of_error (hsame hdepth)]
  | ok value =>
    have hsome : f.body ≠ none := by
      rw [hbody]
      exact Option.some_ne_none body
    refine ⟨?_, fun hdepth => ?_⟩
    · rw [run_bind_of_ok hrun]
      exact hgrows.remember hf hlength hbase hmemo hsome value
    · rw [run_bind_of_ok hrun, run_bind_of_ok (hsame hdepth)]

include heval in
theorem traceless_callUser {c : Context} {name : String} {f : UserFunction}
    (hf : c.user? name = some f) (args : List Number) :
    TracelessAt c (callUser eval name f args) (callUser eval' name f args) := by
  unfold callUser
  split
  · exact Traceless.fail _ c
  · next hlength =>
    cases hbase : f.baseCases.find? args with
    | some value => exact Traceless.pure value c
    | none =>
      cases hmemo : f.memo.find? args with
      | some value => exact Traceless.pure value c
      | none =>
        cases hbody : f.body with
        | none => exact Traceless.context_bind (fun c => Traceless.fail _ c) c
        | some body => exact traceless_body heval hf (not_not.1 hlength) hbase hmemo hbody

include heval in
theorem traceless_callFunction (name : String) (args : List Number) :
    Traceless (callFunction eval name args) (callFunction eval' name args) := by
  refine .context_bind fun c => ?_
  cases hf : c.function? name with
  | none => exact Traceless.fail _ c
  | some f =>
    cases f with
    | builtin b => exact traceless_callBuiltin b args c
    | user f => exact traceless_callUser heval (Context.user?_eq_some.2 hf) args

include heval in
theorem traceless_evalReduction (name : String) (args : List Operand) :
    Traceless (evalReduction eval name args) (evalReduction eval' name args) := by
  unfold evalReduction
  split
  · next counter first last term =>
    refine .context_bind fun c => ?_
    split
    · exact Traceless.fail _ c
    · refine congruence_traceless.evalBounds name counter (heval first) (heval last)
        (fun a b => ?_) c
      exact traceless_countTerms (heval term) name counter a b
  · exact .fail _
  · exact .fail _

include heval in
theorem traceless_evalCall (name : String) (args : List Operand) :
    Traceless (evalCall eval name args) (evalCall eval' name args) := by
  unfold evalCall
  split
  · exact traceless_evalReduction heval name args
  · refine .context_bind fun c => ?_
    split
    · refine (congruence_traceless.mapM fun arg _ => heval arg).bind (fun values => ?_) c
      exact traceless_callFunction heval name values
    · exact Traceless.fail _ c

end Calls

/-- Evaluation with any number of levels left is traceless, and watching it makes no difference. -/
theorem traceless_evalAt (alarm : Action Number) (levels : Nat) (o : Operand) :
    Traceless (evalAt levels o) (watchedAt alarm levels o) := by
  induction levels generalizing o with
  | zero => exact (traceless_evalOperand (fun _ _ => .fail _) o).watched alarm
  | succ levels ih =>
    refine (traceless_evalOperand (fun name args => ?_) o).watched alarm
    exact ((traceless_evalCall ih name args).watched alarm).deeper

theorem traceless_evalAt_self (levels : Nat) (o : Operand) :
    Traceless (evalAt levels o) (evalAt levels o) :=
  fun c => ⟨(traceless_evalAt (.fail .endless) levels o c).grows, fun _ => rfl⟩

theorem run_evaluate_call {c d : Context} (hdepth : c.enter = .ok d) (name : String)
    (args : List Operand) :
    (Operand.call name args).evaluate.run c =
      (((evalCall (evalAt d.levels) name args).run d).1,
        ((evalCall (evalAt d.levels) name args).run d).2.leave) := by
  have hlevels : c.levels = d.levels + 1 := by
    obtain ⟨hlt, rfl⟩ := (Context.enter_eq_ok_iff c d).1 hdepth
    unfold Context.levels
    dsimp only
    omega
  unfold Operand.evaluate
  rw [Action.run_context_bind, hlevels, evalAt, evalOperand, Action.run_deeper_of_ok hdepth]

end Evaluation

/-- Evaluation only adds to memory. -/
theorem Operand.grows_evaluate (o : Operand) (c : Context) : c.Grows (o.evaluate.run c).2 :=
  (Evaluation.traceless_evalAt (.fail .endless) c.levels o c).grows

theorem Operand.grows_of_run {o : Operand} {c d : Context} {r : Except Fault Number}
    (h : o.evaluate.run c = (r, d)) : c.Grows d := by
  have hgrows := o.grows_evaluate c
  rwa [h] at hgrows

/-- **No trace.** Whether evaluation gives a value or fails, the variables, the depth and the
definitions are the ones from before, and functions remember at least what they remembered.  If
calls are not too deep at first they never become so: evaluation that raises any alarm when they are
does the same. -/
theorem Operand.evaluate_leaves_no_trace (o : Operand) (c : Context) :
    c.Grows (o.evaluate.run c).2 ∧
      (c.depth ≤ c.ceiling →
        ∀ alarm : Action Number, (o.evaluateWatched alarm).run c = o.evaluate.run c) :=
  ⟨o.grows_evaluate c,
    fun hdepth alarm => (Evaluation.traceless_evalAt alarm c.levels o c).same hdepth⟩

/-- A context inside a call, with a variable `n` and the functions `f[n]=f[n+1]` and `g[n]=n`. -/
def runawayContext : Context :=
  let c : Context := { Context.empty .standard with ceiling := 4, depth := 1 }
  ((c.setVariable "n" 7).setFunction "g" (.user (.define ["n"] (some (.var "n"))))).setFunction "f"
    (.user (.define ["n"] (some (.call "f"
      [.expression [.operand (.var "n"), .operator ⟨'+'⟩, .operand (.numeral 1 "1")]]))))

/-- The operand `sum[k,1,2,g[k]+f[k]]`. -/
def runawaySum : Operand :=
  .call "sum" [.var "k", .numeral 1 "1", .numeral 2 "2", .expression
    [.operand (.call "g" [.var "k"]), .operator ⟨'+'⟩, .operand (.call "f" [.var "k"])]]

/-- A sum whose first term calls a function without end: `g` remembers its value at `1`, and the
counter and the bound parameters are gone. -/
theorem evaluate_leaves_no_trace_of_runaway :
    runawayContext.depth ≤ runawayContext.ceiling ∧
      (runawaySum.evaluate.run runawayContext).1 = .error (.depth .recursion) ∧
      ((runawaySum.evaluate.run runawayContext).2.user? "g").map (fun f => f.memo.entries) =
        some [([1], 1)] ∧
      runawayContext.Grows (runawaySum.evaluate.run runawayContext).2 ∧
      ∀ alarm : Action Number, (runawaySum.evaluateWatched alarm).run runawayContext =
        runawaySum.evaluate.run runawayContext := by
  obtain ⟨hgrows, hwatched⟩ := runawaySum.evaluate_leaves_no_trace runawayContext
  exact ⟨by decide, by decide +kernel, by decide +kernel, hgrows, hwatched (by decide)⟩

end Reckoner
