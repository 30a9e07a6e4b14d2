import Reckoner.Proofs.Evaluation.Chance
import Reckoner.Proofs.Evaluation.Congruence
import Reckoner.Proofs.Evaluation.Trace

/-!
# Evaluating a second time

1. `Action.Repeats act`: where the action gave a result, it only added to memory, and it gives this
   result again, and changes nothing, in every context that has only gained memory since.
2. A call repeats because its value is known afterwards (`Context.Recalls`), whatever the function
   remembered in the meantime: the value of the outermost call with some arguments is remembered
   last, and nothing that is remembered is lost.
3. So evaluation repeats, although the values of functions may hang on the variables that happen to
   be bound around a call (`Operand.evaluate_again`).
-/

namespace Reckoner

/-! ## Actions that repeat others -/

namespace Action

variable {α β : Type}

/-- Where the first action gave a result it only added to memory, and the second one gives this
result and changes nothing in contexts that remember at least as much. -/
def Repeats (act again : Action α) : Prop :=
  ∀ ⦃c : Context⦄, c.Named → ∀ ⦃a c'⦄, act.run c = (.ok a, c') →
    c.Grows c' ∧ ∀ d, c'.Grows d → again.run d = (.ok a, d)

theorem Repeats.ofExcept (x : Except Fault α) : Repeats (Action.ofExcept x) (.ofExcept x) := by
  intro c _ a c' h
  rw [run_ofExcept, Prod.mk.injEq] at h
  obtain ⟨rfl, rfl⟩ := h
  exact ⟨.refl c, fun d _ => rfl⟩

theorem Repeats.pure (a : α) : Repeats (Pure.pure a) (Pure.pure a) := .ofExcept (.ok a)

theorem Repeats.fail (fault : Fault) (again : Action α) : Repeats (.fail fault) again := by
  intro c _ a c' h
  cases h

/-- What is read from the context must not hang on memory. -/
theorem Repeats.context_bind {next again : Context → Action β}
    (hread : ∀ c d : Context, c.Grows d → again d = again c)
    (hnext : ∀ c, Repeats (next c) (again c)) :
    Repeats (Action.context >>= next) (Action.context >>= again) := by
  intro c hc b c' h
  rw [run_context_bind] at h
  obtain ⟨hgrows, hagain⟩ := hnext c hc h
  refine ⟨hgrows, fun d hd => ?_⟩
  rw [run_context_bind, hread c d (hgrows.trans hd)]
  exact hagain d hd

theorem Repeats.bind {act act' : Action α} {next next' : α → Action β} (h : Repeats act act')
    (hnext : ∀ a, Repeats (next a) (next' a)) : Repeats (act >>= next) (act' >>= next') := by
  intro c hc b c'' hrun
  rcases hact : act.run c with ⟨x, c'⟩
  cases x with
  | error fault =>
    rw [run_bind_of_error hact, Prod.mk.injEq] at hrun
    cases hrun.1
  | ok a =>
    rw [run_bind_of_ok hact] at hrun
    obtain ⟨hgrows, hagain⟩ := h hc hact
    obtain ⟨hgrows', hagain'⟩ := hnext a (hc.grows hgrows) hrun
    refine ⟨hgrows.trans hgrows', fun d hd => ?_⟩
    rw [run_bind_of_ok (hagain d (hgrows'.trans hd))]
    exact hagain' d hd

theorem Repeats.deeper {act act' : Action α} (h : Repeats act act') :
    Repeats (Action.deeper act) (Action.deeper act') := by
  intro c hc a c' hrun
  cases he : c.enter with
  | error fault =>
    rw [run_deeper_of_error he, Prod.mk.injEq] at hrun
    cases hrun.1
  | ok c₁ =>
    obtain ⟨hlt, rfl⟩ := (Context.enter_eq_ok_iff c c₁).1 he
    rw [run_deeper_of_ok he, Prod.mk.injEq] at hrun
    obtain ⟨hresult, rfl⟩ := hrun
    obtain ⟨hgrows, hagain⟩ :=
      h (hc.of_functions_eq (d := { c with depth := c.depth + 1 }) rfl) (Prod.ext hresult rfl)
    refine ⟨hgrows.leave, fun d hd => ?_⟩
    have hcd := hgrows.leave.trans hd
    have henter : d.enter = .ok { d with depth := d.depth + 1 } := by
      refine (Context.enter_eq_ok_iff d _).2 ⟨?_, rfl⟩
      rw [hcd.depth, hcd.ceiling]
      exact hlt
    -- inside the call the two contexts are as deep as each other
    have hinside := hagain { d with depth := d.depth + 1 } {
      vars := hd.vars
      numerics := hd.numerics
      ceiling := hd.ceiling
      depth := by
        show d.depth + 1 = _
        rw [hgrows.depth, hcd.depth]
      functions := hd.functions }
    rw [run_deeper_of_ok henter, hinside]
    rfl

end Action

open Reckoner.Action

namespace Evaluation

theorem congruence_repeats : Congruence (fun _ => Repeats) where
  reading f := .context_bind (fun c d h => by rw [h.numerics]) fun c => .ofExcept _
  bind hact hnext := hact.bind hnext

theorem repeats_evalVariable (name : String) :
    Repeats (evalVariable name) (evalVariable name) := by
  refine .context_bind (fun c d h => by rw [h.valueOf?_eq]) fun c => ?_
  split
  · exact .pure _
  · exact .fail _ _

end Evaluation

/-! ## Calls -/

/-- The function of a name has a value for arguments that it need not compute: a base case or a
remembered one. -/
def Context.Recalls (c : Context) (name : String) (args : List Number) (value : Number) : Prop :=
  ∃ f, c.user? name = some f ∧ args.length = f.arity ∧
    (f.baseCases.find? args).or (f.memo.find? args) = some value

theorem Context.Recalls.grows {c d : Context} {name : String} {args : List Number} {value : Number}
    (h : c.Recalls name args value) (hgrows : c.Grows d) : d.Recalls name args value := by
  obtain ⟨f, hf, hlength, hvalue⟩ := h
  obtain ⟨g, hg, hfg⟩ := hgrows.exists_user? hf
  refine ⟨g, hg, ?_, ?_⟩
  · rw [UserFunction.arity, hfg.params]
    exact hlength
  · rw [hfg.baseCases]
    rcases Option.or_eq_some_iff.1 hvalue with hbase | ⟨hbase, hmemo⟩
    · rw [hbase, Option.some_or]
    · rw [hbase, Option.none_or]
      exact hfg.kept args value hmemo

namespace Evaluation

section Calls

variable {eval : Operand → Action Number} {name : String} {args : List Number} {value : Number}

theorem callUser_eq_pure {f : UserFunction} (hlength : args.length = f.arity)
    (hvalue : (f.baseCases.find? args).or (f.memo.find? args) = some value) :
    callUser eval name f args = pure value := by
  unfold callUser
  rw [if_neg (not_not.2 hlength)]
  rcases Option.or_eq_some_iff.1 hvalue with hbase | ⟨hbase, hmemo⟩
  · rw [hbase]
  · rw [hbase, hmemo]

/-- A value that is known is given without a change. -/
theorem run_callFunction_of_recalls {c : Context} (h : c.Recalls name args value) :
    (callFunction eval name args).run c = (.ok value, c) := by
  obtain ⟨f, hf, hlength, hvalue⟩ := h
  rw [callFunction, run_context_bind, Context.user?_eq_some.1 hf]
  show (callUser eval name f args).run c = _
  rw [callUser_eq_pure hlength hvalue]
  rfl

/-- After a call of a user function its value is known, also if the function came to remember
another one for these arguments while its body was evaluated. -/
theorem recalls_of_callUser (heval : ∀ o, Traceless (eval o) (eval o)) {c c' : Context}
    {f : UserFunction} (hf : c.user? name = some f)
    (h : (callUser eval name f args).run c = (.ok value, c')) : c'.Recalls name args value := by
  by_cases hlength : args.length = f.arity
  case neg =>
    rw [callUser, if_pos hlength] at h
    cases h
  by_cases hknown : ∃ old, (f.baseCases.find? args).or (f.memo.find? args) = some old
  case pos =>
    obtain ⟨old, hold⟩ := hknown
    rw [callUser_eq_pure hlength hold] at h
    cases h
    exact ⟨f, hf, hlength, hold⟩
  obtain ⟨hbase, hmemo⟩ := Option.or_eq_none_iff.1 (Option.eq_none_iff_forall_ne_some.2
    (not_exists.1 hknown))
  cases hbody : f.body with
  | none =>
    rw [callUser, if_neg (not_not.2 hlength), hbase, hmemo, hbody] at h
    cases h
  | some body =>
    rw [callUser, if_neg (not_not.2 hlength), hbase, hmemo, hbody] at h
    have hgrows := ((heval body).binding (f.params.zip args) c).grows
    rcases hrun : (Action.binding (f.params.zip args) (eval body)).run c with ⟨x, d⟩
    rw [hrun] at hgrows
    cases x with
    | error fault =>
      rw [run_bind_of_error hrun] at h
      cases h
    | ok result =>
      rw [run_bind_of_ok hrun] at h
      cases h
      obtain ⟨g, hg, hfg⟩ := hgrows.exists_user? hf
      refine ⟨g.remember args value, ?_, ?_, ?_⟩
      · rw [Context.user?_updateUser, if_pos rfl, hg]
        rfl
      · show args.length = g.params.length
        rw [hfg.params]
        exact hlength
      · show (g.baseCases.find? args).or ((g.memo.put args value).find? args) = some value
        rw [hfg.baseCases, hbase, Table.find?_put_self]
        rfl

/-- A call repeats whatever the bodies of functions do the second time: none is evaluated. -/
theorem repeats_callFunction (heval : ∀ o, Traceless (eval o) (eval o)) (hrand : name ≠ "rand")
    (hrandint : name ≠ "randint") (eval' : Operand → Action Number) :
    Repeats (callFunction eval name args) (callFunction eval' name args) := by
  intro c hc value c' h
  have hgrows := (traceless_callFunction heval name args c).grows
  rw [h] at hgrows
  refine ⟨hgrows, fun d hd => ?_⟩
  rw [callFunction, run_context_bind] at h
  cases hfunction : c.function? name with
  | none =>
    rw [hfunction] at h
    cases h
  | some f =>
    rw [hfunction] at h
    cases f with
    | builtin b =>
      have hb := hc.isRandom_eq_false hfunction hrand hrandint
      have hcd := hgrows.trans hd
      have hcall : b.call c.numerics 0 args = .ok value :=
        congrArg Prod.fst ((run_callBuiltin hb args c).symm.trans h)
      rw [callFunction, run_context_bind, hcd.function?_builtin hfunction]
      show (callBuiltin b args).run d = _
      rw [run_callBuiltin hb, hcd.numerics, hcall]
    | user f =>
      have hrecalls := recalls_of_callUser heval (Context.user?_eq_some.2 hfunction) h
      exact run_callFunction_of_recalls (hrecalls.grows hd)

end Calls

end Evaluation

/-! ## Summation and product -/

namespace Context

/-- Whatever a name was made, it can be given a value. -/
theorem setVariable_restore (c : Context) (name : String) (old : Option Number) (value : Number) :
    (c.restore (name, old)).setVariable name value = c.setVariable name value := by
  cases old with
  | some old => exact c.setVariable_setVariable name old value
  | none =>
    have hvars : (c.vars.erase name).insert name value = c.vars.insert name value := by
      refine Std.ExtTreeMap.ext_getElem? fun other => ?_
      rw [Std.ExtTreeMap.getElem?_insert, Std.ExtTreeMap.getElem?_insert,
        Std.ExtTreeMap.getElem?_erase]
      split <;> rfl
    exact congrArg (fun vars => { c with vars := vars }) hvars

/-- What only adds to memory leaves a variable with the value given to it. -/
theorem Grows.setVariable_eq {c d : Context} {name : String} {value : Number}
    (h : (c.setVariable name value).Grows d) : d.setVariable name value = d := by
  have hvars : d.vars.insert name value = d.vars := by
    rw [h.vars]
    exact congrArg Context.vars (c.setVariable_setVariable name value value)
  exact congrArg (fun vars => { d with vars := vars }) hvars

end Context

namespace Evaluation

section Terms

variable {term : Action Number} (w : Nat) (name counter : String) (last : Dyadic)

/-- A step gives the counter its value, whatever value it had. -/
theorem run_termStep_setVariable {c c' : Context} {k : Dyadic} {r : Except Fault Number}
    (x total : Number) (h : term.run (c.setVariable counter (.ofReal k)) = (r, c')) :
    (termStep w name counter term k total).run (c.setVariable counter x) =
      (r.map (reductionStep w name total), c') := by
  refine run_termStep_eq w name counter total ?_
  rw [Context.setVariable_setVariable]
  exact h

/-- The steps of a summation that gave a total give it again, with the counter at any value. -/
theorem run_termSteps_again (hgrows : Traceless term term) (hterm : Repeats term term) (fuel : Nat)
    {k : Dyadic} {total result : Number} {c c' d : Context} (hc : c.Named) {x y : Number}
    (h : (termSteps w name counter last term fuel k total).run (c.setVariable counter x) =
      (.ok result, c')) (hd : c'.Grows (d.setVariable counter y)) (z : Number) :
    ∃ z', (termSteps w name counter last term fuel k total).run (d.setVariable counter z) =
      (.ok result, d.setVariable counter z') := by
  induction fuel generalizing k total c x z with
  | zero => cases h
  | succ fuel ih =>
    rw [termSteps_succ] at h ⊢
    split at h
    case isFalse hlast =>
      rw [if_neg hlast]
      cases h
      exact ⟨z, rfl⟩
    case isTrue hlast =>
      rw [if_pos hlast]
      rcases hrun : term.run (c.setVariable counter (.ofReal k)) with ⟨r, c₁⟩
      have hstep := run_termStep_setVariable w name counter x total hrun
      cases r with
      | error fault =>
        rw [run_bind_of_error hstep] at h
        cases h
      | ok value =>
        rw [run_bind_of_ok hstep] at h
        have hbound : (c.setVariable counter (.ofReal k)).Named := hc.of_functions_eq rfl
        obtain ⟨hgrown, hagain⟩ := hterm hbound hrun
        -- the rest of the steps starts with the counter where the term left it
        have hset : c₁.setVariable counter (.ofReal k) = c₁ := hgrown.setVariable_eq
        obtain ⟨⟨last', hrest⟩, -⟩ := traceless_termSteps hgrows w name counter last fuel
          (Binary.add w k 1) (reductionStep w name total value) c₁ (.ofReal k)
          (d := c₁) (by rw [hset]; exact .refl c₁)
        rw [h] at hrest
        have hthere : c₁.Grows (d.setVariable counter (.ofReal k)) := by
          have := (hrest.trans hd).setVariable counter (.ofReal k)
          rwa [Context.setVariable_setVariable, Context.setVariable_setVariable, hset] at this
        rw [run_bind_of_ok (run_termStep_setVariable w name counter z total (hagain _ hthere))]
        rw [← hset] at h
        exact ih (hbound.grows hgrown) h (.ofReal k)

end Terms

theorem repeats_countTerms {term : Action Number} (hgrows : Traceless term term)
    (hterm : Repeats term term) (name counter : String) (first last : Dyadic) :
    Repeats (countTerms name counter first last term)
      (countTerms name counter first last term) := by
  intro c hc result c' h
  have hcount := (traceless_countTerms hgrows name counter first last c).grows
  rw [h] at hcount
  refine ⟨hcount, fun d hd => ?_⟩
  obtain ⟨⟨y, hsteps⟩, -⟩ := traceless_termSteps hgrows c.bits name counter last
    (Binary.stepCount first last + 1) first (reductionUnit name) c (.ofReal first) (.refl _)
  rcases hrun : (termSteps c.bits name counter last term (Binary.stepCount first last + 1) first
    (reductionUnit name)).run (c.setVariable counter (.ofReal first)) with ⟨r, c₁⟩
  rw [hrun] at hsteps
  rw [run_countTerms hrun, Prod.mk.injEq] at h
  obtain ⟨rfl, rfl⟩ := h
  have hthere : c₁.Grows (d.setVariable counter y) := by
    have := hd.setVariable counter y
    rwa [Context.setVariable_restore, hsteps.setVariable_eq] at this
  obtain ⟨z, hagain⟩ := run_termSteps_again c.bits name counter last hgrows hterm
    (Binary.stepCount first last + 1) hc hrun hthere (.ofReal first)
  have hbits : d.bits = c.bits := congrArg Numerics.bits (hcount.trans hd).numerics
  rw [← hbits] at hagain
  rw [run_countTerms hagain, Context.restore_setVariable]

/-! ## Operands -/

section Operands

variable {eval : Operand → Action Number} (hgrows : ∀ o, Traceless (eval o) (eval o))

include hgrows in
theorem repeats_evalReduction {name : String} {args : List Operand}
    (heval : ∀ arg ∈ args, Repeats (eval arg) (eval arg)) :
    Repeats (evalReduction eval name args) (evalReduction eval name args) := by
  unfold evalReduction
  split
  · next counter first last term =>
    refine .context_bind (fun c d h => by rw [h.isTaken_eq]) fun c => ?_
    split
    · exact .fail _ _
    · exact congruence_repeats.evalBounds name counter (heval first (by simp))
        (heval last (by simp)) fun a b =>
          repeats_countTerms (hgrows term) (heval term (by simp)) name counter a b
  · exact .fail _ _
  · exact .fail _ _

include hgrows in
theorem repeats_evalCall {name : String} {args : List Operand}
    (h : (Operand.call name args).CallsWithin Set.univ)
    (heval : ∀ arg ∈ args, Repeats (eval arg) (eval arg)) :
    Repeats (evalCall eval name args) (evalCall eval name args) := by
  unfold evalCall
  split
  · exact repeats_evalReduction hgrows heval
  · refine .context_bind (fun c d hd => by rw [hd.hasFunction_eq]) fun c => ?_
    split
    · refine (congruence_repeats.mapM heval).bind fun values => ?_
      exact repeats_callFunction hgrows (Operand.ne_of_not_calls h.rand)
        (Operand.ne_of_not_calls h.randint) eval
    · exact .fail _ _

end Operands

theorem repeats_evalAt (levels : Nat) {o : Operand} (h : o.CallsWithin Set.univ) :
    Repeats (evalAt levels o) (evalAt levels o) := by
  induction levels generalizing o with
  | zero =>
    exact congruence_repeats.evalOperand (fun n _ => repeats_evalVariable n) fun _ _ _ => .fail _ _
  | succ levels ih =>
    refine congruence_repeats.evalOperand (fun n _ => repeats_evalVariable n)
      fun name args hcall => ?_
    have hcalls := h.of_occurs fun _ hpart => hpart.trans hcall
    refine (repeats_evalCall (traceless_evalAt_self levels) hcalls fun arg harg => ?_).deeper
    exact ih (hcalls.argument harg)

end Evaluation

/-- **Evaluation is idempotent.** In any context, whatever its functions remember, and for any
operand that does not itself call a random function: an evaluation that gave a value, done again at
once, gives this value again and leaves the context as it is. -/
theorem Operand.evaluate_again {o : Operand} (hrand : ¬ o.Calls "rand")
    (hrandint : ¬ o.Calls "randint") {c c' : Context} (hnamed : c.Named) {value : Number}
    (h : o.evaluate.run c = (.ok value, c')) : o.evaluate.run c' = (.ok value, c') := by
  have hrepeats := Evaluation.repeats_evalAt c.levels (o := o) ⟨hrand, hrandint, fun _ _ => trivial⟩
  obtain ⟨hgrows, hagain⟩ := hrepeats hnamed h
  have hlevels : c'.levels = c.levels := by
    unfold Context.levels
    rw [hgrows.ceiling, hgrows.depth]
  show (Evaluation.evalAt c'.levels o).run c' = _
  rw [hlevels]
  exact hagain c' (.refl c')

/-- A context with `k` equal to `2` and the functions `f[x]=k+g[k-1]`, `g[k]=f[1]` and `g[0]=0`. -/
def echoContext : Context :=
  (((Context.empty .standard).setVariable "k" 2).setFunction "f"
    (.user (.define ["x"] (some (.expression [.operand (.var "k"), .operator ⟨'+'⟩,
      .operand (.call "g" [.expression [.operand (.var "k"), .operator ⟨'-'⟩,
        .operand (.numeral 1 "1")]])]))))).setFunction "g"
    (.user ((UserFunction.define ["k"] (some (.call "f" [.numeral 1 "1"]))).putBaseCase [0] 0))

theorem named_echoContext : echoContext.Named := by
  intro n b hb
  unfold echoContext at hb
  rw [Context.function?_setFunction, Context.function?_setFunction] at hb
  split at hb
  · cases hb
  · split at hb
    · cases hb
    · simp at hb

/-- The operand `f[1]`: its value is `3`, while the call of `f[1]` inside it gives `1` first. -/
theorem Operand.evaluate_again_of_echo :
    let o := Operand.call "f" [.numeral 1 "1"]
    ¬ o.Calls "rand" ∧ ¬ o.Calls "randint" ∧ echoContext.Named ∧
      (o.evaluate.run echoContext).1 = .ok 3 ∧
      ((o.evaluate.run echoContext).2.user? "g").map (fun g => g.memo.entries) =
        some [([1], 1)] ∧
      o.evaluate.run (o.evaluate.run echoContext).2 = (.ok 3, (o.evaluate.run echoContext).2) := by
  intro o
  have hrand : ¬ o.Calls "rand" := fun h => absurd (mem_references_of_calls h) (by decide)
  have hrandint : ¬ o.Calls "randint" := fun h => absurd (mem_references_of_calls h) (by decide)
  have hvalue : (o.evaluate.run echoContext).1 = .ok 3 := by decide +kernel
  refine ⟨hrand, hrandint, named_echoContext, hvalue, by decide +kernel, ?_⟩
  exact evaluate_again hrand hrandint named_echoContext (Prod.ext hvalue rfl)

end Reckoner
