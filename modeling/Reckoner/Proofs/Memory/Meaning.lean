import Reckoner.Proofs.Evaluation.Chance
import Reckoner.Proofs.Memory.Bare
import Reckoner.Proofs.Operand.Occurs

/-!
# The meaning of operands

1. `Evaluation.meaningAt` is evaluation in which functions neither remember values nor look at
   remembered ones, with a number of levels for calls inside calls.
2. It leaves the context as it is, and it only hangs on the names that an operand refers to,
   directly or through functions (`steady_meaningAt`): contexts that agree on a closed set of names
   give the same results.
-/

namespace Reckoner

namespace Evaluation

/-! ## Evaluation without memory -/

/-- The value of a user function, given that of its body. -/
def userMeaning (eval : Operand → Action Number) (name : String) (f : UserFunction)
    (args : List Number) : Action Number :=
  if args.length ≠ f.arity then .fail (.eval (.wrongArity name f.arity args.length))
  else
    match f.baseCases.find? args, f.body with
    | some value, _ => pure value
    | none, none => do
      let c ← Action.context
      .fail (.eval (.noDefinition name (UserFunction.argumentsText c.precision args)))
    | none, some body => Action.binding (f.params.zip args) (eval body)

/-- The value of the function of a name; chance plays no part in it. -/
def functionMeaning (eval : Operand → Action Number) (name : String) (args : List Number) :
    Action Number := do
  let c ← Action.context
  match c.function? name with
  | none => .fail (.eval (.undefinedFunction name))
  | some (.builtin b) => Action.ofExcept (b.call c.numerics 0 args)
  | some (.user f) => userMeaning eval name f args

/-- The value of a call, given that of an operand. -/
def callMeaning (eval : Operand → Action Number) (name : String) (args : List Operand) :
    Action Number :=
  if Reserved.isReduction name then evalReduction eval name args
  else do
    let c ← Action.context
    if c.hasFunction name then
      let values ← args.mapM eval
      functionMeaning eval name values
    else .fail (.eval (.undefinedFunction name))

def callMeaningAt : Nat → String → List Operand → Action Number
  | 0 => fun _ _ => .fail (.depth .recursion)
  | levels + 1 => callMeaning (evalOperand (callMeaningAt levels))

/-- The value of an operand with a number of levels left for calls. -/
def meaningAt (levels : Nat) : Operand → Action Number := evalOperand (callMeaningAt levels)

end Evaluation

/-! ## Agreement on names -/

/-- Two contexts give the same values and functions to the names of a set, which is closed under
the references of its functions.  Parameters of these functions are no user functions. -/
structure Context.Agree (D : Set String) (c d : Context) : Prop where
  numerics : c.numerics = d.numerics
  values : ∀ n ∈ D, c.valueOf? n = d.valueOf? n
  functions : ∀ n ∈ D, (c.function? n).map Function.forget = (d.function? n).map Function.forget
  closed : ∀ n ∈ D, ∀ f, c.user? n = some f → ∀ r ∈ f.references, r ∈ D
  params : ∀ n ∈ D, ∀ f, c.user? n = some f → f.body ≠ none → ∀ p ∈ f.params,
    (c.function? p).map Function.forget = (d.function? p).map Function.forget ∧ c.user? p = none

namespace Context

variable {D : Set String} {c d : Context}

theorem Agree.bits (h : Agree D c d) : c.bits = d.bits := congrArg Numerics.bits h.numerics

theorem Agree.precision (h : Agree D c d) : c.precision = d.precision :=
  congrArg Numerics.precision h.numerics

theorem Agree.hasFunction (h : Agree D c d) {n : String} (hn : n ∈ D) :
    c.hasFunction n = d.hasFunction n := by
  rw [hasFunction_eq, hasFunction_eq, ← Option.isSome_map (f := Function.forget), h.functions n hn,
    Option.isSome_map]

theorem Agree.isTaken (h : Agree D c d) {n : String} (hn : n ∈ D) : c.isTaken n = d.isTaken n := by
  unfold Context.isTaken
  rw [h.hasFunction hn, hasVariable_eq, hasVariable_eq, h.values n hn]

theorem valueOf?_bindAll_congr {bindings : List (String × Number)} (scope scope' : Scope)
    {n : String} (h : n ∈ bindings.map Prod.fst ∨ c.valueOf? n = d.valueOf? n) :
    (c.bindAll scope bindings).2.valueOf? n = (d.bindAll scope' bindings).2.valueOf? n := by
  induction bindings generalizing c d scope scope' with
  | nil => exact h.resolve_left List.not_mem_nil
  | cons binding bindings ih =>
    refine @ih (c.setVariable binding.1 binding.2) (d.setVariable binding.1 binding.2) _ _ ?_
    rw [List.map_cons, List.mem_cons] at h
    rw [valueOf?_setVariable, valueOf?_setVariable]
    by_cases hn : binding.1 = n
    · exact .inr (by rw [if_pos hn, if_pos hn])
    · rw [if_neg hn, if_neg hn]
      exact h.imp_left fun h => h.resolve_left fun heq => hn heq.symm

theorem numerics_bindAll (c : Context) (scope : Scope) (bindings : List (String × Number)) :
    (c.bindAll scope bindings).2.numerics = c.numerics := by
  induction bindings generalizing c scope with
  | nil => rfl
  | cons binding bindings ih => exact ih (c.setVariable binding.1 binding.2) _

theorem function?_bindAll (c : Context) (scope : Scope) (bindings : List (String × Number))
    (n : String) : (c.bindAll scope bindings).2.function? n = c.function? n := by
  induction bindings generalizing c scope with
  | nil => rfl
  | cons binding bindings ih => exact ih (c.setVariable binding.1 binding.2) _

theorem user?_bindAll (c : Context) (scope : Scope) (bindings : List (String × Number))
    (n : String) : (c.bindAll scope bindings).2.user? n = c.user? n := by
  unfold user?
  rw [function?_bindAll]

theorem Agree.setVariable (h : Agree D c d) (n : String) (value : Number) :
    Agree D (c.setVariable n value) (d.setVariable n value) where
  numerics := h.numerics
  values r hr := by
    rw [valueOf?_setVariable, valueOf?_setVariable, h.values r hr]
  functions := h.functions
  closed := h.closed
  params := h.params

/-- Binding the same names to the same values makes contexts agree on these names. -/
theorem Agree.bindAll (h : Agree D c d) {bindings : List (String × Number)}
    (hnames : ∀ p ∈ bindings.map Prod.fst,
      (c.function? p).map Function.forget = (d.function? p).map Function.forget ∧
        c.user? p = none) :
    Agree {n | n ∈ D ∨ n ∈ bindings.map Prod.fst} (c.bindAll [] bindings).2
      (d.bindAll [] bindings).2 where
  numerics := by rw [numerics_bindAll, numerics_bindAll, h.numerics]
  values n hn := valueOf?_bindAll_congr [] [] (hn.symm.imp_right fun hn => h.values n hn)
  functions n hn := by
    rw [function?_bindAll, function?_bindAll]
    exact hn.elim (h.functions n) fun hn => (hnames n hn).1
  closed n hn f hf r hr := by
    rw [user?_bindAll] at hf
    refine .inl (h.closed n (hn.resolve_right fun hn => ?_) f hf r hr)
    rw [(hnames n hn).2] at hf
    cases hf
  params n hn f hf hbody p hp := by
    rw [user?_bindAll] at hf
    rw [function?_bindAll, function?_bindAll, user?_bindAll]
    refine h.params n (hn.resolve_right fun hn => ?_) f hf hbody p hp
    rw [(hnames n hn).2] at hf
    cases hf

end Context

/-! ## Steady actions -/

namespace Action

variable {α β : Type} {D : Set String}

/-- An action that leaves the context as it is and gives the same result in contexts that agree. -/
def Steady (D : Set String) (act : Action α) : Prop :=
  ∀ c, (act.run c).2 = c ∧ ∀ d, Context.Agree D c d → (act.run c).1 = (act.run d).1

theorem Steady.pure (a : α) : Steady D (Pure.pure a : Action α) :=
  fun _ => ⟨rfl, fun _ _ => rfl⟩

theorem Steady.fail (fault : Fault) : Steady D (Action.fail fault : Action α) :=
  fun _ => ⟨rfl, fun _ _ => rfl⟩

theorem Steady.context_bind {next : Context → Action β} (hreads : ∀ c, ((next c).run c).2 = c)
    (hnext : ∀ c d, Context.Agree D c d → ((next c).run c).1 = ((next d).run d).1) :
    Steady D (Action.context >>= next) :=
  fun c => ⟨hreads c, fun d h => hnext c d h⟩

theorem Steady.bind {act : Action α} {next : α → Action β} (h : Steady D act)
    (hn : ∀ a, Steady D (next a)) : Steady D (act >>= next) := by
  intro c
  obtain ⟨hc, hagree⟩ := h c
  rcases hrun : act.run c with ⟨x, c'⟩
  rw [hrun] at hc hagree
  simp only at hc
  subst hc
  constructor
  · cases x with
    | error fault => rw [run_bind_of_error hrun]
    | ok a =>
      rw [run_bind_of_ok hrun]
      exact (hn a c').1
  · intro d hd
    obtain ⟨hd', -⟩ := h d
    have hx := hagree d hd
    rcases hrun' : act.run d with ⟨y, d'⟩
    rw [hrun'] at hd' hx
    simp only at hd' hx
    subst hd' hx
    cases x with
    | error fault => rw [run_bind_of_error hrun, run_bind_of_error hrun']
    | ok a =>
      rw [run_bind_of_ok hrun, run_bind_of_ok hrun']
      exact (hn a c').2 d' hd

theorem Steady.mapM {f : α → Action β} {xs : List α} (h : ∀ x ∈ xs, Steady D (f x)) :
    Steady D (xs.mapM f) := by
  induction xs with
  | nil => rw [List.mapM_nil]; exact .pure _
  | cons x xs ih =>
    rw [List.mapM_cons]
    refine (h x (by simp)).bind fun _ => ?_
    exact (ih fun y hy => h y (by simp [hy])).bind fun _ => .pure _

/-- Names bound around an action that only reads leave no trace. -/
theorem run_binding_snd {act : Action α} (h : ∀ c, (act.run c).2 = c)
    (bindings : List (String × Number)) (c : Context) :
    ((Action.binding bindings act).run c).2 = c := by
  rw [run_binding, h, Context.close_bindAll]
  rfl

end Action

theorem Context.setVariable_setVariable (c : Context) (name : String) (value value' : Number) :
    (c.setVariable name value).setVariable name value' = c.setVariable name value' := by
  have hvars : (c.vars.insert name value).insert name value' = c.vars.insert name value' := by
    apply Std.ExtTreeMap.ext_getElem?
    intro other
    rw [Std.ExtTreeMap.getElem?_insert, Std.ExtTreeMap.getElem?_insert,
      Std.ExtTreeMap.getElem?_insert]
    split <;> rfl
  exact congrArg (fun vars => { c with vars := vars }) hvars

namespace Evaluation

open Reckoner.Action

variable {D : Set String}

/-! ## Summation and product -/

section Terms

variable {term : Action Number} (w : Nat) (name counter : String) (last : Dyadic)

def termStep (term : Action Number) (k : Dyadic) (total : Number) : Action Number := do
  Action.change (fun c => c.setVariable counter (.ofReal k))
  let value ← term
  pure (reductionStep w name total value)

def termSteps (term : Action Number) : Nat → Dyadic → Number → Action Number :=
  Binary.countUp w last (.fail .endless) (termStep w name counter term)

theorem termSteps_succ (term : Action Number) (fuel : Nat) (k : Dyadic) (total : Number) :
    termSteps w name counter last term (fuel + 1) k total =
      if k ≤ last then termStep w name counter term k total >>=
        termSteps w name counter last term fuel (Binary.add w k 1)
      else pure total := by
  rw [termSteps, Binary.countUp]

theorem run_termStep_eq {c c' : Context} {k : Dyadic} {r : Except Fault Number} (total : Number)
    (h : term.run (c.setVariable counter (.ofReal k)) = (r, c')) :
    (termStep w name counter term k total).run c = (r.map (reductionStep w name total), c') := by
  rw [termStep, run_change_bind, run_bind, h]
  cases r with
  | error fault => rfl
  | ok value => rfl

theorem run_termStep (hterm : ∀ c, (term.run c).2 = c) (c : Context) (x : Number) (k : Dyadic)
    (total : Number) :
    (termStep w name counter term k total).run (c.setVariable counter x) =
      ((term.run (c.setVariable counter (.ofReal k))).1.map (reductionStep w name total),
        c.setVariable counter (.ofReal k)) := by
  refine run_termStep_eq w name counter total ?_
  rw [Context.setVariable_setVariable]
  exact Prod.ext rfl (hterm _)

theorem run_termSteps_snd (hterm : ∀ c, (term.run c).2 = c) (fuel : Nat) (k : Dyadic)
    (total : Number) (c : Context) (x : Number) :
    ∃ y, ((termSteps w name counter last term fuel k total).run (c.setVariable counter x)).2 =
      c.setVariable counter y := by
  induction fuel generalizing k total x with
  | zero => exact ⟨x, rfl⟩
  | succ fuel ih =>
    rw [termSteps_succ]
    split
    · have hstep := run_termStep w name counter hterm c x k total
      cases hvalue : (term.run (c.setVariable counter (.ofReal k))).1 with
      | error fault =>
        rw [hvalue] at hstep
        rw [run_bind_of_error hstep]
        exact ⟨_, rfl⟩
      | ok value =>
        rw [hvalue] at hstep
        rw [run_bind_of_ok hstep]
        exact ih _ _ _
    · exact ⟨x, rfl⟩

theorem run_termSteps_fst (hterm : Steady D term) (fuel : Nat) (k : Dyadic) (total : Number)
    {c d : Context} (h : Context.Agree D c d) (x y : Number) :
    ((termSteps w name counter last term fuel k total).run (c.setVariable counter x)).1 =
      ((termSteps w name counter last term fuel k total).run (d.setVariable counter y)).1 := by
  induction fuel generalizing k total x y with
  | zero => rfl
  | succ fuel ih =>
    rw [termSteps_succ]
    split
    · have hstep := run_termStep w name counter (fun c => (hterm c).1) c x k total
      have hstep' := run_termStep w name counter (fun c => (hterm c).1) d y k total
      rw [← (hterm _).2 _ (h.setVariable counter (.ofReal k))] at hstep'
      cases hvalue : (term.run (c.setVariable counter (.ofReal k))).1 with
      | error fault =>
        rw [hvalue] at hstep hstep'
        rw [run_bind_of_error hstep, run_bind_of_error hstep']
      | ok value =>
        rw [hvalue] at hstep hstep'
        rw [run_bind_of_ok hstep, run_bind_of_ok hstep']
        exact ih _ _ _ _
    · rfl

end Terms

/-- A summation sets its counter, takes its steps and makes the counter what it was before. -/
theorem run_countTerms {name counter : String} {first last : Dyadic} {term : Action Number}
    {c c' : Context} {r : Except Fault Number}
    (h : (termSteps c.bits name counter last term (Binary.stepCount first last + 1) first
      (reductionUnit name)).run (c.setVariable counter (.ofReal first)) = (r, c')) :
    (countTerms name counter first last term).run c =
      (r, c'.restore (counter, c.valueOf? counter)) := by
  show (binding [(counter, .ofReal first)] (termSteps c.bits name counter last term
    (Binary.stepCount first last + 1) first (reductionUnit name))).run c = _
  rw [run_binding]
  show (((termSteps _ _ _ _ _ _ _ _).run (c.setVariable counter (.ofReal first))).1,
    ((termSteps _ _ _ _ _ _ _ _).run (c.setVariable counter (.ofReal first))).2.restore
      (counter, c.valueOf? counter)) = _
  rw [h]

theorem steady_countTerms {term : Action Number} (hterm : Steady D term) (name counter : String)
    (first last : Dyadic) : Steady D (countTerms name counter first last term) := by
  have hrun := fun c : Context => run_countTerms (Eq.refl ((termSteps c.bits name counter last term
    (Binary.stepCount first last + 1) first (reductionUnit name)).run
      (c.setVariable counter (.ofReal first))))
  intro c
  constructor
  · rw [hrun]
    obtain ⟨y, hy⟩ := run_termSteps_snd c.bits name counter last (fun c => (hterm c).1)
      (Binary.stepCount first last + 1) first (reductionUnit name) c (.ofReal first)
    show ((termSteps _ _ _ _ _ _ _ _).run _).2.restore (counter, c.valueOf? counter) = c
    rw [hy, Context.restore_setVariable]
  · intro d h
    rw [hrun, hrun, h.bits]
    exact run_termSteps_fst d.bits name counter last hterm _ first _ h _ _

/-! ## Operands -/

theorem steady_evalVariable {name : String} (h : name ∈ D) : Steady D (evalVariable name) := by
  refine .context_bind (fun c => ?_) fun c d hagree => ?_
  · split <;> rfl
  · rw [hagree.values name h]
    split <;> rfl

section Operands

variable {call : String → List Operand → Action Number}

theorem steady_reading {α : Type} (f : Numerics → Except Fault α) :
    Steady D (Action.context >>= fun c => Action.ofExcept (f c.numerics)) := by
  refine .context_bind (fun c => rfl) fun c d hagree => ?_
  rw [hagree.numerics]
  rfl

theorem steady_evalTokens {ts : List (Token Operand)}
    (hparts : ∀ o, .operand o ∈ ts → Steady D (evalOperand call o)) (r : Reducer Number) :
    Steady D (evalTokens call ts r) := by
  induction ts generalizing r with
  | nil =>
    rw [evalTokens]
    exact .pure r
  | cons t ts ih =>
    have hts := fun o h => hparts o (List.mem_cons_of_mem _ h)
    cases t with
    | operand o =>
      rw [evalTokens]
      split
      · exact (hparts o (by simp)).bind fun value => ih hts _
      · exact .fail _
    | operator op =>
      rw [evalTokens]
      simp only [← bind_assoc]
      exact (steady_reading fun m => r.pushOperator (algebra m) op).bind fun r => ih hts r
    | grouper g =>
      rw [evalTokens]
      simp only [← bind_assoc]
      exact (steady_reading fun m => r.pushGrouper (algebra m) g).bind fun r => ih hts r

theorem steady_evalOperand
    (hcall : ∀ name args, (∀ n ∈ (Operand.call name args).references, n ∈ D) →
      Steady D (call name args))
    {o : Operand} (ho : ∀ n ∈ o.references, n ∈ D) : Steady D (evalOperand call o) := by
  induction o using Operand.induction with
  | numeral value text =>
    rw [evalOperand]
    exact .pure value
  | var name =>
    rw [evalOperand]
    exact steady_evalVariable (ho name (Operand.mem_references_var.2 rfl))
  | expression tokens ih =>
    rw [evalOperand]
    refine (steady_evalTokens (fun o hmem => ih o hmem fun n hn => ?_) _).bind fun r =>
      steady_reading fun m => r.finish (algebra m)
    exact ho n (Operand.mem_references_expression.2 ⟨o, hmem, hn⟩)
  | call name args _ =>
    rw [evalOperand]
    exact hcall name args ho

end Operands

/-! ## Calls -/

section Calls

variable {eval : Operand → Action Number}

theorem steady_evalReduction {name : String} {args : List Operand}
    (heval : ∀ arg ∈ args, Steady D (eval arg))
    (hcounter : ∀ counter rest, args = .var counter :: rest → counter ∈ D) :
    Steady D (evalReduction eval name args) := by
  unfold evalReduction
  split
  · next counter first last term =>
    have hmem := hcounter counter _ rfl
    have hbounds : Steady D (evalBounds eval name counter first last term) := by
      unfold evalBounds
      refine (heval first (by simp)).bind fun a => (heval last (by simp)).bind fun b => ?_
      split
      · exact .fail _
      · split
        · refine .context_bind (fun c => rfl) fun c d hagree => ?_
          rw [hagree.precision]
          rfl
        · exact steady_countTerms (heval term (by simp)) name counter _ _
    refine .context_bind (fun c => ?_) fun c d hagree => ?_
    · split
      · rfl
      · exact (hbounds c).1
    · rw [hagree.isTaken hmem]
      split
      · rfl
      · exact (hbounds c).2 d hagree
  · exact .fail _
  · exact .fail _

theorem map_fst_zip_params {f : UserFunction} {args : List Number} (h : ¬ args.length ≠ f.arity) :
    (f.params.zip args).map Prod.fst = f.params := by
  refine List.map_fst_zip ?_
  rw [not_not] at h
  exact Nat.le_of_eq h.symm

variable (heval : ∀ (D : Set String) (o : Operand), (∀ n ∈ o.references, n ∈ D) →
  Steady D (eval o))

include heval in
theorem reads_userMeaning (name : String) (f : UserFunction) (args : List Number) (c : Context) :
    ((userMeaning eval name f args).run c).2 = c := by
  unfold userMeaning
  split
  · rfl
  · split
    · rfl
    · rfl
    · exact run_binding_snd (fun c => (heval Set.univ _ (fun _ _ => trivial) c).1) _ c

include heval in
/-- The body of a function means the same in contexts that agree on what it refers to. -/
theorem run_body_congr {c d : Context} (hagree : Context.Agree D c d) {f : UserFunction}
    (hreferences : ∀ r ∈ f.references, r ∈ D)
    (hparams : ∀ p ∈ f.params,
      (c.function? p).map Function.forget = (d.function? p).map Function.forget ∧ c.user? p = none)
    {body : Operand} (hbody : f.body = some body) {args : List Number}
    (harity : ¬ args.length ≠ f.arity) :
    ((eval body).run (c.bindAll [] (f.params.zip args)).2).1 =
      ((eval body).run (d.bindAll [] (f.params.zip args)).2).1 := by
  have hkeys := map_fst_zip_params harity
  have hbound := @Context.Agree.bindAll D c d hagree (f.params.zip args) fun p hp => by
    rw [hkeys] at hp
    exact hparams p hp
  refine (heval _ body (fun n hn => ?_) _).2 _ hbound
  rw [hkeys]
  by_cases hp : n ∈ f.params
  · exact .inr hp
  · exact .inl (hreferences n (UserFunction.mem_references.2 ⟨body, hbody, hn, hp⟩))

include heval in
/-- A function of a closed set gives the same values in contexts that agree on it. -/
theorem run_userMeaning_congr {c d : Context} (hagree : Context.Agree D c d) {name : String}
    (hname : name ∈ D) {f : UserFunction} (hf : c.user? name = some f) (args : List Number) :
    ((userMeaning eval name f args).run c).1 = ((userMeaning eval name f args).run d).1 := by
  unfold userMeaning
  split
  · rfl
  · next harity =>
    split
    · rfl
    · rw [run_context_bind, run_context_bind, hagree.precision]
      rfl
    · next body _ hbody =>
      rw [run_binding, run_binding]
      refine run_body_congr heval hagree (hagree.closed name hname f hf)
        (hagree.params name hname f hf ?_) hbody harity
      rw [hbody]
      exact Option.some_ne_none body

include heval in
theorem steady_functionMeaning {name : String} (hname : name ∈ D) (args : List Number) :
    Steady D (functionMeaning eval name args) := by
  refine .context_bind (fun c => ?_) fun c d hagree => ?_
  · split
    · rfl
    · rfl
    · exact reads_userMeaning heval name _ args c
  · have hfunctions := hagree.functions name hname
    cases hc : c.function? name with
    | none =>
      rw [hc] at hfunctions
      rw [Option.map_eq_none_iff.1 hfunctions.symm]
      rfl
    | some f =>
      rw [hc] at hfunctions
      obtain ⟨g, hg, hforget⟩ := Option.map_eq_some_iff.1 hfunctions.symm
      rw [hg]
      cases f with
      | builtin b =>
        cases g with
        | builtin b' =>
          cases hforget
          simp only [hagree.numerics]
          rfl
        | user g => cases hforget
      | user f =>
        cases g with
        | builtin b' => cases hforget
        | user g =>
          have huser : c.user? name = some f := by
            unfold Context.user?
            rw [hc]
            rfl
          -- what a function means does not hang on what it remembers
          have hmeaning : userMeaning eval name g args = userMeaning eval name f args := by
            have heq : g.forget = f.forget := Function.user.inj hforget
            show userMeaning eval name g.forget args = userMeaning eval name f.forget args
            rw [heq]
          simp only [hmeaning]
          exact run_userMeaning_congr heval hagree hname huser args

include heval in
theorem steady_callMeaning {name : String} {args : List Operand}
    (h : ∀ n ∈ (Operand.call name args).references, n ∈ D) :
    Steady D (callMeaning eval name args) := by
  have hname : name ∈ D := h name (Operand.mem_references_call.2 (.inl rfl))
  have hargs : ∀ arg ∈ args, Steady D (eval arg) := fun arg harg =>
    heval D arg fun n hn => h n (Operand.mem_references_call.2 (.inr ⟨arg, harg, hn⟩))
  unfold callMeaning
  split
  · refine steady_evalReduction hargs fun counter rest heq => ?_
    refine h counter (Operand.mem_references_call.2 (.inr ⟨.var counter, ?_, ?_⟩))
    · rw [heq]
      exact List.mem_cons_self
    · exact Operand.mem_references_var.2 rfl
  · have hcall : Steady D (args.mapM eval >>= functionMeaning eval name) :=
      (Steady.mapM hargs).bind fun values => steady_functionMeaning heval hname values
    refine .context_bind (fun c => ?_) fun c d hagree => ?_
    · split
      · exact (hcall c).1
      · rfl
    · rw [hagree.hasFunction hname]
      split
      · exact (hcall c).2 d hagree
      · rfl

end Calls

theorem steady_callMeaningAt (levels : Nat) {name : String} {args : List Operand}
    (h : ∀ n ∈ (Operand.call name args).references, n ∈ D) :
    Steady D (callMeaningAt levels name args) := by
  induction levels generalizing D name args with
  | zero => exact .fail _
  | succ levels ih =>
    refine steady_callMeaning (fun D o ho => ?_) h
    exact steady_evalOperand (fun name args => ih) ho

/-- The meaning of an operand leaves the context as it is and is the same in contexts that agree on
a closed set with the references of the operand. -/
theorem steady_meaningAt (levels : Nat) {o : Operand} (h : ∀ n ∈ o.references, n ∈ D) :
    Steady D (meaningAt levels o) :=
  steady_evalOperand (fun _ _ => steady_callMeaningAt levels) h

end Evaluation

end Reckoner
