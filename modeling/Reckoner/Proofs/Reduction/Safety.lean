import Reckoner.Proofs.Evaluation.Shape
import Reckoner.Proofs.Evaluation.Yields
import Reckoner.Proofs.Memory.Bare
import Reckoner.Proofs.Operand.WellFormed
import Reckoner.Proofs.Reduction.Acceptance

/-!
# Compiled operands fail because of values only

`Evaluation.Tame I Q`: in contexts with the property `I` functions have well formed bodies, and `Q`
holds of the faults of values, of calls that are too deep and of what else functions that are built
in may fail with.

1. Well ordered tokens are reduced with faults of values only (`Tame.evalTokens`): the reduction
   follows the walk of the order check.
2. Evaluating a well formed operand in a context with `I` fails only with faults in `Q`, at any
   depth (`Tame.evalAt`).

So a well formed operand is never found out of shape (`yields_evalAt`).  With the agreement of order
check and reduction this is `order_check_agrees_with_reduction`.
-/

namespace Reckoner

/-- Every user function of a context has a well formed body, if it has one. -/
def Context.WellFormed (c : Context) : Prop :=
  ∀ name f body, c.user? name = some f → f.body = some body → body.WellFormed

theorem Context.stable_wellFormed : Stable Context.WellFormed where
  functions {c c'} h hc name f body hf hb := by
    refine hc name f body ?_ hb
    rw [← hf]
    unfold user? function?
    rw [h]
  remember {c} name args value hc other f body hf hb := by
    rw [user?_updateUser] at hf
    split at hf
    · obtain ⟨g, hg, rfl⟩ := Option.map_eq_some_iff.1 hf
      exact hc other g body hg hb
    · exact hc other f body hf hb

namespace Evaluation

open Reckoner.Action

/-- What is needed of contexts and faults for evaluation to keep to them. -/
structure Tame (I : Context → Prop) (Q : Fault → Prop) : Prop where
  stable : Stable I
  bodies : ∀ c, I c → c.WellFormed
  value : ∀ fault : Fault, fault.isValue = true → Q fault
  tooDeep : Q (.depth .recursion)
  implemented : ∀ c name b, I c → Reserved.isReduction name = false →
    c.function? name = some (.builtin b) → Reserved.isReduction b.name = true →
      Q (.defect (.noImplementation b.name))

namespace Tame

variable {I : Context → Prop} {Q : Fault → Prop} (h : Tame I Q)

include h

/-! ## Tokens -/

section Tokens

variable {call : String → List Operand → Action Number}

omit h in
theorem isValue_of_fails {m : Numerics} {fault : Fault} (hfails : (algebra m).Fails fault) :
    fault.isValue = true := by
  obtain ⟨op, x, y, hop, hxy⟩ := hfails
  rcases Operator.fault_of_apply m.bits_pos hxy with hvalue | ⟨hunknown, -⟩
  · exact hvalue
  · rw [hop] at hunknown
    cases hunknown

/-- Well ordered tokens are reduced without other faults than those that the values of their
operands bring about. -/
theorem evalTokens {ts : List (Token Operand)} (hknown : ∀ t ∈ ts, t.IsKnown)
    (hparts : ∀ o, .operand o ∈ ts → Yields I Q (fun _ => True) (evalOperand call o))
    {p p' : Token.Place} (hwalk : p.walk Operand.text ts = .ok p') {r : Reducer Number}
    (hr : Reducer.Follows p r) :
    Yields I Q (Reducer.Follows p') (Evaluation.evalTokens call ts r) := by
  induction ts generalizing p r with
  | nil =>
    cases hwalk
    rw [Evaluation.evalTokens]
    exact .pure hr
  | cons t ts ih =>
    have ht := hknown t (by simp)
    have hts : ∀ t ∈ ts, t.IsKnown := fun t h => hknown t (by simp [h])
    have hps := fun o h => hparts o (List.mem_cons_of_mem _ h)
    rw [Token.Place.walk] at hwalk
    cases hstep : p.step Operand.text t with
    | error fault => rw [hstep] at hwalk; cases hwalk
    | ok p₁ =>
      rw [hstep] at hwalk
      -- one push of the reduction with the value at hand, as the walk sees it
      have hok : ∀ (m : Numerics) (leaf : Operand → Number) {r₁ : Reducer Number},
          r.push (algebra m) leaf Operand.text t = .ok r₁ → Reducer.Follows p₁ r₁ := by
        intro m leaf r₁ h₁
        obtain ⟨p₂, hp₂, h₂⟩ := hr.push_ok ht h₁
        rw [hstep] at hp₂
        cases hp₂
        exact h₂
      have herror : ∀ (m : Numerics) (leaf : Operand → Number) {fault : Fault},
          r.push (algebra m) leaf Operand.text t = .error fault → Q fault := by
        intro m leaf fault h₁
        exact h.value fault (isValue_of_fails (hr.push_error ht hstep h₁))
      cases t with
      | operand o =>
        rw [Evaluation.evalTokens]
        split
        · next he =>
          refine (hparts o (by simp)).bind fun value _ => ih hts hps hwalk ?_
          exact hok ⟨.plain, .standard, 0⟩ (fun _ => value) (by rw [Reducer.push, if_pos he])
        · next he =>
          refine .fail (herror ⟨.plain, .standard, 0⟩ (fun _ => 0) ?_)
          rw [Reducer.push, if_neg he]
      | operator op =>
        rw [Evaluation.evalTokens]
        refine Yields.context.bind fun c _ => ?_
        refine (Yields.ofExcept (fun _ => hok c.numerics (fun _ => 0))
          (fun _ => herror c.numerics (fun _ => 0))).bind fun r₁ h₁ => ih hts hps hwalk h₁
      | grouper g =>
        rw [Evaluation.evalTokens]
        refine Yields.context.bind fun c _ => ?_
        refine (Yields.ofExcept (fun _ => hok c.numerics (fun _ => 0))
          (fun _ => herror c.numerics (fun _ => 0))).bind fun r₁ h₁ => ih hts hps hwalk h₁

theorem evalOperand
    (hcall : ∀ name args, (Operand.call name args).WellFormed →
      Yields I Q (fun _ => True) (call name args))
    {o : Operand} (ho : o.WellFormed) :
    Yields I Q (fun _ => True) (Evaluation.evalOperand call o) := by
  induction ho with
  | numeral value text =>
    rw [Evaluation.evalOperand]
    exact .pure trivial
  | var name =>
    rw [Evaluation.evalOperand]
    refine Yields.context.bind fun c _ => ?_
    split
    · exact .pure trivial
    · exact .fail (h.value _ rfl)
  | @expression tokens order known parts ih =>
    have hwalk : Token.Place.start.walk Operand.text tokens = .ok ⟨false, 0⟩ :=
      (Token.checkOrder_eq_ok_iff_endsWell Operand.text tokens).1
        ((Token.checkOrder_eq_ok_iff Operand.text tokens).2 order)
    rw [Evaluation.evalOperand]
    refine (h.evalTokens known ih hwalk Reducer.follows_start).bind fun r hr => ?_
    refine Yields.context.bind fun c _ => .ofExcept (fun _ _ => trivial) fun fault hf => ?_
    exact h.value fault (isValue_of_fails (hr.finish_error hf))
  | @call name args shape parts ih =>
    rw [Evaluation.evalOperand]
    exact hcall name args (.call shape parts)

end Tokens

/-! ## Calls -/

section Calls

variable {eval : Operand → Action Number}
  (heval : ∀ o : Operand, o.WellFormed → Yields I Q (fun _ => True) (eval o))

/-- A built-in function fails with a fault of values, or it has no direct implementation. -/
theorem callBuiltin {b : Builtin}
    (hb : Reserved.isReduction b.name = true → Q (.defect (.noImplementation b.name)))
    (args : List Number) : Yields I Q (fun _ => True) (Evaluation.callBuiltin b args) := by
  have hdraw : Yields I Q (fun _ => True) drawFraction := fun c hc =>
    ⟨h.stable.functions (c := c) rfl hc, fun _ _ => trivial, fun _ hf => (by cases hf)⟩
  have hfraction : Yields I Q (fun _ => True) (fractionFor b) := by
    unfold fractionFor
    split
    · exact hdraw
    · exact .pure trivial
  have hcompute : Yields I Q (fun _ => True) (computeBuiltin b args) := by
    refine hfraction.bind fun fraction _ => Yields.context.bind fun c _ => ?_
    refine .ofExcept (fun _ _ => trivial) fun fault hf => ?_
    rcases Builtin.fault_of_value hf with hvalue | ⟨hreduction, rfl⟩
    · exact h.value fault hvalue
    · exact hb hreduction
  have hcheck : Yields I Q (fun _ => True) (Action.ofExcept (b.check args)) :=
    .ofExcept (fun _ _ => trivial) fun fault hf => h.value fault (Builtin.isValue_of_check hf)
  have hdigits : Yields I Q (fun _ => True) (Action.ofExcept (b.ownDigits? args)) :=
    .ofExcept (fun _ _ => trivial) fun fault hf => h.value fault (Builtin.isValue_of_ownDigits hf)
  refine hcheck.bind fun _ _ => hdigits.bind fun digits? _ => ?_
  split
  · exact hcompute
  · exact hcompute.withDigits h.stable _

include heval

theorem callUser (name : String) (f : UserFunction)
    (hf : ∀ body, f.body = some body → body.WellFormed) (args : List Number) :
    Yields I Q (fun _ => True) (Evaluation.callUser eval name f args) := by
  unfold Evaluation.callUser
  split
  · exact .fail (h.value _ rfl)
  · split
    · exact .pure trivial
    · exact .pure trivial
    · exact Yields.context.bind fun c _ => .fail (h.value _ rfl)
    · next body _ _ hbody =>
      refine ((heval body (hf body hbody)).binding h.stable _).bind fun value _ => ?_
      refine (Yields.change fun c hc => ?_).bind fun _ _ => .pure trivial
      exact h.stable.remember name args value hc

theorem callFunction {name : String} (hname : Reserved.isReduction name = false)
    (args : List Number) : Yields I Q (fun _ => True) (Evaluation.callFunction eval name args) := by
  unfold Evaluation.callFunction
  refine Yields.context.bind fun c hc => ?_
  split
  · exact .fail (h.value _ rfl)
  · next b hb => exact h.callBuiltin (h.implemented c name b hc hname hb) args
  · next f hf =>
    refine h.callUser heval name f (fun body hbody => ?_) args
    exact h.bodies c hc name f body (Context.user?_eq_some.2 hf) hbody

theorem evalBounds (name counter : String) {first last term : Operand}
    (hfirst : first.WellFormed) (hlast : last.WellFormed) (hterm : term.WellFormed) :
    Yields I Q (fun _ => True) (Evaluation.evalBounds eval name counter first last term) := by
  unfold Evaluation.evalBounds
  refine (heval first hfirst).bind fun a _ => (heval last hlast).bind fun b _ => ?_
  split
  · exact .fail (h.value _ rfl)
  · split
    · exact Yields.context.bind fun c _ => .fail (h.value _ rfl)
    · unfold countTerms
      refine Yields.context.bind fun c _ => Yields.binding h.stable _ ?_
      have hstuck : Yields I Q (fun _ : Number => True) (Action.fail .endless) :=
        .fail (h.value _ rfl)
      refine hstuck.countUp (fun k total => ?_) _ _ _
      have hset : ∀ c : Context, I c → I (c.setVariable counter (.ofReal k)) :=
        fun c hc => h.stable.functions (c := c) rfl hc
      refine (Yields.change hset).bind fun _ _ => ?_
      exact (heval term hterm).bind fun _ _ => .pure trivial

theorem evalCall {name : String} {args : List Operand}
    (hcall : (Operand.call name args).WellFormed) :
    Yields I Q (fun _ => True) (Evaluation.evalCall eval name args) := by
  cases hcall with
  | call shape parts =>
    unfold Evaluation.evalCall
    split
    · next hred =>
      obtain ⟨counter, first, last, term, rfl⟩ :=
        (Operand.checkReduction_eq_ok_iff name args).1 (shape hred)
      refine Yields.context.bind fun c _ => ?_
      split
      · exact .fail (h.value _ rfl)
      · exact h.evalBounds heval name counter (parts first (by simp)) (parts last (by simp))
          (parts term (by simp))
    · next hred =>
      refine Yields.context.bind fun c _ => ?_
      split
      · refine (Yields.mapM fun arg harg => heval arg (parts arg harg)).bind fun values _ => ?_
        exact h.callFunction heval (Bool.eq_false_iff.2 hred) values
      · exact .fail (h.value _ rfl)

end Calls

/-- Evaluating a well formed operand gives no other faults at any level. -/
theorem evalAt (levels : Nat) {o : Operand} (ho : o.WellFormed) :
    Yields I Q (fun _ => True) (Evaluation.evalAt levels o) := by
  induction levels generalizing o with
  | zero => exact h.evalOperand (fun _ _ _ => .fail h.tooDeep) ho
  | succ levels ih =>
    refine h.evalOperand (fun name args hcall => ?_) ho
    exact (h.evalCall (fun _ => ih) hcall).deeper h.stable h.tooDeep

end Tame

/-! ## Shape -/

/-- The action keeps functions well formed and gives no shape fault. -/
abbrev Shapely {α : Type} (R : α → Prop) (act : Action α) : Prop :=
  Yields Context.WellFormed (fun fault => fault.isShape = false) R act

theorem yields_evalAt (levels : Nat) {o : Operand} (h : o.WellFormed) :
    Shapely (fun _ => True) (evalAt levels o) := by
  have htame : Tame Context.WellFormed (fun fault => fault.isShape = false) := {
    stable := Context.stable_wellFormed
    bodies := fun c hc => hc
    value := fun fault => Fault.not_isShape_of_isValue
    tooDeep := rfl
    implemented := fun _ _ _ _ _ _ _ => rfl }
  exact htame.evalAt levels h

end Evaluation

/-! ## The agreement -/

/-- **Order check and reduction.** Known tokens are well ordered exactly when they are reduced to a
value while every operator can be applied.  A compiled operand, in a context whose functions have
compiled bodies, is never found out of shape during evaluation. -/
theorem order_check_agrees_with_reduction :
    (∀ (α β : Type) (A : Algebra β) (leaf : α → β) (text : α → String) (ts : List (Token α)),
      (∀ op x y, ∃ z, A.apply op x y = .ok z) → (∀ t ∈ ts, t.IsKnown) →
        (Token.checkOrder text ts = .ok () ↔
          ∃ value, Reducer.reduceAll A leaf text ts = .ok value)) ∧
    ∀ (w depth : Nat) (source : String) (o : Operand) (c : Context),
      Operand.compile w depth source = .ok o →
      (∀ name f body, c.user? name = some f → f.body = some body →
        ∃ w' depth' source', Operand.compile w' depth' source' = .ok body) →
      ∀ fault, (o.evaluate.run c).1 = .error fault → fault.isShape = false := by
  constructor
  · intro α β A leaf text ts hA hts
    refine Reducer.reduceAll_iff_checkOrder (fun fault => ?_) hts
    rintro ⟨op, x, y, h⟩
    obtain ⟨z, hz⟩ := hA op x y
    rw [hz] at h
    cases h
  · intro w depth source o c ho hc fault hf
    have hwell : c.WellFormed := by
      intro name f body hname hbody
      obtain ⟨_, _, _, h⟩ := hc name f body hname hbody
      exact Operand.wellFormed_of_compile h
    have hrun := Evaluation.yields_evalAt c.levels (Operand.wellFormed_of_compile ho) c hwell
    exact hrun.2.2 fault hf

/-- The tokens of `(-1)*2`. -/
def groupedSign : List (Token Nat) :=
  [.grouper ⟨'('⟩, .operator ⟨'-'⟩, .operand 1, .grouper ⟨')'⟩, .operator ⟨'*'⟩, .operand 2]

/-- The operand `x/0`. -/
def zeroQuotient : Operand :=
  .expression [.operand (.var "x"), .operator ⟨'/'⟩, .operand (.numeral 0 "0")]

/-- A context with the function `f[x]=x/0`. -/
def zeroQuotientContext : Context :=
  (Context.empty .standard).setFunction "f" (.user (.define ["x"] zeroQuotient))

theorem order_check_agrees_on_zeroQuotient :
    (∃ value : Nat,
      Reducer.reduceAll ⟨0, fun _ x y => .ok (x + y)⟩ id Nat.repr groupedSign = .ok value) ∧
    ∀ fault, ((Operand.call "f" [.numeral 2 "2"]).evaluate.run zeroQuotientContext).1 =
      .error fault → fault.isShape = false := by
  obtain ⟨hreduce, heval⟩ := order_check_agrees_with_reduction
  constructor
  · have horder : Token.checkOrder Nat.repr groupedSign = .ok () := by decide
    exact (hreduce Nat Nat _ id Nat.repr _ (fun op x y => ⟨x + y, rfl⟩) (by decide)).1 horder
  · refine heval 64 1 "f[2]" _ zeroQuotientContext rfl ?_
    intro name f body hf hbody
    unfold zeroQuotientContext Context.user? at hf
    rw [Context.function?_setFunction] at hf
    split at hf
    · cases hf
      cases hbody
      exact ⟨64, 0, "x/0", rfl⟩
    · simp at hf

end Reckoner
