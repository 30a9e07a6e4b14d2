import Reckoner.Proofs.Evaluation.Chance
import Reckoner.Proofs.Evaluation.Congruence
import Reckoner.Proofs.Evaluation.Trace
import Reckoner.Proofs.Evaluation.Yields

/-!
# Two evaluations side by side

1. `Action.Tracks E P act act'`: run in contexts that `P` relates, the second action gives the
   result of the first one, and `P` relates the contexts afterwards; the first action is excused if
   it fails with a fault in `E`.
2. `Context.Concord E R P c d`: the contexts agree on the names of `R`, on variables and functions
   alike, and on the variables in `P`, which are the parameters of the function whose body is being
   evaluated.  The functions named in `R` refer to names of `R` and to their own parameters only.
   The second context may have a higher ceiling if calls that are too deep are excused.
3. Evaluation in contexts in concord gives the same results and keeps them in concord
   (`tracks_evalAt`).

Only what functions remember has to be followed through a run.  The rest is known from what single
runs leave alone: the variables bound by a call are what they were before when it is over.
-/

namespace Reckoner

/-! ## Actions side by side -/

namespace Action

variable {α β : Type} {E : Fault → Prop} {P Q : Context → Context → Prop}

/-- From two contexts, the actions give the same result and leave contexts that `P` relates, unless
the first one fails with a fault in `E`. -/
def TracksAt (E : Fault → Prop) (P : Context → Context → Prop) (c d : Context)
    (act act' : Action α) : Prop :=
  (∃ fault, E fault ∧ (act.run c).1 = .error fault) ∨
    (act.run c).1 = (act'.run d).1 ∧ P (act.run c).2 (act'.run d).2

/-- From any two contexts that `P` relates, the actions give the same result and leave such
contexts, unless the first one fails with a fault in `E`. -/
def Tracks (E : Fault → Prop) (P : Context → Context → Prop) (act act' : Action α) : Prop :=
  ∀ ⦃c d : Context⦄, P c d → TracksAt E P c d act act'

theorem TracksAt.imp {c d : Context} {act act' : Action α} (h : TracksAt E P c d act act')
    (hPQ : P (act.run c).2 (act'.run d).2 → Q (act.run c).2 (act'.run d).2) :
    TracksAt E Q c d act act' :=
  h.imp_right fun h => ⟨h.1, hPQ h.2⟩

theorem TracksAt.ofExcept {c d : Context} (h : P c d) (x : Except Fault α) :
    TracksAt E P c d (.ofExcept x) (.ofExcept x) :=
  .inr ⟨rfl, h⟩

theorem TracksAt.fail {c d : Context} (h : P c d) (fault : Fault) :
    TracksAt E P c d (.fail fault : Action α) (.fail fault) :=
  .inr ⟨rfl, h⟩

theorem TracksAt.excused {c d : Context} {fault : Fault} (h : E fault) (act' : Action α) :
    TracksAt E P c d (.fail fault) act' :=
  .inl ⟨fault, h, rfl⟩

theorem TracksAt.bind {c d : Context} {act act' : Action α} {next next' : α → Action β}
    (h : TracksAt E P c d act act')
    (hnext : ∀ a c' d', P c' d' → TracksAt E P c' d' (next a) (next' a)) :
    TracksAt E P c d (act >>= next) (act' >>= next') := by
  rcases hc : act.run c with ⟨x, c'⟩
  rcases hd : act'.run d with ⟨x', d'⟩
  rw [TracksAt, hc, hd] at h
  rcases h with ⟨fault, hfault, hx⟩ | ⟨hx, hP⟩
  · cases hx
    exact .inl ⟨fault, hfault, by rw [run_bind_of_error hc]⟩
  · cases hx
    cases x with
    | error fault =>
      rw [TracksAt, run_bind_of_error hc, run_bind_of_error hd]
      exact .inr ⟨rfl, hP⟩
    | ok a =>
      rw [TracksAt, run_bind_of_ok hc, run_bind_of_ok hd]
      exact hnext a c' d' hP

theorem Tracks.bind {act act' : Action α} {next next' : α → Action β} (h : Tracks E P act act')
    (hnext : ∀ a, Tracks E P (next a) (next' a)) : Tracks E P (act >>= next) (act' >>= next') :=
  fun _ _ hP => (h hP).bind fun a _ _ hP => hnext a hP

theorem Tracks.pure (a : α) : Tracks E P (Pure.pure a) (Pure.pure a) :=
  fun _ _ hP => .ofExcept hP (.ok a)

theorem Tracks.context_bind {next next' : Context → Action β}
    (h : ∀ c d, P c d → TracksAt E P c d (next c) (next' d)) :
    Tracks E P (Action.context >>= next) (Action.context >>= next') :=
  fun c d hP => h c d hP

theorem Tracks.change {f g : Context → Context} (h : ∀ c d, P c d → P (f c) (g d)) :
    Tracks E P (Action.change f) (Action.change g) :=
  fun c d hP => .inr ⟨rfl, h c d hP⟩

end Action

open Reckoner.Action

theorem Evaluation.congruence_tracks {E : Fault → Prop} {P : Context → Context → Prop}
    (h : ∀ c d, P c d → c.numerics = d.numerics) : Congruence (fun _ => Tracks E P) where
  reading f := by
    refine .context_bind fun c d hP => ?_
    rw [h c d hP]
    exact .ofExcept hP _
  bind hact hnext := hact.bind hnext

/-! ## Operands within a set of names -/

/-- An operand uses names of a set and bound variables only, and calls no random function. -/
structure Operand.Within (R : Set String) (P : List String) (o : Operand) : Prop where
  vars : ∀ n, Occurs (.var n) o → n ∈ R ∨ n ∈ P
  calls : ∀ n, o.Calls n → n ∈ R
  rand : ¬ o.Calls "rand"
  randint : ¬ o.Calls "randint"

theorem Operand.Within.of_occurs {R : Set String} {P : List String} {part o : Operand}
    (h : o.Within R P) (hpart : Occurs part o) : part.Within R P where
  vars n hn := h.vars n (hn.trans hpart)
  calls n := fun ⟨args, hargs⟩ => h.calls n ⟨args, hargs.trans hpart⟩
  rand := fun ⟨args, hargs⟩ => h.rand ⟨args, hargs.trans hpart⟩
  randint := fun ⟨args, hargs⟩ => h.randint ⟨args, hargs.trans hpart⟩

theorem Operand.Within.argument {R : Set String} {P : List String} {name : String}
    {args : List Operand} (h : (call name args).Within R P) {arg : Operand} (harg : arg ∈ args) :
    arg.Within R P :=
  h.of_occurs (.argument harg .self)

/-! ## Contexts in concord -/

/-- The names of a set have the same functions in two contexts, with the same memory. -/
def Context.Alike (R : Set String) (c d : Context) : Prop := ∀ n ∈ R, c.function? n = d.function? n

/-- Two contexts agree on the names of `R` and on the variables bound in `P`, and the functions of
`R` keep to `R`. -/
structure Context.Concord (E : Fault → Prop) (R : Set String) (P : List String) (c d : Context) :
    Prop where
  numerics : c.numerics = d.numerics
  depth : c.depth = d.depth
  ceiling_le : c.ceiling ≤ d.ceiling
  ceiling : c.ceiling = d.ceiling ∨ E (.depth .recursion)
  values : ∀ n, n ∈ R ∨ n ∈ P → c.valueOf? n = d.valueOf? n
  bound : ∀ n ∈ P, (c.valueOf? n).isSome
  alike : c.Alike R d
  named : c.Named
  bodies : ∀ n ∈ R, ∀ f body, c.user? n = some f → f.body = some body → body.Within R f.params

namespace Context

variable {E : Fault → Prop} {R : Set String} {P : List String} {c d c' d' : Context}

theorem Alike.user?_eq (h : c.Alike R d) {n : String} (hn : n ∈ R) : c.user? n = d.user? n := by
  unfold user?
  rw [h n hn]

theorem Alike.updateUser (h : c.Alike R d) {name : String} (hname : name ∈ R)
    (change : UserFunction → UserFunction) :
    (c.updateUser name change).Alike R (d.updateUser name change) := by
  intro n hn
  unfold Context.updateUser
  rw [h.user?_eq hname]
  split
  · rw [function?_setFunction, function?_setFunction, h n hn]
  · exact h n hn

namespace Concord

theorem bits (h : Concord E R P c d) : c.bits = d.bits := congrArg Numerics.bits h.numerics

theorem precision (h : Concord E R P c d) : c.precision = d.precision :=
  congrArg Numerics.precision h.numerics

theorem hasFunction_eq (h : Concord E R P c d) {n : String} (hn : n ∈ R) :
    c.hasFunction n = d.hasFunction n := by
  rw [Context.hasFunction_eq, Context.hasFunction_eq, h.alike n hn]

/-- A bound variable is taken, whether it is the name of a function or not. -/
theorem isTaken_eq (h : Concord E R P c d) {n : String} (hn : n ∈ R ∨ n ∈ P) :
    c.isTaken n = d.isTaken n := by
  unfold isTaken
  rw [hasVariable_eq, hasVariable_eq, ← h.values n hn]
  rcases hn with hn | hn
  · rw [h.hasFunction_eq hn]
  · rw [h.bound n hn]
    rfl

/-- Contexts stay in concord if they only gain memory and gain the same for the functions of `R`. -/
theorem grows (h : Concord E R P c d) (hc : c.Grows c') (hd : d.Grows d')
    (halike : c'.Alike R d') : Concord E R P c' d' where
  numerics := by rw [hc.numerics, hd.numerics, h.numerics]
  depth := by rw [hc.depth, hd.depth, h.depth]
  ceiling_le := by
    rw [hc.ceiling, hd.ceiling]
    exact h.ceiling_le
  ceiling := by
    rw [hc.ceiling, hd.ceiling]
    exact h.ceiling
  values n hn := by rw [hc.valueOf?_eq, hd.valueOf?_eq, h.values n hn]
  bound n hn := by
    rw [hc.valueOf?_eq]
    exact h.bound n hn
  alike := halike
  named := h.named.grows hc
  bodies n hn g body hg hbody := by
    obtain ⟨f, hf, hfg⟩ := hc.exists_user?_before hg
    rw [hfg.params]
    rw [hfg.body] at hbody
    exact h.bodies n hn f body hf hbody

/-- Contexts stay in concord if they get other variables, as long as they agree on those. -/
theorem withVars (h : Concord E R P c d) {P' : List String}
    {vars vars' : Std.ExtTreeMap String Number}
    (hvalues : ∀ n, n ∈ R ∨ n ∈ P' → vars[n]? = vars'[n]?) (hbound : ∀ n ∈ P', (vars[n]?).isSome) :
    Concord E R P' { c with vars := vars } { d with vars := vars' } where
  numerics := h.numerics
  depth := h.depth
  ceiling_le := h.ceiling_le
  ceiling := h.ceiling
  values := hvalues
  bound := hbound
  alike := h.alike
  named := h.named.of_functions_eq rfl
  bodies := h.bodies

theorem withDepth (h : Concord E R P c d) (n : Nat) :
    Concord E R P { c with depth := n } { d with depth := n } where
  numerics := h.numerics
  depth := rfl
  ceiling_le := h.ceiling_le
  ceiling := h.ceiling
  values := h.values
  bound := h.bound
  alike := h.alike
  named := h.named.of_functions_eq rfl
  bodies := h.bodies

theorem setVariable (h : Concord E R P c d) (name : String) (value : Number) :
    Concord E R P (c.setVariable name value) (d.setVariable name value) := by
  refine h.withVars (fun n hn => ?_) fun n hn => ?_
  · have hn := h.values n hn
    unfold valueOf? at hn
    rw [Std.ExtTreeMap.getElem?_insert, Std.ExtTreeMap.getElem?_insert, hn]
  · rw [Std.ExtTreeMap.getElem?_insert]
    split
    · rfl
    · exact h.bound n hn

theorem isSome_valueOf?_bindAll (c : Context) (scope : Scope) {bindings : List (String × Number)}
    {n : String} (h : n ∈ bindings.map Prod.fst ∨ (c.valueOf? n).isSome) :
    ((c.bindAll scope bindings).2.valueOf? n).isSome := by
  induction bindings generalizing c scope with
  | nil => exact h.resolve_left List.not_mem_nil
  | cons binding bindings ih =>
    refine ih (c.setVariable binding.1 binding.2) _ ?_
    rw [List.map_cons, List.mem_cons] at h
    rw [valueOf?_setVariable]
    by_cases hn : binding.1 = n
    · rw [if_pos hn]
      exact .inr rfl
    · rw [if_neg hn]
      exact h.imp_left fun h => h.resolve_left fun heq => hn heq.symm

/-- The names bound are the ones that the contexts agree on from then on, with those of `R`. -/
theorem bindAll (h : Concord E R P c d) (bindings : List (String × Number)) :
    Concord E R (bindings.map Prod.fst) (c.bindAll [] bindings).2 (d.bindAll [] bindings).2 := by
  rw [bindAll_eq c, bindAll_eq d]
  refine h.withVars (fun n hn => ?_) fun n hn => ?_
  · exact valueOf?_bindAll_congr [] [] (hn.symm.imp_right fun hn => h.values n (.inl hn))
  · exact isSome_valueOf?_bindAll c [] (.inl hn)

end Concord

end Context

namespace Action

variable {α : Type} {E : Fault → Prop} {R : Set String} {P : List String} {c d : Context}
  {act act' : Action α}

/-- Of actions that only add to memory, it is enough to follow what they add. -/
theorem TracksAt.concord (h : TracksAt E (Context.Alike R) c d act act')
    (hcd : Context.Concord E R P c d) (hc : c.Grows (act.run c).2) (hd : d.Grows (act'.run d).2) :
    TracksAt E (Context.Concord E R P) c d act act' :=
  h.imp fun halike => hcd.grows hc hd halike

theorem TracksAt.binding {bindings : List (String × Number)}
    (h : TracksAt E (Context.Alike R) (c.bindAll [] bindings).2 (d.bindAll [] bindings).2
      act act') :
    TracksAt E (Context.Alike R) c d (Action.binding bindings act)
      (Action.binding bindings act') := by
  rw [TracksAt, run_binding, run_binding]
  refine h.imp_right fun ⟨hresult, halike⟩ => ⟨hresult, fun n hn => ?_⟩
  show (Context.close _ _).functions[n]? = (Context.close _ _).functions[n]?
  rw [functions_close, functions_close]
  exact halike n hn

theorem Tracks.deeper (h : Tracks E (Context.Concord E R P) act act') :
    Tracks E (Context.Concord E R P) (Action.deeper act) (Action.deeper act') := by
  intro c d hcd
  by_cases hlt : c.depth < c.ceiling
  · have hc : c.enter = .ok { c with depth := c.depth + 1 } :=
      (Context.enter_eq_ok_iff c _).2 ⟨hlt, rfl⟩
    have hd : d.enter = .ok { d with depth := c.depth + 1 } := by
      rw [hcd.depth]
      refine (Context.enter_eq_ok_iff d _).2 ⟨?_, rfl⟩
      exact hcd.depth ▸ Nat.lt_of_lt_of_le hlt hcd.ceiling_le
    rw [TracksAt, run_deeper_of_ok hc, run_deeper_of_ok hd]
    refine (h (hcd.withDepth (c.depth + 1))).imp_right fun ⟨hresult, hinside⟩ => ⟨hresult, ?_⟩
    unfold Context.leave
    rw [hinside.depth]
    exact hinside.withDepth _
  · have hc : c.enter = .error (.depth .recursion) := if_neg hlt
    rcases hcd.ceiling with hceiling | hexcused
    · have hd : d.enter = .error (.depth .recursion) := by
        refine if_neg ?_
        rw [← hcd.depth, ← hceiling]
        exact hlt
      rw [TracksAt, run_deeper_of_error hc, run_deeper_of_error hd]
      exact .inr ⟨rfl, hcd⟩
    · exact .inl ⟨_, hexcused, by rw [run_deeper_of_error hc]⟩

end Action

namespace Evaluation

variable {E : Fault → Prop} {R : Set String} {P : List String}

theorem congruence_concord : Congruence (fun _ => Tracks E (Context.Concord E R P)) :=
  congruence_tracks fun _ _ h => h.numerics

theorem tracks_evalVariable {n : String} (hn : n ∈ R ∨ n ∈ P) :
    Tracks E (Context.Concord E R P) (evalVariable n) (evalVariable n) := by
  refine .context_bind fun c d hcd => ?_
  rw [hcd.values n hn]
  split
  · exact .ofExcept hcd (.ok _)
  · exact .fail hcd _

/-! ## Summation and product -/

theorem tracks_termStep {term term' : Action Number}
    (hterm : Tracks E (Context.Concord E R P) term term') (w : Nat) (name counter : String)
    (k : Dyadic) (total : Number) :
    Tracks E (Context.Concord E R P) (termStep w name counter term k total)
      (termStep w name counter term' k total) := by
  refine (Tracks.change fun c d hcd => hcd.setVariable counter (.ofReal k)).bind fun _ => ?_
  exact hterm.bind fun value => .pure _

theorem run_countTerms_eq (name counter : String) (first last : Dyadic) (term : Action Number)
    (c : Context) :
    (countTerms name counter first last term).run c =
      (Action.binding [(counter, .ofReal first)] (termSteps c.bits name counter last term
        (Binary.stepCount first last + 1) first (reductionUnit name))).run c := rfl

theorem tracks_countTerms {term term' : Action Number} (hgrows : Traceless term term)
    (hgrows' : Traceless term' term') (hterm : Tracks E (Context.Concord E R P) term term')
    (name counter : String) (first last : Dyadic) :
    Tracks E (Context.Concord E R P) (countTerms name counter first last term)
      (countTerms name counter first last term') := by
  intro c d hcd
  have hsteps : Tracks E (Context.Concord E R P)
      (termSteps c.bits name counter last term (Binary.stepCount first last + 1) first
        (reductionUnit name))
      (termSteps c.bits name counter last term' (Binary.stepCount first last + 1) first
        (reductionUnit name)) :=
    congruence_concord.countUp _ (tracks_termStep hterm c.bits name counter) _ _ _
  have hbound := hsteps (hcd.setVariable counter (.ofReal first))
  refine TracksAt.concord ?_ hcd (traceless_countTerms hgrows name counter first last c).grows
    (traceless_countTerms hgrows' name counter first last d).grows
  rw [TracksAt, run_countTerms_eq, run_countTerms_eq, ← hcd.bits]
  exact TracksAt.binding (hbound.imp fun h => h.alike)

/-! ## Calls -/

section Calls

variable {eval eval' : Operand → Action Number} (hgrows : ∀ o, Traceless (eval o) (eval o))
  (hgrows' : ∀ o, Traceless (eval' o) (eval' o))
  (heval : ∀ (P : List String) (o : Operand), o.Within R P →
    Tracks E (Context.Concord E R P) (eval o) (eval' o))

include heval in
/-- The same function is called in both contexts.  In its body the contexts agree on its parameters
in place of those that are bound around the call. -/
theorem tracks_callUser {c d : Context} (hcd : Context.Concord E R P c d) {name : String}
    (hname : name ∈ R) {f : UserFunction} (hf : c.user? name = some f) (args : List Number) :
    TracksAt E (Context.Alike R) c d (callUser eval name f args) (callUser eval' name f args) := by
  unfold callUser
  split
  · exact .fail hcd.alike _
  · next harity =>
    split
    · exact .ofExcept hcd.alike (.ok _)
    · exact .ofExcept hcd.alike (.ok _)
    · refine .inr ⟨?_, hcd.alike⟩
      rw [run_context_bind, run_context_bind, hcd.precision]
      rfl
    · next body _ _ hbody =>
      have hwithin := hcd.bodies name hname f body hf hbody
      have hbound := hcd.bindAll (f.params.zip args)
      rw [map_fst_zip_params harity] at hbound
      have hvalue := TracksAt.binding ((heval f.params body hwithin hbound).imp fun h => h.alike)
      refine hvalue.bind fun value c' d' halike => ?_
      refine .inr ⟨rfl, ?_⟩
      exact Context.Alike.updateUser halike hname _

include hgrows hgrows' heval in
theorem tracks_callFunction {name : String} (hname : name ∈ R) (hrand : name ≠ "rand")
    (hrandint : name ≠ "randint") (args : List Number) :
    Tracks E (Context.Concord E R P) (callFunction eval name args)
      (callFunction eval' name args) := by
  intro c d hcd
  refine TracksAt.concord ?_ hcd (traceless_callFunction hgrows name args c).grows
    (traceless_callFunction hgrows' name args d).grows
  rw [TracksAt, callFunction, callFunction, run_context_bind, run_context_bind,
    ← hcd.alike name hname]
  cases hfunction : c.function? name with
  | none => exact .inr ⟨rfl, hcd.alike⟩
  | some f =>
    cases f with
    | builtin b =>
      have hb := hcd.named.isRandom_eq_false hfunction hrand hrandint
      show TracksAt E (Context.Alike R) c d (callBuiltin b args) (callBuiltin b args)
      rw [TracksAt, run_callBuiltin hb, run_callBuiltin hb, hcd.numerics]
      exact .inr ⟨rfl, hcd.alike⟩
    | user f => exact tracks_callUser heval hcd hname (Context.user?_eq_some.2 hfunction) args

include hgrows hgrows' heval in
/-- A counter that is not taken is not bound either, so it is a name of `R`. -/
theorem tracks_evalReduction {name : String} {args : List Operand}
    (h : (Operand.call name args).Within R P) :
    Tracks E (Context.Concord E R P) (evalReduction eval name args)
      (evalReduction eval' name args) := by
  have hargs := fun arg (harg : arg ∈ args) => heval P arg (h.argument harg)
  unfold evalReduction
  split
  · next counter first last term =>
    have hcounter : counter ∈ R ∨ counter ∈ P := h.vars counter (.argument (by simp) .self)
    refine .context_bind fun c d hcd => ?_
    rw [hcd.isTaken_eq hcounter]
    split
    · exact .fail hcd _
    · refine congruence_concord.evalBounds name counter (hargs first (by simp))
        (hargs last (by simp)) (fun a b => ?_) hcd
      exact tracks_countTerms (hgrows term) (hgrows' term) (hargs term (by simp)) name counter a b
  · exact fun _ _ hcd => .fail hcd _
  · exact fun _ _ hcd => .fail hcd _

include hgrows hgrows' heval in
theorem tracks_evalCall {name : String} {args : List Operand}
    (h : (Operand.call name args).Within R P) :
    Tracks E (Context.Concord E R P) (evalCall eval name args) (evalCall eval' name args) := by
  unfold evalCall
  split
  · exact tracks_evalReduction hgrows hgrows' heval h
  · have hname : name ∈ R := h.calls name ⟨args, .self⟩
    refine .context_bind fun c d hcd => ?_
    rw [hcd.hasFunction_eq hname]
    split
    · refine (congruence_concord.mapM fun arg harg => heval P arg (h.argument harg)).bind
        (fun values => ?_) hcd
      exact tracks_callFunction hgrows hgrows' heval hname (Operand.ne_of_not_calls h.rand)
        (Operand.ne_of_not_calls h.randint) values
    · exact .fail hcd _

end Calls

/-- **Evaluation side by side.** In contexts in concord an operand within their names gives the same
result, and they stay in concord.  The second evaluation may have more levels left if calls that are
too deep are excused. -/
theorem tracks_evalAt {levels levels' : Nat} (hle : levels ≤ levels')
    (hlevels : levels = levels' ∨ E (.depth .recursion)) {o : Operand} (ho : o.Within R P) :
    Tracks E (Context.Concord E R P) (evalAt levels o) (evalAt levels' o) := by
  induction levels generalizing levels' P o with
  | zero =>
    cases levels' with
    | zero =>
      exact congruence_concord.evalOperand (fun n hn => tracks_evalVariable (ho.vars n hn))
        fun _ _ _ _ _ hcd => .fail hcd _
    | succ levels' =>
      have hexcused := hlevels.resolve_left (by omega)
      exact congruence_concord.evalOperand (fun n hn => tracks_evalVariable (ho.vars n hn))
        fun _ _ _ _ _ _ => .excused hexcused _
  | succ levels ih =>
    cases levels' with
    | zero => omega
    | succ levels' =>
      refine congruence_concord.evalOperand (fun n hn => tracks_evalVariable (ho.vars n hn))
        fun name args hcall => Tracks.deeper ?_
      refine tracks_evalCall (traceless_evalAt_self levels) (traceless_evalAt_self levels')
        (fun P o ho => ?_) (ho.of_occurs hcall)
      exact ih (by omega) (hlevels.imp_left fun h => by omega) ho

end Evaluation

end Reckoner
