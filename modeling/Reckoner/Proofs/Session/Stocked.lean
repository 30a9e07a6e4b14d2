import Reckoner.Proofs.Evaluation.Chance
import Reckoner.Proofs.Evaluation.Yields
import Reckoner.Proofs.Memory.Blind
import Reckoner.Proofs.Session.Effect

/-!
# The functions that a session has

`Context.Stocked B c`: each function of the context is one that is built in and stands under its own
name, or one of the user whose body, if it has one, is in `B`.  This does not hang on memory, so
evaluation keeps it, and a line keeps it if what it compiles is in `B` (`Session.stocked_execute`).
-/

namespace Reckoner

/-- A function stands under its own name, or its body is in a set of operands. -/
def Function.Fits (B : Operand → Prop) (n : String) : Function → Prop
  | .builtin b => b.name = n
  | .user f => ∀ body, f.body = some body → B body

theorem Function.fits_forget {B : Operand → Prop} {n : String} {fn : Function} :
    fn.forget.Fits B n ↔ fn.Fits B n := by
  cases fn <;> rfl

/-- Every function of a context is built in under its own name or has a body in `B`. -/
def Context.Stocked (B : Operand → Prop) (c : Context) : Prop :=
  ∀ n fn, c.function? n = some fn → fn.Fits B n

namespace Context

variable {B : Operand → Prop} {c d : Context}

namespace Stocked

theorem named (h : c.Stocked B) : c.Named := fun n b hb => h n (.builtin b) hb

theorem body (h : c.Stocked B) {n : String} {f : UserFunction} (hf : c.user? n = some f)
    {body : Operand} (hbody : f.body = some body) : B body :=
  h n (.user f) (user?_eq_some.1 hf) body hbody

/-- Memory plays no part, and fewer functions are no harm. -/
theorem of_subset (h : c.Stocked B)
    (hsub : ∀ n fn, d.function? n = some fn →
      (c.function? n).map Function.forget = some fn.forget) : d.Stocked B := by
  intro n fn hfn
  obtain ⟨fn', hfn', hforget⟩ := Option.map_eq_some_iff.1 (hsub n fn hfn)
  rw [← Function.fits_forget, ← hforget, Function.fits_forget]
  exact h n fn' hfn'

theorem of_forget_eq (h : c.Stocked B)
    (heq : ∀ n, (d.function? n).map Function.forget = (c.function? n).map Function.forget) :
    d.Stocked B := by
  refine h.of_subset fun n fn hfn => ?_
  rw [← heq n, hfn, Option.map_some]

theorem of_functions_eq (h : c.Stocked B) (heq : d.functions = c.functions) : d.Stocked B := by
  refine h.of_forget_eq fun n => ?_
  rw [function?, function?, heq]

theorem setFunction (h : c.Stocked B) (name : String) {f : UserFunction}
    (hf : ∀ body, f.body = some body → B body) : (c.setFunction name (.user f)).Stocked B := by
  intro n fn hfn
  rw [function?_setFunction] at hfn
  split at hfn
  · cases hfn
    exact hf
  · exact h n fn hfn

theorem eraseFunction (h : c.Stocked B) (name : String) : (c.eraseFunction name).Stocked B := by
  refine h.of_subset fun n fn hfn => ?_
  rw [function?_eraseFunction] at hfn
  split at hfn
  · cases hfn
  · rw [hfn, Option.map_some]

theorem invalidate (h : c.Stocked B) (name : String) : (c.invalidate name).Stocked B :=
  h.of_forget_eq (c.sheds_invalidate name).map_forget_eq

theorem assign (h : c.Stocked B) (name : String) (value : Number) :
    ((c.setVariable name value).invalidate name).Stocked B :=
  (h.of_functions_eq (d := c.setVariable name value) rfl).invalidate name

theorem setPrecision (h : c.Stocked B) (p : Precision) : (c.setPrecision p).Stocked B :=
  h.of_forget_eq fun n => c.map_forget_invalidateAll n

theorem reset (h : c.Stocked B) : c.reset.Stocked B := by
  refine h.of_subset fun n fn hfn => ?_
  rw [function?_reset] at hfn
  split at hfn
  · obtain ⟨fn', hfn', rfl⟩ := Option.map_eq_some_iff.1 hfn
    rw [hfn', Option.map_some, Function.forget_forget]
  · cases hfn

end Stocked

theorem stable_stocked : Stable (Stocked B) where
  functions heq h := h.of_functions_eq heq
  remember {c} name args value h := by
    refine h.of_forget_eq fun n => ?_
    have heq := congrArg (fun c => c.function? n) (c.updateUser_remember name args value)
    simpa only [function?_invalidateAll] using heq

theorem stocked_fresh (s : Settings) : (fresh s).Stocked B := by
  intro n fn hfn
  obtain ⟨b, rfl, hname⟩ := function?_fresh s hfn
  exact hname

end Context

namespace Session

variable {B : Operand → Prop} {c d : Context}

theorem body_redefine (former : Option UserFunction) (params : List String) (body : Operand) :
    (redefine former params body).body = some body := by
  unfold redefine
  split
  · dsimp only
    split <;> rfl
  · rfl

/-- A base case is put into the present function or into one without a body. -/
theorem exists_of_body_baseCaseHost {former : Option UserFunction} {count : Nat} {body : Operand}
    (h : (baseCaseHost former count).body = some body) :
    ∃ f, former = some f ∧ f.body = some body := by
  cases former with
  | none => cases h
  | some f => exact ⟨f, rfl, h⟩

theorem Effect.stocked {command : Command} {result : Except Fault String}
    (h : Effect c command result d) (hc : c.Stocked B)
    (hcompiled : ∀ source o, command.source? = some source →
      Operand.compile c.bits c.ceiling source = .ok o → B o) : d.Stocked B := by
  cases h with
  | failure hgrows => exact hc.of_forget_eq hgrows.map_forget_eq
  | quiet hquiet => exact hc
  | function hfree hchecked hbody =>
    refine (hc.setFunction _ fun body hdefined => ?_).invalidate _
    rw [body_redefine] at hdefined
    cases hdefined
    exact hcompiled _ _ rfl hbody
  | baseCase hfree harity =>
    refine (hc.setFunction _ fun body hbody => ?_).invalidate _
    obtain ⟨f, hf, hbody⟩ := exists_of_body_baseCaseHost hbody
    exact hc.body hf hbody
  | var hconstant hcommand hgrows =>
    exact ((hc.of_forget_eq hgrows.map_forget_eq).assign _ _).assign _ _
  | value hgrows => exact (hc.of_forget_eq hgrows.map_forget_eq).assign _ _
  | eraseVariable hconstant => exact (hc.of_functions_eq (d := c.eraseVariable _) rfl).invalidate _
  | eraseFunction hbuiltin => exact (hc.eraseFunction _).invalidate _
  | precision p => exact hc.setPrecision p
  | reset => exact hc.reset

/-- A line keeps the functions as they should be if what it compiles is. -/
theorem stocked_execute (hc : c.Stocked B) {line : String}
    (hreads : ∀ o, Reads c line o → B o) : ((execute line).run c).2.Stocked B := by
  rw [run_execute]
  exact (effect_perform c _).stocked hc fun source o hsource ho => hreads o ⟨source, hsource, ho⟩

end Session

end Reckoner
