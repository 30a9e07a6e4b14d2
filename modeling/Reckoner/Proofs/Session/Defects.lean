import Reckoner.Proofs.Grammar.Refusal
import Reckoner.Proofs.Reduction.Safety
import Reckoner.Proofs.Session.Stocked

/-!
# No line runs into a defect

A defect is a fault that only operands or contexts made by hand can show: a call without its text, a
symbol that is not known, a built-in function that has no direct implementation.

1. What the compiler refuses is never a defect (`yields_compile`), and what it accepts is well
   formed.
2. In a context in which the functions that are built in stand under their own names and the user's
   have well formed bodies, evaluating a well formed operand never comes to a defect
   (`tame_undefective`): known symbols only are applied, and summation and product are not called as
   functions.
3. Every line keeps contexts this way, so a session that starts afresh answers every line, unless a
   count never ends (`execute_reaches_no_defect`), as some counts do
   (`execute_is_not_always_answered`).
-/

namespace Reckoner

open Reckoner.Action

/-- Whether a fault is a defect. -/
def Fault.isDefect : Fault → Bool
  | .defect _ => true
  | _ => false

/-- A fault that is no defect is reported, unless it is a count that never ends. -/
theorem Fault.kind?_of_not_isDefect {fault : Fault} (h : fault.isDefect = false) :
    (∃ kind, fault.kind? = some kind) ∨ fault = .endless := by
  cases fault with
  | compile cause => exact .inl ⟨_, rfl⟩
  | eval cause => exact .inl ⟨_, rfl⟩
  | depth cause => exact .inl ⟨_, rfl⟩
  | defect cause => cases h
  | endless => exact .inr rfl

theorem Grammar.IsCompilerFault.not_isDefect {fault : Fault} (h : IsCompilerFault fault) :
    fault.isDefect = false := by
  cases fault with
  | defect cause => rcases h with h | h <;> cases h
  | _ => rfl

namespace Session

/-- The contexts of a session: functions stand under their own names, and bodies are well formed. -/
abbrev WellStocked (c : Context) : Prop := c.Stocked Operand.WellFormed

/-- The action keeps contexts well stocked and does not fail with a defect. -/
abbrev Undefective {α : Type} (R : α → Prop) (act : Action α) : Prop :=
  Yields WellStocked (fun fault => fault.isDefect = false) R act

/-! ## Evaluation -/

/-- Summation and product cannot be called under other names. -/
theorem tame_undefective :
    Evaluation.Tame WellStocked (fun fault => fault.isDefect = false) where
  stable := Context.stable_stocked
  bodies c hc name f body hf hbody := hc.body hf hbody
  value fault hvalue := by
    cases fault with
    | defect cause => cases hvalue
    | _ => rfl
  tooDeep := rfl
  implemented c name b hc hname hb hreduction := by
    rw [hc.named name b hb, hname] at hreduction
    cases hreduction

theorem yields_compile (source : String) :
    Undefective Operand.WellFormed (Evaluation.compile source) := by
  refine Yields.context.bind fun c _ => .ofExcept (fun o ho => ?_) fun fault hfault => ?_
  · exact Operand.wellFormed_of_compile ho
  · exact (Grammar.isCompilerFault_of_compile hfault).not_isDefect

theorem yields_evaluating (source : String) {next : Number → Action String}
    (hnext : ∀ value, Undefective (fun _ => True) (next value)) :
    Undefective (fun _ => True) (Evaluation.compile source >>= fun o => o.evaluate >>= next) := by
  refine (yields_compile source).bind fun o ho => ?_
  have hvalue : Undefective (fun _ => True) o.evaluate :=
    Yields.context.bind fun c _ => tame_undefective.evalAt c.levels ho
  exact hvalue.bind fun value _ => hnext value

theorem yields_assign (name : String) (value : Number) :
    Undefective (fun _ => True) (assign name value) :=
  .change fun _ hc => hc.assign name value

/-! ## Definitions -/

theorem yields_install (name : String) {f : UserFunction}
    (hf : ∀ body, f.body = some body → body.WellFormed) :
    Undefective (fun _ => True) (install name f) := by
  refine (Yields.change fun c hc => (hc.setFunction name hf).invalidate name).bind fun _ _ => ?_
  exact Yields.context.bind fun c _ => .pure trivial

theorem yields_defineFunction (name : String) (params : List String) (source : String) :
    Undefective (fun _ => True) (defineFunction name params source) := by
  unfold defineFunction
  split
  · exact .fail rfl
  · refine Yields.context.bind fun c _ => ?_
    split
    · exact .fail rfl
    · refine (yields_compile source).bind fun body hbody => yields_install name ?_
      intro body' hdefined
      rw [body_redefine] at hdefined
      cases hdefined
      exact hbody

theorem yields_defineBaseCase (name : String) (texts : List String) (text : String) :
    Undefective (fun _ => True) (defineBaseCase name texts text) := by
  unfold defineBaseCase
  split
  · exact .fail rfl
  · refine Yields.context.bind fun c hc => ?_
    have hargs : Undefective (fun _ => True)
        (Action.ofExcept (texts.mapM (Operand.numeralValue c.bits))) := by
      refine .ofExcept (fun _ _ => trivial) fun fault hfault => ?_
      obtain ⟨text, -, htext⟩ := exists_of_mapM_eq_error hfault
      exact (Grammar.isCompilerFault_of_numeralValue htext).not_isDefect
    have hvalue : Undefective (fun _ => True)
        (Action.ofExcept (Operand.numeralValue c.bits text)) :=
      .ofExcept (fun _ _ => trivial) fun fault hfault =>
        (Grammar.isCompilerFault_of_numeralValue hfault).not_isDefect
    refine hargs.bind fun args _ => hvalue.bind fun value _ => ?_
    dsimp only
    split
    · exact .fail rfl
    · refine yields_install name fun body hbody => ?_
      obtain ⟨f, hf, hbody⟩ := exists_of_body_baseCaseHost hbody
      exact hc.body hf hbody

theorem yields_defineVariable (name source : String) :
    Undefective (fun _ => True) (defineVariable name source) := by
  unfold defineVariable
  split
  · exact .fail rfl
  · refine yields_evaluating source fun value => ?_
    refine (yields_assign name value).bind fun _ _ => (yields_assign "ans" value).bind fun _ _ => ?_
    exact Yields.context.bind fun c _ => .pure trivial

/-! ## Commands -/

theorem yields_delete (name : String) : Undefective (fun _ => True) (delete name) := by
  refine Yields.context.bind fun c _ => ?_
  split
  · split
    · exact .pure trivial
    · refine (Yields.change fun c hc => ?_).bind fun _ _ => .pure trivial
      exact (hc.of_functions_eq (d := c.eraseVariable name) rfl).invalidate name
  · split
    · split
      · exact .pure trivial
      · refine (Yields.change fun c hc => ?_).bind fun _ _ => .pure trivial
        exact (hc.eraseFunction name).invalidate name
    · exact .pure trivial

theorem yields_setPrecision (word : String) :
    Undefective (fun _ => True) (setPrecision word) := by
  unfold setPrecision
  split
  · exact .pure trivial
  · exact (Yields.change fun c hc => hc.setPrecision _).bind fun _ _ => .pure trivial

/-- No command comes to a defect, and all keep contexts well stocked. -/
theorem yields_perform (command : Command) : Undefective (fun _ => True) (perform command) := by
  cases command with
  | delete name => exact yields_delete name
  | setPrecision word => exact yields_setPrecision word
  | tooLong => exact .fail rfl
  | reset => exact (Yields.change fun c hc => hc.reset).bind fun _ _ => .pure trivial
  | showPrecision => exact Yields.context.bind fun c _ => .pure trivial
  | environment => exact Yields.context.bind fun c _ => .pure trivial
  | define definition =>
    cases definition with
    | function name params source => exact yields_defineFunction name params source
    | baseCase name texts text => exact yields_defineBaseCase name texts text
    | var name source => exact yields_defineVariable name source
  | evaluate source =>
    refine yields_evaluating source fun value => (yields_assign "ans" value).bind fun _ _ => ?_
    exact Yields.context.bind fun c _ => .pure trivial
  | _ => exact .pure trivial

/-! ## Sessions -/

theorem wellStocked_after (s : Settings) (lines : List String) :
    WellStocked (after (.fresh s) lines) := by
  refine after_induction (fun c line hc => ?_) (Context.stocked_fresh s) lines
  rw [run_execute]
  exact (yields_perform _ c hc).1

/-- **No defects.** After any lines of a session with any settings, no line runs into a defect: it
is answered with a reply, unless a count in it never ends. -/
theorem execute_reaches_no_defect (s : Settings) (lines : List String) (line : String) :
    (∀ defect, ((execute line).run (after (.fresh s) lines)).1 ≠ .error (.defect defect)) ∧
      ((∃ reply, ((execute line).run (after (.fresh s) lines)).1 = .ok reply) ∨
        ((execute line).run (after (.fresh s) lines)).1 = .error .endless) := by
  have hanswer : (∃ reply, ((execute line).run (after (.fresh s) lines)).1 = .ok reply) ∨
      ((execute line).run (after (.fresh s) lines)).1 = .error .endless := by
    rw [run_execute]
    have hfault := (yields_perform (.ofLine line) _ (wellStocked_after s lines)).2.2
    cases hresult : ((perform (.ofLine line)).run (after (.fresh s) lines)).1 with
    | ok output => exact .inl ⟨_, rfl⟩
    | error fault =>
      rcases Fault.kind?_of_not_isDefect (hfault fault hresult) with ⟨kind, hkind⟩ | rfl
      · exact .inl ⟨_, answer_error hkind (.ofLine line)⟩
      · exact .inr rfl
  refine ⟨fun defect hdefect => ?_, hanswer⟩
  rw [hdefect] at hanswer
  rcases hanswer with ⟨reply, hreply⟩ | hendless
  · cases hreply
  · cases hendless

/-- The exception is real: at this magnitude the counter plus one is the counter. -/
theorem execute_is_not_always_answered :
    ¬ ∀ (s : Settings) (lines : List String) (line : String),
      (∀ defect, ((execute line).run (after (.fresh s) lines)).1 ≠ .error (.defect defect)) ∧
        ∃ reply, ((execute line).run (after (.fresh s) lines)).1 = .ok reply := by
  intro hanswered
  obtain ⟨-, reply, hreply⟩ := hanswered .standard [] "sum[k,1e300,1e300,1]"
  have hendless : ((execute "sum[k,1e300,1e300,1]").run (after (.fresh .standard) [])).1 =
      .error .endless := by decide +kernel
  rw [hendless] at hreply
  cases hreply

end Session

end Reckoner
