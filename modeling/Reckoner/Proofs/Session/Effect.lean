import Reckoner.Proofs.Evaluation.Trace
import Reckoner.Proofs.Session.Steps

/-!
# What a line can do

`Session.Effect c command result d` lists what carrying out a command in a context `c` can come to:
its result and the context `d` afterwards.  Every command does one of these things
(`Session.effect_perform`), so what holds of sessions is shown case by case from the list.

All that can fail in a command comes before all that changes a variable or a definition, so a line
that is answered with a fault keeps all of them (`Session.failing_line_keeps_definitions`).
-/

namespace Reckoner

open Reckoner.Action

/-- Whether a command neither defines nor evaluates nor resets anything. -/
def Command.isQuiet : Command → Bool
  | .define _ | .evaluate _ | .reset => false
  | _ => true

namespace Session

/-! ## Effects -/

/-- The effects of a command in a context, by the result and the context afterwards. -/
inductive Effect (c : Context) : Command → Except Fault String → Context → Prop where
  | failure {command : Command} {fault : Fault} {d : Context} (grows : c.Grows d) :
      Effect c command (.error fault) d
  | quiet {command : Command} {output : String} (quiet : command.isQuiet = true) :
      Effect c command (.ok output) c
  | function {name source output : String} {params : List String} {body : Operand}
      (free : isReservedFunction name = false) (checked : checkParams c name [] params = .ok ())
      (compiled : Operand.compile c.bits c.ceiling source = .ok body) :
      Effect c (.define (.function name params source)) (.ok output)
        ((c.setFunction name (.user (redefine (c.user? name) params body))).invalidate name)
  | baseCase {name text output : String} {texts : List String} {args : List Number} {value : Number}
      (free : isReservedFunction name = false)
      (arity : (baseCaseHost (c.user? name) args.length).arity = args.length)
      (read : texts.mapM (Operand.numeralValue c.bits) = .ok args)
      (readValue : Operand.numeralValue c.bits text = .ok value) :
      Effect c (.define (.baseCase name texts text)) (.ok output)
        ((c.setFunction name (.user
          ((baseCaseHost (c.user? name) args.length).putBaseCase args value).forget)).invalidate
            name)
  | var {name source output : String} {d : Context} {value : Number}
      (constant : Reserved.isConstant name = false) (command : Reserved.isCommand name = false)
      (grows : c.Grows d) :
      Effect c (.define (.var name source)) (.ok output)
        ((((d.setVariable name value).invalidate name).setVariable "ans" value).invalidate "ans")
  | value {source output : String} {d : Context} {value : Number} (grows : c.Grows d) :
      Effect c (.evaluate source) (.ok output) ((d.setVariable "ans" value).invalidate "ans")
  | eraseVariable {name output : String} (constant : Reserved.isConstant name = false) :
      Effect c (.delete name) (.ok output) ((c.eraseVariable name).invalidate name)
  | eraseFunction {name output : String} (builtin : Builtin.isName name = false)
      (noVariable : c.hasVariable name = false) :
      Effect c (.delete name) (.ok output) ((c.eraseFunction name).invalidate name)
  | precision {word output : String} (p : Precision) :
      Effect c (.setPrecision word) (.ok output) (c.setPrecision p)
  | reset {output : String} : Effect c .reset (.ok output) c.reset

/-- Carrying out an action for a command has one of the effects. -/
abbrev HasEffect (c : Context) (command : Command) (act : Action String) : Prop :=
  Effect c command (act.run c).1 (act.run c).2

section Commands

variable (c : Context)

theorem effect_fail (command : Command) (fault : Fault) : HasEffect c command (.fail fault) :=
  .failure (.refl c)

theorem effect_defineFunction (name : String) (params : List String) (source : String) :
    HasEffect c (.define (.function name params source)) (defineFunction name params source) := by
  unfold HasEffect defineFunction
  split
  · exact effect_fail c _ _
  · next hfree =>
    rw [run_context_bind]
    split
    · exact effect_fail c _ _
    · next hchecked =>
      rw [run_compile_bind]
      cases hbody : Operand.compile c.bits c.ceiling source with
      | error fault => exact .failure (.refl c)
      | ok body => exact .function (Bool.eq_false_iff.2 hfree) hchecked hbody

theorem effect_defineBaseCase (name : String) (texts : List String) (text : String) :
    HasEffect c (.define (.baseCase name texts text)) (defineBaseCase name texts text) := by
  unfold HasEffect defineBaseCase
  split
  · exact effect_fail c _ _
  · next hfree =>
    rw [run_context_bind]
    cases hargs : texts.mapM (Operand.numeralValue c.bits) with
    | error fault => exact .failure (.refl c)
    | ok args =>
      cases hvalue : Operand.numeralValue c.bits text with
      | error fault => exact .failure (.refl c)
      | ok value =>
        rw [run_ofExcept_ok_bind, run_ofExcept_ok_bind]
        dsimp only
        split
        · exact effect_fail c _ _
        · next harity =>
          exact .baseCase (Bool.eq_false_iff.2 hfree) (not_not.1 harity) hargs hvalue

theorem effect_evaluating {command : Command} (source : String) {next : Number → Action String}
    (hnext : ∀ value d, c.Grows d →
      Effect c command ((next value).run d).1 ((next value).run d).2) :
    HasEffect c command (Evaluation.compile source >>= fun o => o.evaluate >>= next) := by
  unfold HasEffect
  rw [run_compile_bind]
  cases Operand.compile c.bits c.ceiling source with
  | error fault => exact .failure (.refl c)
  | ok o =>
    dsimp only
    rcases hrun : o.evaluate.run c with ⟨fault | value, d⟩
    · rw [run_bind_of_error hrun]
      exact .failure (Operand.grows_of_run hrun)
    · rw [run_bind_of_ok hrun]
      exact hnext value d (Operand.grows_of_run hrun)

theorem effect_defineVariable (name source : String) :
    HasEffect c (.define (.var name source)) (defineVariable name source) := by
  unfold defineVariable
  split
  · exact effect_fail c _ _
  · next hfree =>
    rw [Bool.not_eq_true, Bool.or_eq_false_iff] at hfree
    exact effect_evaluating c source fun value d hgrows => .var hfree.1 hfree.2 hgrows

theorem effect_delete (name : String) : HasEffect c (.delete name) (delete name) := by
  unfold HasEffect delete
  rw [run_context_bind]
  split
  · split
    · exact .quiet rfl
    · next hconstant => exact .eraseVariable (Bool.eq_false_iff.2 hconstant)
  · next hvariable =>
    split
    · split
      · exact .quiet rfl
      · next hbuiltin =>
        exact .eraseFunction (Bool.eq_false_iff.2 hbuiltin) (Bool.eq_false_iff.2 hvariable)
    · exact .quiet rfl

theorem effect_setPrecision (word : String) :
    HasEffect c (.setPrecision word) (setPrecision word) := by
  unfold HasEffect setPrecision
  split
  · exact .quiet rfl
  · next p _ => exact .precision p

/-- Every command has one of the effects. -/
theorem effect_perform (command : Command) : HasEffect c command (perform command) := by
  cases command with
  | delete name => exact effect_delete c name
  | setPrecision word => exact effect_setPrecision c word
  | tooLong => exact effect_fail c _ _
  | reset => exact .reset
  | define definition =>
    cases definition with
    | function name params source => exact effect_defineFunction c name params source
    | baseCase name texts text => exact effect_defineBaseCase c name texts text
    | var name source => exact effect_defineVariable c name source
  | evaluate source => exact effect_evaluating c source fun value d hgrows => .value hgrows
  | _ => exact .quiet rfl

end Commands

/-! ## Lines -/

/-- A reply without a kind of fault comes from an output, and one with a kind comes from a fault and
does not end the session. -/
theorem answer_cases {command : Command} {result : Except Fault String} {reply : Reply}
    (h : answer command result = .ok reply) :
    (reply.kind = none ∧ ∃ output, result = .ok output) ∨
      (reply.kind ≠ none ∧ reply.exit = false ∧ ∃ fault, result = .error fault) := by
  cases result with
  | ok output =>
    cases h
    exact .inl ⟨rfl, output, rfl⟩
  | error fault =>
    unfold answer faultReply? at h
    dsimp only at h
    cases hfault : fault.kind? with
    | none =>
      rw [hfault] at h
      cases h
    | some kind =>
      rw [hfault] at h
      cases h
      exact .inr ⟨Option.some_ne_none kind, rfl, fault, rfl⟩

/-- A line has the effects of its command: one with an output if the reply reports no fault, and
otherwise one with a fault. -/
theorem effect_execute {c : Context} {line : String} {reply : Reply}
    (h : ((execute line).run c).1 = .ok reply) :
    (reply.kind = none ∧ ∃ output,
      Effect c (.ofLine line) (.ok output) ((execute line).run c).2) ∨
    (reply.kind ≠ none ∧ reply.exit = false ∧ ∃ fault,
      Effect c (.ofLine line) (.error fault) ((execute line).run c).2) := by
  rw [run_execute] at h ⊢
  have heffect : Effect c (.ofLine line) _ _ := effect_perform c (.ofLine line)
  rcases answer_cases h with ⟨hkind, output, hresult⟩ | ⟨hkind, hexit, fault, hresult⟩
  · rw [hresult] at heffect
    exact .inl ⟨hkind, output, heffect⟩
  · rw [hresult] at heffect
    exact .inr ⟨hkind, hexit, fault, heffect⟩

/-- A fault comes before every change of a variable or a definition. -/
theorem Effect.grows_of_error {c d : Context} {command : Command} {fault : Fault}
    (h : Effect c command (.error fault) d) : c.Grows d := by
  cases h with
  | failure hgrows => exact hgrows

/-- **Failing lines.** A line that is answered with a fault does not end the session, and it leaves
the variables, the precision, the depth and the definitions as they were; functions remember at
least what they remembered. -/
theorem failing_line_keeps_definitions (c : Context) (line : String) (reply : Reply)
    (hreply : ((execute line).run c).1 = .ok reply) (hkind : reply.kind ≠ none) :
    reply.exit = false ∧ c.Grows ((execute line).run c).2 := by
  rcases effect_execute hreply with ⟨hnone, -⟩ | ⟨-, hexit, fault, heffect⟩
  · exact absurd hnone hkind
  · exact ⟨hexit, heffect.grows_of_error⟩

/-- A variable whose value fails after a function came to remember one. -/
theorem failing_line_keeps_definitions_of_quotient :
    ∃ reply, ((execute "x=f[2]+1/0").run (after (.fresh .standard) ["f[t]=t*t", "x=4"])).1 =
        .ok reply ∧
      reply.kind = some .eval ∧ reply.exit = false ∧
      (((execute "x=f[2]+1/0").run (after (.fresh .standard) ["f[t]=t*t", "x=4"])).2.user? "f").map
        (fun f => f.memo.entries) = some [([2], 4)] ∧
      (after (.fresh .standard) ["f[t]=t*t", "x=4"]).Grows
        ((execute "x=f[2]+1/0").run (after (.fresh .standard) ["f[t]=t*t", "x=4"])).2 := by
  have hreply : ((execute "x=f[2]+1/0").run (after (.fresh .standard) ["f[t]=t*t", "x=4"])).1 =
      .ok ⟨"Eval error: Division by zero.", some .eval, false⟩ := by decide +kernel
  obtain ⟨hexit, hgrows⟩ := failing_line_keeps_definitions _ "x=f[2]+1/0" _ hreply (by decide)
  exact ⟨_, hreply, rfl, hexit, by decide +kernel, hgrows⟩

end Session

end Reckoner
