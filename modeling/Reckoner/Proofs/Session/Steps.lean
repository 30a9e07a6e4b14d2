import Mathlib.Tactic.Common
import Reckoner.Session.Basic

/-!
# Sessions step by step

1. A fresh context has the functions that are built in, under their names
   (`Context.function?_fresh`).
2. A line is answered with what its command gives (`Session.run_execute`).
3. `Session.steps` are the lines of a session with the contexts in which they are run, and
   `Session.after` is the context after them.
-/

namespace Reckoner

open Reckoner.Action

namespace Builtin

theorem mem_all (b : Builtin) : b ∈ all := by
  cases b with
  | elementary f => cases f <;> decide
  | _ => decide

theorem isName_name (b : Builtin) : isName b.name = true :=
  List.any_eq_true.2 ⟨b, b.mem_all, beq_self_eq_true b.name⟩

theorem exists_name_eq {n : String} (h : isName n = true) : ∃ b : Builtin, b.name = n := by
  obtain ⟨b, -, hb⟩ := List.any_eq_true.1 h
  exact ⟨b, beq_iff_eq.1 hb⟩

theorem nodup_names : (all.map name).Nodup := by
  decide

end Builtin

/-- A fresh context has the functions that are built in. -/
theorem Context.function?_fresh_name (s : Settings) (b : Builtin) :
    (Context.fresh s).function? b.name = some (.builtin b) := by
  show Context.builtins[b.name]? = some (.builtin b)
  unfold Context.builtins
  refine Std.ExtTreeMap.getElem?_ofList_of_mem (Std.LawfulEqCmp.compare_eq_iff_eq.2 rfl) ?_ ?_
  · refine List.pairwise_map.2 ((List.pairwise_map.1 Builtin.nodup_names).imp fun hne heq => ?_)
    exact hne (Std.LawfulEqCmp.compare_eq_iff_eq.1 heq)
  · exact List.mem_map.2 ⟨b, b.mem_all, rfl⟩

theorem Context.function?_fresh (s : Settings) {n : String} {fn : Function}
    (h : (Context.fresh s).function? n = some fn) :
    ∃ b : Builtin, fn = .builtin b ∧ b.name = n := by
  by_cases hmem : ∃ b : Builtin, b.name = n
  · obtain ⟨b, rfl⟩ := hmem
    rw [Context.function?_fresh_name] at h
    cases h
    exact ⟨b, rfl, rfl⟩
  · have hbuiltins : Context.builtins[n]? = some fn := h
    unfold Context.builtins at hbuiltins
    rw [Std.ExtTreeMap.getElem?_ofList_of_contains_eq_false] at hbuiltins
    · cases hbuiltins
    · rw [List.map_map, Bool.eq_false_iff]
      intro hn
      obtain ⟨b, -, hb⟩ := List.mem_map.1 (List.contains_iff_mem.1 hn)
      exact hmem ⟨b, hb⟩

def Command.source? : Command → Option String
  | .define (.function _ _ body) => some body
  | .define (.var _ value) => some value
  | .evaluate source => some source
  | _ => none

theorem Action.run_bind_eq_error {α β : Type} {act : Action α} {next : α → Action β} {c : Context}
    {fault : Fault} (h : (act.run c).1 = .error fault) :
    ((act >>= next).run c).1 = .error fault := by
  rcases hrun : act.run c with ⟨r, c'⟩
  rw [hrun] at h
  simp only at h
  subst h
  rw [run_bind_of_error hrun]

namespace Session

/-! ## Lines and commands -/

/-- The reply to the result of a command, if there is one. -/
def answer (command : Command) : Except Fault String → Except Fault Reply
  | .ok output => .ok ⟨output, none, command = .exit⟩
  | .error fault =>
    match faultReply? fault with
    | some reply => .ok reply
    | none => .error fault

theorem answer_error {fault : Fault} {kind : FaultKind} (h : fault.kind? = some kind)
    (command : Command) : answer command (.error fault) =
      .ok ⟨kind.label ++ " error: " ++ fault.message, some kind, false⟩ := by
  rw [answer, faultReply?, h]
  rfl

/-- A line is answered with what its command gives. -/
theorem run_execute (line : String) (c : Context) :
    (execute line).run c =
      (answer (.ofLine line) ((perform (.ofLine line)).run c).1,
        ((perform (.ofLine line)).run c).2) := by
  unfold execute
  dsimp only
  rcases (perform (.ofLine line)).run c with ⟨fault | output, c'⟩
  · unfold answer
    dsimp only
    cases faultReply? fault <;> rfl
  · rfl

/-- Parameters pass the check in one context if they do in another where the same ones are taken. -/
theorem checkParams_congr {c d : Context} (function : String) {params : List String}
    (h : ∀ param ∈ params, c.isTaken param = d.isTaken param) (seen : List String) :
    checkParams c function seen params = checkParams d function seen params := by
  induction params generalizing seen with
  | nil => rfl
  | cons param params ih =>
    obtain ⟨hparam, hparams⟩ := List.forall_mem_cons.1 h
    unfold checkParams
    rw [hparam, ih hparams]

theorem run_compile_bind {α : Type} (source : String) (next : Operand → Action α) (c : Context) :
    (Evaluation.compile source >>= next).run c =
      match Operand.compile c.bits c.ceiling source with
      | .ok o => (next o).run c
      | .error fault => (.error fault, c) := by
  unfold Evaluation.compile
  rw [bind_assoc, run_context_bind]
  cases Operand.compile c.bits c.ceiling source <;> rfl

/-! ## Steps -/

/-- The lines of a session with the contexts in which they are run. -/
def steps (c : Context) : List String → List (Context × String)
  | [] => []
  | line :: lines => (c, line) :: steps ((execute line).run c).2 lines

/-- The context after some lines. -/
def after (c : Context) (lines : List String) : Context :=
  lines.foldl (fun c line => ((execute line).run c).2) c

/-- A line compiles to an operand. -/
def Reads (c : Context) (line : String) (o : Operand) : Prop :=
  ∃ source, (Command.ofLine line).source? = some source ∧
    Operand.compile c.bits c.ceiling source = .ok o

/-- What each line keeps holds after a session. -/
theorem after_induction {P : Context → Prop} (hstep : ∀ c line, P c → P ((execute line).run c).2)
    {c : Context} (h : P c) (lines : List String) : P (after c lines) := by
  induction lines generalizing c with
  | nil => exact h
  | cons line lines ih => exact ih (hstep c line h)

theorem mem_of_mem_steps {c : Context} {lines : List String} {step : Context × String}
    (h : step ∈ steps c lines) : step.2 ∈ lines := by
  induction lines generalizing c with
  | nil => cases h
  | cons line lines ih =>
    rcases List.mem_cons.1 h with rfl | h
    · exact List.mem_cons_self
    · exact List.mem_cons_of_mem _ (ih h)

theorem head_mem_steps (c : Context) (lines : List String) (last : String) :
    ∃ line, (c, line) ∈ steps c (lines ++ [last]) := by
  cases lines with
  | nil => exact ⟨last, List.mem_cons_self⟩
  | cons line lines => exact ⟨line, List.mem_cons_self⟩

theorem last_mem_steps (c : Context) (lines : List String) (last : String) :
    (after c lines, last) ∈ steps c (lines ++ [last]) := by
  induction lines generalizing c with
  | nil => exact List.mem_cons_self
  | cons line lines ih => exact List.mem_cons_of_mem _ (ih ((execute line).run c).2)

end Session

end Reckoner
