import Reckoner.Proofs.Evaluation.Concord
import Reckoner.Proofs.Memory.Session
import Reckoner.Proofs.Outcome
import Reckoner.Proofs.Session.Stocked

/-!
# Raising the ceiling

The ceiling bounds how deep calls nest in a text and how deep they go during evaluation.

1. A source compiles to the same operand, or is refused with the same fault, below a higher ceiling,
   unless its calls nest too deep (`Operand.compile_higher`).
2. `Context.Lifts c d`: the second context is the first one with a higher ceiling and any source of
   random digits.  Every command does the same in both, unless calls nest too deep in the first one
   (`Session.tracks_perform`).
3. So a session in which no line reports that calls nest too deep goes the same way below a higher
   ceiling (`Session.raising_the_ceiling_changes_nothing`).
-/

namespace Reckoner

open Reckoner.Action

/-- Calls nest too deep, in a text or during evaluation. -/
def Fault.IsDepth (fault : Fault) : Prop := fault.kind? = some .recursion

/-! ## Compiling -/

section Results

variable {α β : Type}

/-- The second result is the first one, unless that is a fault of calls that nest too deep. -/
def Reproduces (x y : Except Fault α) : Prop :=
  (∃ fault : Fault, fault.IsDepth ∧ x = .error fault) ∨ x = y

theorem Reproduces.refl (x : Except Fault α) : Reproduces x x := .inr rfl

theorem Reproduces.bind {x y : Except Fault α} {f g : α → Except Fault β} (h : Reproduces x y)
    (hfg : ∀ a, Reproduces (f a) (g a)) : Reproduces (x >>= f) (y >>= g) := by
  rcases h with ⟨fault, hdepth, rfl⟩ | rfl
  · exact .inl ⟨fault, hdepth, rfl⟩
  · cases x with
    | error fault => exact .refl _
    | ok a => exact hfg a

theorem Reproduces.mapM {f g : α → Except Fault β} (h : ∀ a, Reproduces (f a) (g a))
    (xs : List α) : Reproduces (xs.mapM f) (xs.mapM g) := by
  induction xs with
  | nil => exact .refl _
  | cons x xs ih =>
    rw [List.mapM_cons, List.mapM_cons]
    exact (h x).bind fun y => ih.bind fun ys => .refl _

end Results

namespace Operand

variable {call call' : String → Except Fault Operand}

theorem reproduces_tokensOf (h : ∀ text, Reproduces (call text) (call' text)) (w : Nat)
    (fragments : List Fragment) (calls : List String) :
    Reproduces (tokensOf w call fragments calls) (tokensOf w call' fragments calls) := by
  induction fragments generalizing calls with
  | nil => exact .refl _
  | cons f fragments ih =>
    unfold tokensOf
    split
    · exact (h _).bind fun operand => (ih _).bind fun tokens => .refl _
    · exact (Reproduces.refl _).bind fun token => (ih _).bind fun tokens => .refl _

theorem reproduces_ofSourceWith (h : ∀ text, Reproduces (call text) (call' text)) (w : Nat)
    (source : String) : Reproduces (ofSourceWith w call source) (ofSourceWith w call' source) := by
  unfold ofSourceWith
  refine (Reproduces.refl _).bind fun lexed => ?_
  exact (reproduces_tokensOf h w _ _).bind fun tokens => .refl _

theorem reproduces_ofCallWith {argument argument' : String → Except Fault Operand}
    (h : ∀ text, Reproduces (argument text) (argument' text)) (text : String) :
    Reproduces (ofCallWith argument text) (ofCallWith argument' text) := by
  unfold ofCallWith
  split
  · exact .refl _
  · refine (Reproduces.mapM (fun part => ?_) _).bind fun args => .refl _
    split
    · exact .refl _
    · exact h _

/-- A source compiles to the same below a higher ceiling, unless its calls nest too deep. -/
theorem compile_higher (w : Nat) {depth depth' : Nat} (hle : depth ≤ depth') (source : String) :
    Reproduces (compile w depth source) (compile w depth' source) := by
  induction depth generalizing depth' source with
  | zero =>
    rw [compile_eq, compile_eq]
    exact reproduces_ofSourceWith (fun text => .inl ⟨.depth .nestedCalls, rfl, rfl⟩) w source
  | succ depth ih =>
    cases depth' with
    | zero => omega
    | succ depth' =>
      refine reproduces_ofSourceWith (fun text => ?_) w source
      exact reproduces_ofCallWith (fun text => ih (Nat.le_of_succ_le_succ hle) text) text

end Operand

/-! ## Contexts below different ceilings -/

namespace Context

/-- The same context with another ceiling and another source of random digits. -/
def lifted (c : Context) (ceiling : Nat) (chance : Nat → Fin 10) : Context :=
  { c with ceiling := ceiling, chance := chance }

/-- The second context is the first one with a higher ceiling and any source of random digits. -/
structure Lifts (c d : Context) : Prop where
  vars : c.vars = d.vars
  functions : c.functions = d.functions
  numerics : c.numerics = d.numerics
  depth : c.depth = d.depth
  ceiling : c.ceiling ≤ d.ceiling

variable {c d : Context}

theorem Lifts.eq_lifted (h : c.Lifts d) : d = c.lifted d.ceiling d.chance := by
  obtain ⟨vars, functions, numerics, ceiling, depth, chance⟩ := d
  obtain ⟨rfl, rfl, rfl, rfl, -⟩ := h
  rfl

/-- What looks neither at the ceiling nor at chance is the same in both contexts. -/
theorem Lifts.reading {α : Type} (h : c.Lifts d) {f : Context → α}
    (hf : ∀ (c : Context) ceiling chance, f (c.lifted ceiling chance) = f c) : f d = f c := by
  rw [h.eq_lifted, hf]

/-- A change that looks neither at the ceiling nor at chance and leaves them alone. -/
def LiftFree (f : Context → Context) : Prop :=
  ∀ (c : Context) ceiling chance, f (c.lifted ceiling chance) = (f c).lifted ceiling chance

theorem Lifts.change (h : c.Lifts d) {f : Context → Context} (hf : LiftFree f) :
    (f c).Lifts (f d) := by
  have hc : f c = (f c).lifted c.ceiling c.chance := hf c c.ceiling c.chance
  have hceiling : (f c).ceiling = c.ceiling := by
    rw [hc]
    rfl
  have hd : f d = (f c).lifted d.ceiling d.chance := by rw [← hf, ← h.eq_lifted]
  rw [hd]
  exact ⟨rfl, rfl, rfl, rfl, hceiling ▸ h.ceiling⟩

theorem collect_lifted (c : Context) (ceiling : Nat) (chance : Nat → Fin 10) (rounds : Nat)
    (names : Names) :
    (c.lifted ceiling chance).collect rounds names = c.collect rounds names := by
  induction rounds generalizing names with
  | zero => rfl
  | succ rounds ih =>
    unfold collect
    simp only [ih]
    rfl

theorem invalidate_lifted (c : Context) (ceiling : Nat) (chance : Nat → Fin 10)
    (name : String) :
    (c.lifted ceiling chance).invalidate name = (c.invalidate name).lifted ceiling chance := by
  have haffected : (c.lifted ceiling chance).affected name = c.affected name :=
    c.collect_lifted ceiling chance _ _
  unfold invalidate
  rw [haffected]
  rfl

end Context

namespace Session

/-- One command does in the second context what another does in the first one, unless calls nest too
deep there. -/
abbrev Climbs {α : Type} (act act' : Action α) : Prop := Tracks Fault.IsDepth Context.Lifts act act'

section Rules

variable {α β : Type}

theorem climbs_fail (fault : Fault) : Climbs (.fail fault : Action α) (.fail fault) :=
  fun _ _ h => .fail h fault

theorem climbs_change {f : Context → Context} (hf : Context.LiftFree f) :
    Climbs (.change f) (.change f) :=
  .change fun _ _ h => h.change hf

theorem climbs_context_bind {next : Context → Action β}
    (hread : ∀ (c : Context) ceiling chance, next (c.lifted ceiling chance) = next c)
    (hnext : ∀ c, Climbs (next c) (next c)) :
    Climbs (Action.context >>= next) (Action.context >>= next) := by
  refine .context_bind fun c d h => ?_
  rw [h.reading hread]
  exact hnext c h

theorem climbs_show {text : Context → α}
    (htext : ∀ (c : Context) ceiling chance, text (c.lifted ceiling chance) = text c) :
    Climbs (Action.context >>= fun c => pure (text c))
      (Action.context >>= fun c => pure (text c)) :=
  climbs_context_bind (fun c k s => by rw [htext]) fun c => .pure _

theorem climbs_compile (source : String) :
    Climbs (Evaluation.compile source) (Evaluation.compile source) := by
  refine .context_bind fun c d h => ?_
  rw [h.reading (f := Context.bits) fun _ _ _ => rfl]
  rcases Operand.compile_higher c.bits h.ceiling source with ⟨fault, hdepth, hfault⟩ | heq
  · exact .inl ⟨fault, hdepth, hfault⟩
  · rw [heq]
    exact .ofExcept h _

end Rules

theorem climbs_change_invalidate {f : Context → Context} (name : String)
    (hf : Context.LiftFree f) :
    Climbs (.change fun c => (f c).invalidate name) (.change fun c => (f c).invalidate name) := by
  refine climbs_change fun c ceiling chance => ?_
  rw [hf, Context.invalidate_lifted]

/-! ## Definitions -/

theorem climbs_install (name : String) (f : UserFunction) :
    Climbs (install name f) (install name f) := by
  refine (climbs_change_invalidate name fun _ _ _ => rfl).bind fun _ => ?_
  exact climbs_show fun _ _ _ => rfl

theorem checkParams_lifted (c : Context) (ceiling : Nat) (chance : Nat → Fin 10)
    (function : String) (seen params : List String) :
    checkParams (c.lifted ceiling chance) function seen params =
      checkParams c function seen params := by
  refine checkParams_congr function (fun param _ => ?_) seen
  rfl

theorem climbs_defineFunction (name : String) (params : List String) (body : String) :
    Climbs (defineFunction name params body) (defineFunction name params body) := by
  unfold defineFunction
  split
  · exact climbs_fail _
  · refine climbs_context_bind (fun c ceiling chance => ?_) fun c => ?_
    · rw [checkParams_lifted]
      rfl
    · split
      · exact climbs_fail _
      · exact (climbs_compile body).bind fun o => climbs_install name _

theorem climbs_defineBaseCase (name : String) (args : List String) (value : String) :
    Climbs (defineBaseCase name args value) (defineBaseCase name args value) := by
  unfold defineBaseCase
  split
  · exact climbs_fail _
  · refine climbs_context_bind (fun _ _ _ => rfl) fun c => ?_
    refine Tracks.bind (fun _ _ h => .ofExcept h _) fun args => ?_
    refine Tracks.bind (fun _ _ h => .ofExcept h _) fun value => ?_
    dsimp only
    split
    · exact climbs_fail _
    · exact climbs_install name _

theorem climbs_assign (name : String) (value : Number) :
    Climbs (assign name value) (assign name value) :=
  climbs_change_invalidate name fun _ _ _ => rfl

/-! ## Evaluation -/

abbrev IsChanceless (o : Operand) : Prop := ¬ o.Calls "rand" ∧ ¬ o.Calls "randint"

theorem tracks_evaluate {c d : Context} (h : c.Lifts d) (hc : c.Stocked IsChanceless) {o : Operand}
    (ho : IsChanceless o) :
    TracksAt Fault.IsDepth Context.Lifts c d o.evaluate o.evaluate := by
  have hexcused : Fault.IsDepth (.depth .recursion) := rfl
  have hwithin : ∀ {o : Operand} {P : List String}, IsChanceless o → o.Within Set.univ P :=
    fun ho => ⟨fun _ _ => .inl trivial, fun _ _ => trivial, ho.1, ho.2⟩
  have hconcord : Context.Concord Fault.IsDepth Set.univ [] c d := {
    numerics := h.numerics
    depth := h.depth
    ceiling_le := h.ceiling
    ceiling := .inr hexcused
    values := fun n _ => by rw [Context.valueOf?, Context.valueOf?, h.vars]
    bound := fun n hn => absurd hn List.not_mem_nil
    alike := fun n _ => by rw [Context.function?, Context.function?, h.functions]
    named := hc.named
    bodies := fun n _ f body hf hbody => hwithin (hc.body hf hbody) }
  have hle : c.levels ≤ d.levels := by
    unfold Context.levels
    rw [h.depth]
    exact Nat.sub_le_sub_right h.ceiling _
  refine (Evaluation.tracks_evalAt hle (.inr hexcused) (hwithin ho) hconcord).imp fun hafter => ?_
  exact {
    vars := Std.ExtTreeMap.ext_getElem? fun n => hafter.values n (.inl trivial)
    functions := Std.ExtTreeMap.ext_getElem? fun n => hafter.alike n trivial
    numerics := hafter.numerics
    depth := hafter.depth
    ceiling := hafter.ceiling_le }

theorem tracks_evaluating {c d : Context} (h : c.Lifts d) (hc : c.Stocked IsChanceless)
    {source : String}
    (hcompiled : ∀ o, Operand.compile c.bits c.ceiling source = .ok o → IsChanceless o)
    {next : Number → Action String} (hnext : ∀ value, Climbs (next value) (next value)) :
    TracksAt Fault.IsDepth Context.Lifts c d
      (Evaluation.compile source >>= fun o => o.evaluate >>= next)
      (Evaluation.compile source >>= fun o => o.evaluate >>= next) := by
  rw [TracksAt, run_compile_bind, run_compile_bind, h.reading (f := Context.bits) fun _ _ _ => rfl]
  rcases Operand.compile_higher c.bits h.ceiling source with ⟨fault, hdepth, hfault⟩ | heq
  · rw [hfault]
    exact .inl ⟨fault, hdepth, rfl⟩
  · rw [← heq]
    cases ho : Operand.compile c.bits c.ceiling source with
    | error fault => exact .inr ⟨rfl, h⟩
    | ok o =>
      have hvalue := tracks_evaluate h hc (hcompiled o ho)
      exact hvalue.bind fun value c' d' h' => hnext value h'

/-! ## Commands -/

theorem climbs_delete (name : String) : Climbs (delete name) (delete name) := by
  refine climbs_context_bind (fun _ _ _ => rfl) fun c => ?_
  split
  · split
    · exact .pure _
    · exact (climbs_change_invalidate name fun _ _ _ => rfl).bind fun _ => .pure _
  · split
    · split
      · exact .pure _
      · exact (climbs_change_invalidate name fun _ _ _ => rfl).bind fun _ => .pure _
    · exact .pure _

theorem climbs_setPrecision (word : String) : Climbs (setPrecision word) (setPrecision word) := by
  unfold setPrecision
  split
  · exact .pure _
  · exact (climbs_change fun _ _ _ => rfl).bind fun _ => .pure _

/-- Every command does the same below a higher ceiling, unless calls nest too deep. -/
theorem tracks_perform {c d : Context} (h : c.Lifts d) (hc : c.Stocked IsChanceless)
    {command : Command}
    (hcompiled : ∀ source, command.source? = some source → ∀ o,
      Operand.compile c.bits c.ceiling source = .ok o → IsChanceless o) :
    TracksAt Fault.IsDepth Context.Lifts c d (perform command) (perform command) := by
  cases command with
  | delete name => exact climbs_delete name h
  | setPrecision word => exact climbs_setPrecision word h
  | tooLong => exact climbs_fail _ h
  | reset => exact (climbs_change fun _ _ _ => rfl).bind (fun _ => .pure _) h
  | showPrecision => exact climbs_show (fun _ _ _ => rfl) h
  | environment => exact climbs_show (fun _ _ _ => rfl) h
  | define definition =>
    cases definition with
    | function name params body => exact climbs_defineFunction name params body h
    | baseCase name args value => exact climbs_defineBaseCase name args value h
    | var name value =>
      unfold perform define defineVariable
      dsimp only
      split
      · exact climbs_fail _ h
      · refine tracks_evaluating h hc (hcompiled value rfl) fun value => ?_
        refine (climbs_assign name value).bind fun _ => (climbs_assign "ans" value).bind fun _ => ?_
        exact climbs_show fun _ _ _ => rfl
  | evaluate source =>
    refine tracks_evaluating h hc (hcompiled source rfl) fun value => ?_
    exact (climbs_assign "ans" value).bind fun _ => climbs_show fun _ _ _ => rfl
  | _ => exact Tracks.pure _ h

/-! ## Sessions -/

theorem lifts_execute {c d : Context} (h : c.Lifts d) (hc : c.Stocked IsChanceless) {line : String}
    (hreads : ∀ o, Reads c line o → IsChanceless o)
    (hdeep : ¬ ReportsRecursion ((execute line).run c).1) :
    ((execute line).run c).1 = ((execute line).run d).1 ∧
      ((execute line).run c).2.Lifts ((execute line).run d).2 := by
  have htracks : TracksAt Fault.IsDepth Context.Lifts c d (perform (.ofLine line)) _ :=
    tracks_perform h hc fun source hsource o ho => hreads o ⟨source, hsource, ho⟩
  rcases htracks with ⟨fault, hdepth, hfault⟩ | ⟨hresult, hafter⟩
  · exact absurd (reportsRecursion_of_kind? hdepth hfault) hdeep
  · rw [run_execute, run_execute, hresult]
    exact ⟨rfl, hafter⟩

/-- Lines that do not report that calls nest too deep do the same below a higher ceiling, one after
the other. -/
theorem lifts_lines {c d : Context} (h : c.Lifts d) (hc : c.Stocked IsChanceless)
    {before rest : List String} {line : String}
    (hreads : ∀ step ∈ steps c (before ++ line :: rest), ∀ o, Reads step.1 step.2 o →
      IsChanceless o)
    (hdeep : ∀ step ∈ steps c (before ++ line :: rest),
      ¬ ReportsRecursion ((execute step.2).run step.1).1) :
    ((execute line).run (after c before)).1 = ((execute line).run (after d before)).1 ∧
      ((execute line).run (after c before)).2.Lifts ((execute line).run (after d before)).2 := by
  induction before generalizing c d with
  | nil =>
    have hmem : (c, line) ∈ steps c ([] ++ line :: rest) := List.mem_cons_self
    exact lifts_execute h hc (hreads (c, line) hmem) (hdeep (c, line) hmem)
  | cons first before ih =>
    have hmem : (c, first) ∈ steps c (first :: before ++ line :: rest) := List.mem_cons_self
    have hfirst := hreads (c, first) hmem
    have hlifts := lifts_execute h hc hfirst (hdeep (c, first) hmem)
    exact ih hlifts.2 (stocked_execute hc hfirst)
      (fun step hstep => hreads step (List.mem_cons_of_mem _ hstep))
      fun step hstep => hdeep step (List.mem_cons_of_mem _ hstep)

/-- **Raising the ceiling.** A session of lines that call no random function, in which no line
reports that calls nest too deep, goes the same way below any higher ceiling: each line gets the
same reply and leaves the same variables and the same functions, with their base cases and what they
remember. -/
theorem raising_the_ceiling_changes_nothing (L : Library) (p : Precision) {m m' : Nat}
    (hle : m ≤ m') (chance chance' : Nat → Fin 10) (lines : List String)
    (hrandom : ∀ step ∈ steps (.fresh ⟨L, p, m, chance⟩) lines, ∀ o, Reads step.1 step.2 o →
      ¬ o.Calls "rand" ∧ ¬ o.Calls "randint")
    (hdeep : ∀ step ∈ steps (.fresh ⟨L, p, m, chance⟩) lines,
      ¬ ReportsRecursion ((execute step.2).run step.1).1) :
    ∀ before line rest, lines = before ++ line :: rest →
      ((execute line).run (after (.fresh ⟨L, p, m, chance⟩) before)).1 =
          ((execute line).run (after (.fresh ⟨L, p, m', chance'⟩) before)).1 ∧
        ((execute line).run (after (.fresh ⟨L, p, m, chance⟩) before)).2.Lifts
          ((execute line).run (after (.fresh ⟨L, p, m', chance'⟩) before)).2 := by
  rintro before line rest rfl
  have hfresh : (Context.fresh ⟨L, p, m, chance⟩).Lifts (.fresh ⟨L, p, m', chance'⟩) :=
    ⟨rfl, rfl, rfl, rfl, hle⟩
  exact lifts_lines hfresh (Context.stocked_fresh _) hrandom hdeep

/-- Whether what a line compiles to uses the name of a random function. -/
def usesRandom (step : Context × String) : Bool :=
  match (Command.ofLine step.2).source? with
  | none => false
  | some source =>
    match Operand.compile step.1.bits step.1.ceiling source with
    | .ok o => o.references.contains "rand" || o.references.contains "randint"
    | .error _ => false

theorem isChanceless_of_usesRandom {step : Context × String} (h : usesRandom step = false)
    {o : Operand} (ho : Reads step.1 step.2 o) : IsChanceless o := by
  obtain ⟨source, hsource, hcompile⟩ := ho
  rw [usesRandom, hsource] at h
  simp only [hcompile, Bool.or_eq_false_iff] at h
  refine ⟨fun hcall => ?_, fun hcall => ?_⟩
  · exact Bool.eq_false_iff.1 h.1 (Operand.mem_references_of_calls hcall)
  · exact Bool.eq_false_iff.1 h.2 (Operand.mem_references_of_calls hcall)

/-- A recursion with a base case, called as deep as a ceiling of `4` allows, and lines that fail. -/
def factorialLines : List String :=
  ["f[0]=1", "f[x]=x*f[x-1]", "f[]", "1/0+f[2]", "2*", "f[3]"]

/-- What is needed of every step of the session can be checked. -/
theorem all_factorialLines :
    ∀ step ∈ steps (.fresh ⟨.plain, .standard, 4, fun _ => 0⟩) factorialLines,
      usesRandom step = false ∧ ¬ ReportsRecursion ((execute step.2).run step.1).1 := by
  decide +kernel

/-- The last line of the session after the others, with a ceiling and a source of digits. -/
def lastFactorial (ceiling : Nat) (chance : Nat → Fin 10) : Except Fault Reply × Context :=
  (execute "f[3]").run
    (after (.fresh ⟨.plain, .standard, ceiling, chance⟩) (factorialLines.take 5))

/-- The last line of the session goes as deep as the first ceiling allows; a lower one is reported,
and a higher one makes no difference. -/
theorem raising_the_ceiling_above_factorials :
    ReportsRecursion (lastFactorial 3 fun _ => 0).1 ∧
      (lastFactorial 4 fun _ => 0).1 = .ok (.ofOutput "6") ∧
      (lastFactorial 4 fun _ => 0).1 = (lastFactorial 1000 fun _ => 7).1 ∧
      (lastFactorial 4 fun _ => 0).2.Lifts (lastFactorial 1000 fun _ => 7).2 := by
  refine ⟨by decide +kernel, by decide +kernel, ?_⟩
  unfold lastFactorial
  exact raising_the_ceiling_changes_nothing .plain .standard (by decide) (fun _ => 0)
    (fun _ => 7) factorialLines
    (fun step hstep o ho => isChanceless_of_usesRandom (all_factorialLines step hstep).1 ho)
    (fun step hstep => (all_factorialLines step hstep).2) (factorialLines.take 5) "f[3]" [] rfl

end Session

end Reckoner
