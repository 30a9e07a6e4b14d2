import Reckoner.Proofs.Memory.Blind
import Reckoner.Proofs.Memory.Trusted

/-!
# Memory over whole sessions

What functions remember cannot be seen in a session (`Session.execute_invalidateAll`): unless calls
nest too deep, a line gets the reply, and leaves the values and definitions, that it would if all
functions had forgotten everything before.

1. Each line keeps the context trusted (`Session.trusted_execute`), and so does a session
   (`Session.trusted_after`).
2. In trusted contexts that only differ in memory a line does the same (`Session.same_execute`).
-/

namespace Reckoner

open Reckoner.Action

namespace Session

/-! ## Bound names and reports -/

/-- A session binds a name: as a parameter of a function with a body or as a counter. -/
def Binds (c : Context) (lines : List String) (n : String) : Prop :=
  ∃ step ∈ steps c lines,
    (∃ name f, step.1.user? name = some f ∧ f.body ≠ none ∧ n ∈ f.params) ∨
      ∃ o, Reads step.1 step.2 o ∧ o.CountsWith n

/-- A line is answered with the report that calls nest too deep. -/
def ReportsRecursion (result : Except Fault Reply) : Prop :=
  ∃ reply, result = .ok reply ∧ reply.kind = some .recursion

instance ReportsRecursion.instDecidable : DecidablePred ReportsRecursion
  | .ok reply => decidable_of_iff (reply.kind = some .recursion)
      ⟨fun h => ⟨reply, rfl, h⟩, fun ⟨_, heq, h⟩ => Except.ok.inj heq ▸ h⟩
  | .error _ => isFalse nofun

theorem reportsRecursion_of_kind? {line : String} {c : Context} {fault : Fault}
    (hkind : fault.kind? = some .recursion)
    (h : ((perform (.ofLine line)).run c).1 = .error fault) :
    ReportsRecursion ((execute line).run c).1 := by
  rw [run_execute, h, answer_error hkind]
  exact ⟨_, rfl, rfl⟩

/-! ## Lines that evaluate -/

section Evaluating

variable {B : Set String} {c d : Context} {source : String}
  (hreads : ∀ o, Operand.compile c.bits c.ceiling source = .ok o → o.CallsWithin B)

include hreads in
/-- Evaluation, and then what keeps contexts trusted. -/
theorem trusted_run_compile {α : Type} {next : Number → Action α} (hc : c.Trusted B)
    (hnext : ∀ value c, Context.Trusted B c → Context.Trusted B ((next value).run c).2) :
    Context.Trusted B ((Evaluation.compile source >>= fun o => o.evaluate >>= next).run c).2 := by
  rw [run_compile_bind]
  cases ho : Operand.compile c.bits c.ceiling source with
  | error fault => exact hc
  | ok o =>
    have htrusted := (hc.run_evaluate (hreads o ho)).1
    dsimp only
    rcases hrun : o.evaluate.run c with ⟨fault | value, c'⟩
    · rw [hrun] at htrusted
      rwa [run_bind_of_error hrun]
    · rw [hrun] at htrusted
      rw [run_bind_of_ok hrun]
      exact hnext value c' htrusted

include hreads in
/-- Evaluation, and then what does not look at memory. -/
theorem same_compile {α : Type} {next : Number → Action α} (hc : c.Trusted B) (hd : d.Trusted B)
    (heq : c.invalidateAll = d.invalidateAll) (hnext : ∀ value, Blind (next value))
    (hnec : ((Evaluation.compile source >>= fun o => o.evaluate >>= next).run c).1 ≠
      .error (.depth .recursion))
    (hned : ((Evaluation.compile source >>= fun o => o.evaluate >>= next).run d).1 ≠
      .error (.depth .recursion)) :
    SameIn (Evaluation.compile source >>= fun o => o.evaluate >>= next) c d := by
  have hbits : d.bits = c.bits := (congrArg Context.bits heq).symm
  have hceiling : d.ceiling = c.ceiling := (congrArg Context.ceiling heq).symm
  have hrunc := run_compile_bind source (fun o => o.evaluate >>= next) c
  have hrund := run_compile_bind source (fun o => o.evaluate >>= next) d
  rw [hbits, hceiling] at hrund
  cases ho : Operand.compile c.bits c.ceiling source with
  | error fault =>
    rw [ho] at hrunc hrund
    exact ⟨by rw [hrunc, hrund], by rw [hrunc, hrund]; exact heq⟩
  | ok o =>
    rw [ho] at hrunc hrund
    rw [hrunc] at hnec
    rw [hrund] at hned
    have hcalls := hreads o ho
    have hstate : (o.evaluate.run c).2.invalidateAll = (o.evaluate.run d).2.invalidateAll := by
      rw [(hc.run_evaluate hcalls).2, (hd.run_evaluate hcalls).2, heq]
    have hresult := hc.evaluate_congr hd heq hcalls (fun h => hnec (run_bind_eq_error h))
      (fun h => hned (run_bind_eq_error h))
    have hsame := SameIn.bind ⟨hresult, hstate⟩ hnext
    exact ⟨by rw [hrunc, hrund]; exact hsame.result, by rw [hrunc, hrund]; exact hsame.state⟩

end Evaluating

/-! ## What lines do to trusted contexts -/

section Commands

variable {B : Set String} {c : Context}

theorem trusted_variable (h : c.Trusted B) {d : Context} {name : String}
    (hfunctions : d.functions = c.functions) (hnumerics : d.numerics = c.numerics)
    (hvalues : ∀ n, n ≠ name → d.valueOf? n = c.valueOf? n) : (d.invalidate name).Trusted B := by
  have hfunction : ∀ n, d.function? n = c.function? n := fun n => by
    unfold Context.function?
    rw [hfunctions]
  have hdisciplined : d.Disciplined B := h.disciplined.of_forget_eq fun n => by rw [hfunction]
  refine h.invalidate hdisciplined hnumerics hvalues (fun n _ => hfunction n) fun f hf => ?_
  rw [Context.user?_eq_some, hfunction, ← Context.user?_eq_some] at hf
  exact h.memory name f hf

theorem trusted_assign (h : c.Trusted B) (name : String) (value : Number) :
    ((c.setVariable name value).invalidate name).Trusted B :=
  trusted_variable h rfl rfl fun n hn => by
    rw [Context.valueOf?_setVariable, if_neg hn.symm]

theorem trusted_eraseVariable (h : c.Trusted B) (name : String) :
    ((c.eraseVariable name).invalidate name).Trusted B :=
  trusted_variable h rfl rfl fun n hn => by
    rw [Context.valueOf?_eraseVariable, if_neg hn.symm]

theorem trusted_eraseFunction (h : c.Trusted B) {name : String} (hname : name ∉ B) :
    Context.Trusted B ((c.eraseFunction name).invalidate name) := by
  have hfunction := c.function?_eraseFunction name
  refine h.invalidate (h.disciplined.of_subset fun n fn hfn => ?_) rfl (fun _ _ => rfl)
    (fun n hn => ?_) fun f hf => ?_
  · rw [hfunction] at hfn
    split at hfn
    · cases hfn
    · rw [hfn, Option.map_some]
  · rw [hfunction, if_neg]
    rintro rfl
    exact hn.elim (fun hne => hne rfl) hname
  · rw [Context.user?_eq_some, hfunction, if_pos rfl] at hf
    cases hf

theorem trusted_install (h : c.Trusted B) {name : String} {f : UserFunction}
    (hmemo : f.memo = Table.empty) (hbody : ∀ body, f.body = some body → body.CallsWithin B)
    (hseparated : ((c.setFunction name (.user f)).invalidate name).Separated B) :
    ((c.setFunction name (.user f)).invalidate name).Trusted B := by
  have hfunction := fun n => c.function?_setFunction name n (.user f)
  have huser : (c.setFunction name (.user f)).user? name = some f := by
    rw [Context.user?_eq_some, hfunction, if_pos rfl]
  have hforget : ∀ n fn, (c.setFunction name (.user f)).function? n = some fn →
      (((c.setFunction name (.user f)).invalidate name).function? n).map Function.forget =
        some fn.forget := by
    intro n fn hfn
    have heq := congrArg (fun c => c.function? n)
      ((c.setFunction name (.user f)).invalidate_invalidateAll name)
    simp only [Context.function?_invalidateAll] at heq
    rw [heq, hfn, Option.map_some]
  have hseparated' : (c.setFunction name (.user f)).Separated B := hseparated.of_subset hforget
  have hdisciplined : (c.setFunction name (.user f)).Disciplined B := by
    refine ⟨hseparated', fun n b hb => ?_, fun n f' body hf' hbody' => ?_⟩
    · rw [hfunction] at hb
      split at hb
      · cases hb
      · exact h.disciplined.builtins n b hb
    · rw [Context.user?_eq_some, hfunction] at hf'
      split at hf'
      · cases hf'
        exact hbody body hbody'
      · exact h.disciplined.bodies n f' body (Context.user?_eq_some.2 hf') hbody'
  refine h.invalidate hdisciplined rfl (fun _ _ => rfl) (fun n hn => ?_) fun f' hf' => ?_
  · rw [hfunction, if_neg]
    rintro rfl
    exact hn.elim (fun hne => hne rfl) (hseparated'.names name f huser)
  · rw [huser] at hf'
    cases hf'
    intro args value _ hfind
    rw [hmemo, Table.find?_empty] at hfind
    cases hfind

theorem trusted_setPrecision (h : c.Trusted B) (word : String) :
    ((setPrecision word).run c).2.Trusted B := by
  unfold setPrecision
  split
  · exact h
  · next p _ =>
    have hdisciplined : (c.rescale p).Disciplined B := h.disciplined.of_forget_eq fun _ => rfl
    exact hdisciplined.trusted_invalidateAll

theorem trusted_reset (h : c.Trusted B) : c.reset.Trusted B := by
  have hdisciplined : c.reset.Disciplined B := h.disciplined.of_subset fun n fn hfn => by
    rw [Context.function?_reset] at hfn
    split at hfn
    · obtain ⟨fn', hfn', rfl⟩ := Option.map_eq_some_iff.1 hfn
      rw [hfn', Option.map_some, Function.forget_forget]
    · cases hfn
  have heq : c.reset.invalidateAll = c.reset := Context.invalidateAll_invalidateAll _
  rw [← heq]
  exact hdisciplined.trusted_invalidateAll

theorem trusted_delete (h : c.Trusted B) (name : String) :
    ((delete name).run c).2.Trusted B := by
  unfold delete
  rw [run_context_bind]
  split
  · split
    · exact h
    · exact trusted_eraseVariable h name
  · split
    · next hfunction =>
      split
      · exact h
      · next hname =>
        refine trusted_eraseFunction h fun hB => ?_
        rw [Context.hasFunction_eq, Option.isSome_iff_exists] at hfunction
        obtain ⟨fn, hfn⟩ := hfunction
        cases fn with
        | builtin b =>
          have hb := h.disciplined.builtins name b hfn
          rw [← hb] at hname
          exact hname b.isName_name
        | user f => exact h.disciplined.names name f (Context.user?_eq_some.2 hfn) hB
    · exact h

theorem trusted_defineFunction (h : c.Trusted B) (name : String) (params : List String)
    {body : String}
    (hreads : ∀ o, Operand.compile c.bits c.ceiling body = .ok o → o.CallsWithin B) :
    ((defineFunction name params body).run c).2.Separated B →
      ((defineFunction name params body).run c).2.Trusted B := by
  unfold defineFunction
  split
  · exact fun _ => h
  · rw [run_context_bind]
    split
    · exact fun _ => h
    · rw [run_compile_bind]
      cases ho : Operand.compile c.bits c.ceiling body with
      | error fault => exact fun _ => h
      | ok o =>
        have hredefine : (redefine (c.user? name) params o).memo = Table.empty ∧
            (redefine (c.user? name) params o).body = some o := by
          unfold redefine
          split
          · dsimp only
            split <;> exact ⟨rfl, rfl⟩
          · exact ⟨rfl, rfl⟩
        refine trusted_install h hredefine.1 fun body hbody => ?_
        rw [hredefine.2] at hbody
        cases hbody
        exact hreads o ho

theorem trusted_defineBaseCase (h : c.Trusted B) (name : String) (args : List String)
    (value : String) :
    ((defineBaseCase name args value).run c).2.Separated B →
      ((defineBaseCase name args value).run c).2.Trusted B := by
  unfold defineBaseCase
  split
  · exact fun _ => h
  · rw [run_context_bind]
    cases args.mapM (Operand.numeralValue c.bits) with
    | error fault => exact fun _ => h
    | ok args =>
      cases Operand.numeralValue c.bits value with
      | error fault => exact fun _ => h
      | ok value =>
        rw [run_ofExcept_ok_bind, run_ofExcept_ok_bind]
        dsimp only
        split
        · exact fun _ => h
        · refine trusted_install h rfl fun body hbody => ?_
          cases hf : c.user? name with
          | none =>
            rw [hf] at hbody
            cases hbody
          | some f =>
            rw [hf] at hbody
            exact h.disciplined.bodies name f body hf hbody

theorem trusted_fresh (s : Settings) : (Context.fresh s).Trusted B := by
  have huser : ∀ n f, (Context.fresh s).user? n ≠ some f := fun n f hf => by
    obtain ⟨b, hb, -⟩ := Context.function?_fresh s (Context.user?_eq_some.1 hf)
    cases hb
  refine ⟨⟨⟨fun n f hf => ?_, fun n f hf => ?_, fun n f hf => ?_⟩, fun n b hb => ?_,
    fun n f body hf => ?_⟩, fun n f hf => ?_⟩
  · exact absurd hf (huser n f)
  · exact absurd hf (huser n f)
  · exact absurd hf (huser n f)
  · obtain ⟨b', hb', hname⟩ := Context.function?_fresh s hb
    cases hb'
    exact hname
  · exact absurd hf (huser n f)
  · exact absurd hf (huser n f)

/-! ## Whole lines -/

theorem trusted_perform (h : c.Trusted B) {command : Command}
    (hreads : ∀ source, command.source? = some source → ∀ o,
      Operand.compile c.bits c.ceiling source = .ok o → o.CallsWithin B) :
    ((perform command).run c).2.Separated B → ((perform command).run c).2.Trusted B := by
  cases command with
  | delete name => exact fun _ => trusted_delete h name
  | setPrecision word => exact fun _ => trusted_setPrecision h word
  | reset => exact fun _ => trusted_reset h
  | define definition =>
    cases definition with
    | function name params body => exact trusted_defineFunction h name params (hreads body rfl)
    | baseCase name args value => exact trusted_defineBaseCase h name args value
    | var name value =>
      intro _
      unfold perform define defineVariable
      dsimp only
      split
      · exact h
      · refine trusted_run_compile (hreads value rfl) h fun value c hc => ?_
        exact trusted_assign (trusted_assign hc name value) "ans" value
  | evaluate source =>
    intro _
    refine trusted_run_compile (hreads source rfl) h fun value c hc => ?_
    exact trusted_assign hc "ans" value
  | _ => exact fun _ => h

theorem same_perform {d : Context} (hc : c.Trusted B) (hd : d.Trusted B)
    (heq : c.invalidateAll = d.invalidateAll) {command : Command}
    (hreads : ∀ source, command.source? = some source → ∀ o,
      Operand.compile c.bits c.ceiling source = .ok o → o.CallsWithin B) :
    ((perform command).run c).1 ≠ .error (.depth .recursion) →
      ((perform command).run d).1 ≠ .error (.depth .recursion) → SameIn (perform command) c d := by
  cases command with
  | define definition =>
    cases definition with
    | function name params body => exact fun _ _ => blind_defineFunction name params body c d heq
    | baseCase name args value => exact fun _ _ => blind_defineBaseCase name args value c d heq
    | var name value =>
      unfold perform define defineVariable
      dsimp only
      split
      · exact fun _ _ => Blind.fail _ c d heq
      · refine same_compile (hreads value rfl) hc hd heq fun value => ?_
        refine (blind_assign name value).bind fun _ => (blind_assign "ans" value).bind fun _ => ?_
        exact .context_bind (fun _ => rfl) fun _ => .pure _
  | evaluate source =>
    refine same_compile (hreads source rfl) hc hd heq fun value => ?_
    exact (blind_assign "ans" value).bind fun _ =>
      .context_bind (fun _ => rfl) fun _ => .pure _
  | _ => exact fun _ _ => blind_perform rfl c d heq

theorem trusted_execute (h : c.Trusted B) {line : String}
    (hreads : ∀ o, Reads c line o → o.CallsWithin B)
    (hseparated : ((execute line).run c).2.Separated B) : ((execute line).run c).2.Trusted B := by
  rw [run_execute] at hseparated ⊢
  exact trusted_perform h (fun source hsource o ho => hreads o ⟨source, hsource, ho⟩) hseparated

/-- In trusted contexts that only differ in memory a line does the same. -/
theorem same_execute {d : Context} (hc : c.Trusted B) (hd : d.Trusted B)
    (heq : c.invalidateAll = d.invalidateAll) {line : String}
    (hreads : ∀ o, Reads c line o → o.CallsWithin B)
    (hdeepc : ¬ ReportsRecursion ((execute line).run c).1)
    (hdeepd : ¬ ReportsRecursion ((execute line).run d).1) : SameIn (execute line) c d := by
  have hsame := same_perform hc hd heq
    (fun source hsource o ho => hreads o ⟨source, hsource, ho⟩)
    (fun h => hdeepc (reportsRecursion_of_kind? rfl h))
    (fun h => hdeepd (reportsRecursion_of_kind? rfl h))
  refine ⟨?_, ?_⟩
  · rw [run_execute, run_execute, hsame.result]
  · rw [run_execute, run_execute]
    exact hsame.state

end Commands

/-! ## Whole sessions -/

/-- A session keeps the context trusted. -/
theorem trusted_after {B : Set String} {c : Context} (h : c.Trusted B) {lines : List String}
    {last : String}
    (hreads : ∀ step ∈ steps c (lines ++ [last]), ∀ o, Reads step.1 step.2 o → o.CallsWithin B)
    (hseparated : ∀ step ∈ steps c (lines ++ [last]), step.1.Separated B) :
    (after c lines).Trusted B := by
  induction lines generalizing c with
  | nil => exact h
  | cons line lines ih =>
    have hrest : ∀ step ∈ steps ((execute line).run c).2 (lines ++ [last]),
        step ∈ steps c (line :: lines ++ [last]) := fun step hstep => List.mem_cons_of_mem _ hstep
    obtain ⟨next, hnext⟩ := head_mem_steps ((execute line).run c).2 lines last
    have hline : ((execute line).run c).2.Trusted B :=
      trusted_execute h (hreads (c, line) List.mem_cons_self) (hseparated _ (hrest _ hnext))
    exact ih hline (fun step hstep => hreads step (hrest step hstep))
      fun step hstep => hseparated step (hrest step hstep)

/-- What functions remember cannot be seen: after any lines, the next line gets the same reply and
leaves the same values and definitions if all functions forget what they remember before it.  The
lines call no random function, and no name that they bind is the name of a function or referred to
by one. -/
theorem execute_invalidateAll (s : Settings) (lines : List String) (line : String)
    (hrandom : ∀ step ∈ steps (.fresh s) (lines ++ [line]), ∀ o, Reads step.1 step.2 o →
      ¬ o.Calls "rand" ∧ ¬ o.Calls "randint")
    (hbound : ∀ n, Binds (.fresh s) (lines ++ [line]) n →
      ∀ step ∈ steps (.fresh s) (lines ++ [line]), ∀ name f, step.1.user? name = some f →
        name ≠ n ∧ n ∉ f.references)
    (hdeep : ¬ ReportsRecursion ((execute line).run (after (.fresh s) lines)).1)
    (hdeep' : ¬ ReportsRecursion ((execute line).run (after (.fresh s) lines).invalidateAll).1) :
    ((execute line).run (after (.fresh s) lines)).1 =
        ((execute line).run (after (.fresh s) lines).invalidateAll).1 ∧
      ((execute line).run (after (.fresh s) lines)).2.invalidateAll =
        ((execute line).run (after (.fresh s) lines).invalidateAll).2.invalidateAll := by
  have hreads : ∀ step ∈ steps (.fresh s) (lines ++ [line]), ∀ o, Reads step.1 step.2 o →
      o.CallsWithin {n | Binds (.fresh s) (lines ++ [line]) n} := by
    intro step hstep o ho
    obtain ⟨hrand, hrandint⟩ := hrandom step hstep o ho
    exact ⟨hrand, hrandint, fun n hn => ⟨step, hstep, .inr ⟨o, ho, hn⟩⟩⟩
  have hseparated : ∀ step ∈ steps (.fresh s) (lines ++ [line]),
      step.1.Separated {n | Binds (.fresh s) (lines ++ [line]) n} := by
    intro step hstep
    refine ⟨fun n f hf hn => ?_, fun n f hf r hr hrB => ?_, fun n f hf hbody p hp => ?_⟩
    · exact (hbound n hn step hstep n f hf).1 rfl
    · exact (hbound r hrB step hstep n f hf).2 hr
    · exact ⟨step, hstep, .inl ⟨n, f, hf, hbody, hp⟩⟩
  have htrusted := trusted_after (trusted_fresh s) hreads hseparated
  have hlast := hreads _ (last_mem_steps (.fresh s) lines line)
  have hsame := same_execute htrusted htrusted.disciplined.trusted_invalidateAll
    (Context.invalidateAll_invalidateAll _).symm hlast hdeep hdeep'
  exact ⟨hsame.result, hsame.state⟩

/-- What holds in the steps of a session that defines `f` with the parameter `x` and calls it. -/
def isDoublingStep (step : Context × String) : Bool :=
  step.1.functions.toList.all (fun entry =>
    match entry.2 with
    | .builtin _ => true
    | .user f => entry.1 == "f" && f.params == ["x"] && f.references.toList.isEmpty) &&
  match (Command.ofLine step.2).source? with
  | none => true
  | some source =>
    match Operand.compile step.1.bits step.1.ceiling source with
    | .ok o => o.references.toList.all ["f", "x"].contains
    | .error _ => true

theorem user?_of_isDoublingStep {step : Context × String} (h : isDoublingStep step = true)
    {name : String} {f : UserFunction} (hf : step.1.user? name = some f) :
    name = "f" ∧ f.params = ["x"] ∧ ∀ r, r ∉ f.references := by
  have hmem : (name, .user f) ∈ step.1.functions.toList :=
    Std.ExtTreeMap.mem_toList_iff_getElem?_eq_some.2 (Context.user?_eq_some.1 hf)
  rw [isDoublingStep, Bool.and_eq_true, List.all_eq_true] at h
  have hentry := h.1 _ hmem
  simp only [Bool.and_eq_true, beq_iff_eq, List.isEmpty_iff] at hentry
  refine ⟨hentry.1.1, hentry.1.2, fun r hr => ?_⟩
  rw [← Std.ExtTreeSet.mem_toList, hentry.2] at hr
  cases hr

theorem calls_of_isDoublingStep {step : Context × String} (h : isDoublingStep step = true)
    {o : Operand} (ho : Reads step.1 step.2 o) {name : String} (hcall : o.Calls name) :
    name ∈ ["f", "x"] := by
  obtain ⟨source, hsource, hcompile⟩ := ho
  rw [isDoublingStep, hsource, Bool.and_eq_true] at h
  have hall := h.2
  simp only [hcompile, List.all_eq_true] at hall
  have hmem := Std.ExtTreeSet.mem_toList.2 (Operand.mem_references_of_calls hcall)
  exact List.contains_iff_mem.1 (hall name hmem)

theorem all_isDoublingStep : ∀ step ∈ steps (.fresh .standard) ["f[x]=x*2", "f[3]", "f[3]"],
    isDoublingStep step = true :=
  List.all_eq_true.1 (by decide +kernel)

/-- The second call of a function gives the value that it remembers from the first one. -/
theorem execute_invalidateAll_doubling :
    ((after (.fresh .standard) ["f[x]=x*2", "f[3]"]).user? "f").map (fun f => f.memo.size) =
        some 1 ∧
      ((execute "f[3]").run (after (.fresh .standard) ["f[x]=x*2", "f[3]"])).1 =
        ((execute "f[3]").run (after (.fresh .standard) ["f[x]=x*2", "f[3]"]).invalidateAll).1 ∧
      ((execute "f[3]").run (after (.fresh .standard) ["f[x]=x*2", "f[3]"])).2.invalidateAll =
        ((execute "f[3]").run
          (after (.fresh .standard) ["f[x]=x*2", "f[3]"]).invalidateAll).2.invalidateAll := by
  have hbinds : ∀ n, Binds (.fresh .standard) ["f[x]=x*2", "f[3]", "f[3]"] n → n = "x" := by
    rintro n ⟨step, hstep, ⟨name, f, hf, -, hn⟩ | ⟨o, ho, name, first, last, term, hname, hcall⟩⟩
    · rw [(user?_of_isDoublingStep (all_isDoublingStep step hstep) hf).2.1] at hn
      exact List.mem_singleton.1 hn
    · have hmem := calls_of_isDoublingStep (all_isDoublingStep step hstep) ho ⟨_, hcall⟩
      simp only [List.mem_cons, List.not_mem_nil, or_false] at hmem
      rcases hmem with rfl | rfl <;> exact absurd hname (by decide)
  refine ⟨by decide +kernel, execute_invalidateAll .standard ["f[x]=x*2", "f[3]"] "f[3]"
    (fun step hstep o ho => ?_) (fun n hn step hstep name f hf => ?_) ?_ ?_⟩
  · have hcalls : ∀ name, o.Calls name → name ∈ ["f", "x"] :=
      fun name => calls_of_isDoublingStep (all_isDoublingStep step hstep) ho
    exact ⟨fun h => absurd (hcalls "rand" h) (by decide),
      fun h => absurd (hcalls "randint" h) (by decide)⟩
  · obtain ⟨hname, -, hreferences⟩ := user?_of_isDoublingStep (all_isDoublingStep step hstep) hf
    rw [hbinds n hn, hname]
    exact ⟨by decide, hreferences "x"⟩
  · decide +kernel
  · decide +kernel

end Session

end Reckoner
