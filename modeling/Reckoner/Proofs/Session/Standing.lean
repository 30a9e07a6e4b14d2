import Reckoner.Proofs.Session.Entries
import Reckoner.Proofs.Session.Invariant

/-!
# Base cases stay in force

1. `Context.Standing c name key value`: the function of a name has a base case.  A command keeps it
   unless it disturbs it: it gives the function another value there, another number of parameters,
   or none (`Session.Effect.standing`).
2. A call with numerals that read as the arguments of the base case gives its value
   (`Session.evaluate_standing`).
3. The arguments are read when the base case is given and again when the function is called.  If
   they read as the same numbers, the value is found (`Session.base_case_stays_in_force`); at
   another precision they may not (`Session.base_case_is_missed_at_another_precision`).
-/

namespace Reckoner

open Reckoner.Action

/-! ## What keeps a base case -/

/-- The function of a name has a value at some arguments as a base case. -/
def Context.Standing (c : Context) (name : String) (key : List Number) (value : Number) : Prop :=
  ∃ f, c.user? name = some f ∧ f.arity = key.length ∧ f.baseCases.find? key = some value

namespace Context.Standing

variable {c d : Context} {name : String} {key : List Number} {value : Number}

theorem grows (h : c.Standing name key value) (hgrows : c.Grows d) : d.Standing name key value := by
  obtain ⟨f, hf, harity, hkey⟩ := h
  obtain ⟨g, hg, hfg⟩ := hgrows.exists_user? hf
  refine ⟨g, hg, ?_, ?_⟩
  · rw [UserFunction.arity, hfg.params]
    exact harity
  · rw [hfg.baseCases]
    exact hkey

theorem sheds (h : c.Standing name key value) (hsheds : c.Sheds d) : d.Standing name key value := by
  obtain ⟨f, hf, harity, hkey⟩ := h
  rw [user?_eq_some] at hf
  rcases hsheds name with hname | hname
  · exact ⟨f, user?_eq_some.2 (hname.trans hf), harity, hkey⟩
  · refine ⟨f.forget, user?_eq_some.2 ?_, harity, hkey⟩
    rw [hname, hf]
    rfl

theorem invalidate (h : c.Standing name key value) (other : String) :
    (c.invalidate other).Standing name key value :=
  h.sheds (c.sheds_invalidate other)

theorem setVariable (h : c.Standing name key value) (other : String) (new : Number) :
    (c.setVariable other new).Standing name key value := h

theorem eraseVariable (h : c.Standing name key value) (other : String) :
    (c.eraseVariable other).Standing name key value := h

theorem setPrecision (h : c.Standing name key value) (p : Precision) :
    (c.setPrecision p).Standing name key value := by
  have hconstants : (c.rescale p).Standing name key value := h
  exact hconstants.sheds (sheds_invalidateAll _)

theorem of_function?_eq (h : c.Standing name key value)
    (hfunction : d.function? name = c.function? name) : d.Standing name key value := by
  obtain ⟨f, hf, hrest⟩ := h
  exact ⟨f, user?_eq_some.2 (hfunction.trans (user?_eq_some.1 hf)), hrest⟩

end Context.Standing

theorem Context.standing_setFunction (c : Context) (name : String) {f : UserFunction}
    {key : List Number} {value : Number} (harity : f.arity = key.length)
    (hkey : f.baseCases.find? key = some value) :
    (c.setFunction name (.user f)).Standing name key value := by
  refine ⟨f, user?_eq_some.2 ?_, harity, hkey⟩
  rw [function?_setFunction, if_pos rfl]

/-- The command defines the function of a name with another number of parameters, gives it a base
case at the same arguments, deletes it, or resets everything. -/
def Command.Disturbs (c : Context) (name : String) (key : List Number) : Command → Prop
  | .define (.function other params _) => other = name ∧ params.length ≠ key.length
  | .define (.baseCase other texts _) =>
    other = name ∧ texts.mapM (Operand.numeralValue c.bits) = .ok key
  | .delete other => other = name ∧ c.hasVariable name = false
  | .reset => True
  | _ => False

namespace Session

variable {c d : Context} {name : String} {key : List Number} {value : Number}

theorem standing_redefine (h : c.Standing name key value) {params : List String}
    (hlength : params.length = key.length) (body : Operand) :
    (c.setFunction name (.user (redefine (c.user? name) params body))).Standing name key value := by
  obtain ⟨f, hf, harity, hkey⟩ := h
  rw [hf]
  have hsame : f.arity = (UserFunction.define params (some body)).arity :=
    harity.trans hlength.symm
  unfold redefine
  dsimp only
  rw [if_pos hsame]
  refine c.standing_setFunction name hlength ?_
  show (Table.empty.adopt f.baseCases).find? key = some value
  rw [Table.find?_adopt, hkey, Option.some_or]

theorem standing_putBaseCase (h : c.Standing name key value) {args : List Number}
    (hargs : args ≠ key) (new : Number) :
    (c.setFunction name (.user
      ((baseCaseHost (c.user? name) args.length).putBaseCase args new).forget)).Standing
        name key value := by
  obtain ⟨f, hf, harity, hkey⟩ := h
  rw [hf]
  refine c.standing_setFunction name harity ?_
  show (f.baseCases.put args new).find? key = some value
  rw [Table.find?_put, if_neg hargs, hkey]

/-- What a command does keeps a base case, unless the command succeeds and disturbs it. -/
theorem Effect.standing {command : Command} {result : Except Fault String}
    (heffect : Effect c command result d) (h : c.Standing name key value)
    (hkeeps : (∃ output, result = .ok output) → ¬ command.Disturbs c name key) :
    d.Standing name key value := by
  cases heffect with
  | failure hgrows => exact h.grows hgrows
  | quiet hquiet => exact h
  | @function other _ _ params body hfree hchecked hbody =>
    refine Context.Standing.invalidate ?_ _
    by_cases hname : other = name
    · subst hname
      refine standing_redefine h ?_ body
      by_contra hlength
      exact hkeeps ⟨_, rfl⟩ ⟨rfl, hlength⟩
    · refine h.of_function?_eq ?_
      rw [Context.function?_setFunction, if_neg hname]
  | @baseCase other _ _ texts args new hfree harity hread hvalue =>
    refine Context.Standing.invalidate ?_ _
    by_cases hname : other = name
    · subst hname
      refine standing_putBaseCase h ?_ new
      rintro rfl
      exact hkeeps ⟨_, rfl⟩ ⟨rfl, hread⟩
    · refine h.of_function?_eq ?_
      rw [Context.function?_setFunction, if_neg hname]
  | var hconstant hcommand hgrows =>
    exact ((((h.grows hgrows).setVariable _ _).invalidate _).setVariable _ _).invalidate _
  | value hgrows => exact ((h.grows hgrows).setVariable _ _).invalidate _
  | eraseVariable hconstant => exact (h.eraseVariable _).invalidate _
  | @eraseFunction other _ hbuiltin hvariable =>
    refine Context.Standing.invalidate (h.of_function?_eq ?_) _
    rw [Context.function?_eraseFunction, if_neg]
    rintro rfl
    exact hkeeps ⟨_, rfl⟩ ⟨rfl, hvariable⟩
  | precision p => exact h.setPrecision p
  | reset => exact absurd trivial (hkeeps ⟨_, rfl⟩)

theorem standing_execute {line : String} (h : c.Standing name key value)
    (hkeeps : Succeeds c line → ¬ (Command.ofLine line).Disturbs c name key) :
    ((execute line).run c).2.Standing name key value := by
  rw [run_execute]
  refine (effect_perform c (.ofLine line)).standing h fun ⟨output, houtput⟩ => ?_
  exact hkeeps (succeeds_of_perform houtput)

/-- A base case stays through lines of which none disturbs it. -/
theorem standing_after {lines : List String} (h : c.Standing name key value)
    (hkeeps : ∀ step ∈ steps c lines, Succeeds step.1 step.2 →
      ¬ (Command.ofLine step.2).Disturbs step.1 name key) :
    (after c lines).Standing name key value := by
  induction lines generalizing c with
  | nil => exact h
  | cons line lines ih =>
    obtain ⟨hline, hlines⟩ := List.forall_mem_cons.1 hkeeps
    exact ih (standing_execute h hline) hlines

end Session

/-! ## Calling a function at its base case -/

namespace Grammar

theorem compile_numeral {w depth : Nat} {text : String} {value : Number}
    (h : Numeral.IsNumeral text.toList) (hsize : text.utf8ByteSize ≤ Lexed.maxLength)
    (hvalue : Operand.numeralValue w text = .ok value) :
    Operand.compile w depth text = .ok (.numeral value text) := by
  have hword : (Word.numeral text.toList).compile w (Operand.ofCall w depth) =
      .ok (.numeral value text) := by
    rw [Word.compile, String.ofList_toList, Operand.ofNumeral, hvalue]
    rfl
  have hbytes : bytes (Word.numeral text.toList).chars ≤ Lexed.maxLength := by
    rwa [Word.chars, bytes_toList]
  have hsource := ofSourceWith_word (L := fun _ => False) (fun _ hcall => hcall.elim)
    (.numeral text.toList) h hword hbytes
  rwa [Word.chars, String.ofList_toList, ← Operand.compile_eq] at hsource

theorem compile_numerals {w : Nat} (depth : Nat) {texts : List String} {key : List Number}
    (h : ∀ text ∈ texts, Numeral.IsNumeral text.toList)
    (hsize : ∀ text ∈ texts, text.utf8ByteSize ≤ Lexed.maxLength)
    (hkey : List.Forall₂ (fun text arg => Operand.numeralValue w text = .ok arg) texts key) :
    List.Forall₂ (fun part o => part ≠ [] ∧ Operand.compile w depth (String.ofList part) = .ok o)
      (texts.map String.toList) (List.zipWith .numeral key texts) := by
  induction hkey with
  | nil => exact .nil
  | @cons text arg texts key harg _ ih =>
    obtain ⟨htext, htexts⟩ := List.forall_mem_cons.1 h
    obtain ⟨hsize, hsizes⟩ := List.forall_mem_cons.1 hsize
    refine .cons ⟨?_, ?_⟩ (ih htexts hsizes)
    · rintro hnil
      rw [hnil] at htext
      exact absurd ((Numeral.isNumeral_iff []).2 htext) (by decide)
    · rw [String.ofList_toList]
      exact compile_numeral htext hsize harg

/-- A call with numerals as arguments is compiled to a call of operands with their values. -/
theorem compile_callSource {w : Nat} (depth : Nat) {name text : String} {texts : List String}
    {key : List Number} (h : IsEntry name texts text) (hname : Reserved.isReduction name = false)
    (hkey : texts.mapM (Operand.numeralValue w) = .ok key) :
    Operand.compile w (depth + 1) (callSource name texts) =
      .ok (.call name (List.zipWith .numeral key texts)) := by
  have hbalanced : ∀ part ∈ texts.map String.toList, Balanced false part := by
    intro part hpart
    obtain ⟨text, htext, rfl⟩ := List.mem_map.1 hpart
    exact .of_plain (plain_of_isNumeral (h.args text htext)) false
  have hsize : ∀ text ∈ texts, text.utf8ByteSize ≤ Lexed.maxLength := by
    intro text htext
    have hpart := bytes_le_intercalate (List.mem_map_of_mem (f := String.toList) htext)
    have hcall :
        bytes (name.toList ++ '[' :: ([','].intercalate (texts.map String.toList) ++ [']'])) ≤
          Lexed.maxLength := h.size
    rw [bytes_append, ← List.singleton_append, bytes_append, bytes_append] at hcall
    rw [← bytes_toList]
    omega
  have hargs := compile_numerals depth h.args hsize (mapM_eq_ok_iff.1 hkey)
  have hcall : Operand.ofCallWith (Operand.compile w depth) (callSource name texts) =
      .ok (.call name (List.zipWith .numeral key texts)) := by
    have hsplit : Fragment.splitArguments ([','].intercalate (texts.map String.toList)) =
        texts.map String.toList :=
      splitArguments_intercalate fun part hpart =>
        ⟨hbalanced part hpart, forall_of_forall₂ hargs (fun _ _ hpart => hpart.1) part hpart⟩
    unfold Operand.ofCallWith callSource
    rw [String.toList_ofList, splitCall?_of_isName h.isName]
    dsimp only
    rw [hsplit, mapM_arguments_eq_ok_iff.2 hargs, ok_bind, String.ofList_toList, hname]
    rfl
  have hword : (Word.call (callSource name texts).toList).compile w
      (Operand.ofCallWith (Operand.compile w depth)) =
        .ok (.call name (List.zipWith .numeral key texts)) := by
    rw [Word.compile, String.ofList_toList, hcall]
  have hshaped : CallShaped (callSource name texts).toList :=
    ⟨name.toList, _, h.isName, balanced_intercalate hbalanced, String.toList_ofList⟩
  have hbytes : bytes (Word.call (callSource name texts).toList).chars ≤ Lexed.maxLength := by
    rw [Word.chars, bytes_toList]
    exact h.size
  have hsource := ofSourceWith_word (L := CallShaped) (fun _ hcs => hcs)
    (.call (callSource name texts).toList) hshaped hword hbytes
  rwa [Word.chars, String.ofList_toList] at hsource

end Grammar

namespace Evaluation

theorem evalAt_numeral (levels : Nat) (value : Number) (text : String) :
    evalAt levels (.numeral value text) = pure value := by
  cases levels <;> simp only [evalAt, evalOperand]

theorem mapM_evalAt_numerals (levels : Nat) {key : List Number} {texts : List String}
    (h : key.length = texts.length) :
    (List.zipWith .numeral key texts).mapM (evalAt levels) = pure key := by
  induction key generalizing texts with
  | nil => simp
  | cons arg key ih =>
    cases texts with
    | nil => cases h
    | cons text texts =>
      rw [List.zipWith_cons_cons, List.mapM_cons, evalAt_numeral, ih (Nat.succ.inj h), pure_bind,
        pure_bind]

end Evaluation

namespace Session

open Evaluation

variable {c d : Context} {name : String} {key : List Number} {value : Number}

theorem isReduction_eq_false (h : isReservedFunction name = false) :
    Reserved.isReduction name = false := by
  rw [Bool.eq_false_iff] at h ⊢
  intro hreduction
  simp only [Reserved.isReduction, Reserved.reductions, List.contains_iff_mem, List.mem_cons,
    List.not_mem_nil, or_false] at hreduction
  rcases hreduction with rfl | rfl
  · exact h (by decide)
  · exact h (by decide)

/-- A call at a base case gives its value and changes nothing. -/
theorem run_evaluate_standing (h : c.Standing name key value)
    (hname : Reserved.isReduction name = false) (hdepth : c.depth < c.ceiling)
    {texts : List String} (hlength : key.length = texts.length) :
    (Operand.call name (List.zipWith .numeral key texts)).evaluate.run c = (.ok value, c) := by
  obtain ⟨f, hf, harity, hkey⟩ := h
  have henter : c.enter = .ok { c with depth := c.depth + 1 } :=
    (c.enter_eq_ok_iff _).2 ⟨hdepth, rfl⟩
  have hcall : ∀ levels, (evalCall (evalAt levels) name (List.zipWith .numeral key texts)).run
      { c with depth := c.depth + 1 } = (.ok value, { c with depth := c.depth + 1 }) := by
    intro levels
    have hfunction : ({ c with depth := c.depth + 1 } : Context).function? name = some (.user f) :=
      Context.user?_eq_some.1 hf
    unfold evalCall
    rw [hname, if_neg Bool.false_ne_true, run_context_bind, Context.hasFunction_eq, hfunction,
      Option.isSome_some, if_pos rfl, mapM_evalAt_numerals levels hlength, pure_bind]
    unfold callFunction
    rw [run_context_bind, hfunction]
    dsimp only
    unfold callUser
    rw [if_neg (not_not.2 harity.symm), hkey]
    rfl
  rw [run_evaluate_call henter, hcall, Context.leave_of_enter henter]

/-! ## Sessions -/

/-- A line that succeeds gives the function of a name a value at some arguments as a base case. -/
structure GivesBaseCase (c : Context) (line name : String) (texts : List String)
    (key : List Number) (value : Number) : Prop where
  command : ∃ text, Command.ofLine line = .define (.baseCase name texts text) ∧
    Operand.numeralValue c.bits text = .ok value
  args : texts.mapM (Operand.numeralValue c.bits) = .ok key
  succeeds : Succeeds c line

theorem GivesBaseCase.standing {line : String} {texts : List String}
    (h : GivesBaseCase c line name texts key value) :
    isReservedFunction name = false ∧ ((execute line).run c).2.Standing name key value := by
  obtain ⟨⟨text, hcommand, hvalue⟩, hargs, reply, hreply, hkind⟩ := h
  rcases effect_execute hreply with ⟨-, output, heffect⟩ | ⟨hsome, -⟩
  · rw [hcommand] at heffect
    generalize ((execute line).run c).2 = d at heffect ⊢
    cases heffect with
    | quiet hquiet => cases hquiet
    | baseCase hfree harity hread hreadValue =>
      rw [hargs] at hread
      rw [hvalue] at hreadValue
      cases hread
      cases hreadValue
      have hset := c.standing_setFunction name
        (f := ((baseCaseHost (c.user? name) key.length).putBaseCase key value).forget) harity
        (Table.find?_put_self _ key value)
      exact ⟨hfree, hset.invalidate name⟩
  · exact absurd hkind hsome

theorem orderly_after {s : Settings} (h : c.Orderly s) (lines : List String) :
    (after c lines).Orderly s := by
  refine after_induction (fun c line hc => ?_) h lines
  rw [run_execute]
  exact (effect_perform c _).orderly hc

/-- **Base cases stay in force.** A line of a session gives a function a base case, and no later
line that succeeds gives it another one at the same arguments, another number of parameters, deletes
it or resets the session.  If the arguments then still read as the same numbers, the call with them
evaluates to the value of the base case. -/
theorem base_case_stays_in_force (s : Settings) (hceiling : 1 ≤ s.ceiling)
    (past later : List String) (line name : String) (texts : List String) (key : List Number)
    (value : Number) (hline : GivesBaseCase (after (.fresh s) past) line name texts key value)
    (hlater : ∀ step ∈ steps (after (.fresh s) (past ++ [line])) later, Succeeds step.1 step.2 →
      ¬ (Command.ofLine step.2).Disturbs step.1 name key)
    (hread : texts.mapM (Operand.numeralValue (after (.fresh s) (past ++ line :: later)).bits) =
      .ok key) :
    let d := after (.fresh s) (past ++ line :: later)
    ∃ o, Operand.compile d.bits d.ceiling (callSource name texts) = .ok o ∧
      o.evaluate.run d = (.ok value, d) := by
  intro d
  obtain ⟨hfree, hstanding⟩ := hline.standing
  have hname := isReduction_eq_false hfree
  have hd : d.Standing name key value := by
    have hsplit : after (.fresh s) (past ++ [line]) =
        ((execute line).run (after (.fresh s) past)).2 := by
      rw [after, List.foldl_append]
      rfl
    rw [hsplit] at hlater
    have hafter : d = after ((execute line).run (after (.fresh s) past)).2 later := by
      show after (.fresh s) (past ++ line :: later) = _
      rw [after, List.foldl_append]
      rfl
    rw [hafter]
    exact standing_after hstanding hlater
  have horderly : d.Orderly s := orderly_after (Context.orderly_fresh s) _
  obtain ⟨depth, hdepth⟩ : ∃ depth, d.ceiling = depth + 1 :=
    ⟨s.ceiling - 1, by rw [horderly.ceiling]; omega⟩
  obtain ⟨text, hcommand, -⟩ := hline.command
  refine ⟨.call name (List.zipWith .numeral key texts), ?_,
    run_evaluate_standing hd hname ?_ ?_⟩
  · rw [hdepth]
    exact Grammar.compile_callSource depth (isEntry_of_ofLine hcommand) hname hread
  · rw [horderly.depth, horderly.ceiling]
    omega
  · exact (mapM_eq_ok_iff.1 hread).length_eq.symm

/-- A half reads as the same number at every precision, so its base case is found after a new
definition, a change of precision, a variable of the same name and an evaluation. -/
theorem base_case_stays_in_force_at_half :
    ∃ value, Operand.numeralValue (Context.fresh .standard).bits "0.1" = .ok value ∧
      let d := after (.fresh .standard)
        ["f[0.5]=0.1", "f[n]=n*f[n-1]", "precision 10", "f=3", "f[1.5]"]
      d.precision.shown = 10 ∧
        ∃ o, Operand.compile d.bits d.ceiling "f[0.5]" = .ok o ∧
          o.evaluate.run d = (.ok value, d) := by
  have hline : Command.ofLine "f[0.5]=0.1" = .define (.baseCase "f" ["0.5"] "0.1") := by
    decide +kernel
  have hentry := isEntry_of_ofLine hline
  obtain ⟨value, hvalue⟩ := hentry.value.numeralValue_eq_ok (Context.fresh .standard).bits
  have hargs : ∃ half, ["0.5"].mapM (Operand.numeralValue (Context.fresh .standard).bits) =
      .ok half ∧ half.length = 1 ∧ ["0.5"].mapM (Operand.numeralValue (after (.fresh .standard)
        ["f[0.5]=0.1", "f[n]=n*f[n-1]", "precision 10", "f=3", "f[1.5]"]).bits) = .ok half := by
    refine ⟨[.ofReal (.ofIntWithPrec 1 1)], ?_⟩
    decide +kernel
  obtain ⟨half, hhalf, hlength, hread⟩ := hargs
  have hreply : ((execute "f[0.5]=0.1").run (.fresh .standard)).1 =
      .ok (.ofOutput "f[_0] (base cases only)\n    f[0.5] = 0.1") := by decide +kernel
  have hsource : callSource "f" ["0.5"] = "f[0.5]" := by decide +kernel
  have hkeeps : ∀ step ∈ steps (after (.fresh .standard) ["f[0.5]=0.1"])
      ["f[n]=n*f[n-1]", "precision 10", "f=3", "f[1.5]"],
      ¬ (Command.ofLine step.2).Disturbs step.1 "f" half := by
    intro ⟨c, line⟩ hstep
    have hmem : line ∈ ["f[n]=n*f[n-1]", "precision 10", "f=3", "f[1.5]"] := mem_of_mem_steps hstep
    simp only [List.mem_cons, List.not_mem_nil, or_false] at hmem
    clear hstep
    rcases hmem with rfl | rfl | rfl | rfl
    · rw [show Command.ofLine "f[n]=n*f[n-1]" = .define (.function "f" ["n"] "n*f[n-1]") by
        decide +kernel]
      exact fun hdisturbs => hdisturbs.2 hlength.symm
    · rw [show Command.ofLine "precision 10" = .setPrecision "10" by decide +kernel]
      exact id
    · rw [show Command.ofLine "f=3" = .define (.var "f" "3") by decide +kernel]
      exact id
    · rw [show Command.ofLine "f[1.5]" = .evaluate "f[1.5]" by decide +kernel]
      exact id
  have hall := base_case_stays_in_force .standard (by decide) []
    ["f[n]=n*f[n-1]", "precision 10", "f=3", "f[1.5]"] "f[0.5]=0.1" "f" ["0.5"] half value
    ⟨⟨"0.1", hline, hvalue⟩, hhalf, _, hreply, rfl⟩ (fun step hstep _ => hkeeps step hstep) hread
  rw [hsource, List.nil_append] at hall
  exact ⟨value, hvalue, by decide +kernel, hall⟩

/-- **Another precision.** A tenth is read at the working precision.  After a change of precision it
is another number, so a call with the same text misses the base case. -/
theorem base_case_is_missed_at_another_precision :
    (∃ key value, GivesBaseCase (.fresh .standard) "f[0.1]=5" "f" ["0.1"] key value ∧
      ∀ step ∈ steps (after (.fresh .standard) ["f[0.1]=5"]) ["precision 10"],
        ¬ (Command.ofLine step.2).Disturbs step.1 "f" key) ∧
    ((execute "f[0.1]").run (after (.fresh .standard) ["f[0.1]=5", "precision 10"])).1 =
      .ok ⟨"Eval error: function \"f\" has no definition for [0.1]", some .eval, false⟩ := by
  have hline : Command.ofLine "f[0.1]=5" = .define (.baseCase "f" ["0.1"] "5") := by
    decide +kernel
  have hentry := isEntry_of_ofLine hline
  obtain ⟨key, hkey, -⟩ := exists_mapM_numeralValue hentry.args (Context.fresh .standard).bits
  obtain ⟨value, hvalue⟩ := hentry.value.numeralValue_eq_ok (Context.fresh .standard).bits
  have hreply : ((execute "f[0.1]=5").run (.fresh .standard)).1 =
      .ok (.ofOutput "f[_0] (base cases only)\n    f[0.1] = 5") := by decide +kernel
  refine ⟨⟨key, value, ⟨⟨"5", hline, hvalue⟩, hkey, _, hreply, rfl⟩, fun step hstep => ?_⟩,
    by decide +kernel⟩
  obtain rfl := List.mem_singleton.1 hstep
  rw [show Command.ofLine "precision 10" = .setPrecision "10" by decide +kernel]
  exact id

end Session

end Reckoner
