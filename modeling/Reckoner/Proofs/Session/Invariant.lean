import Reckoner.Proofs.Memory.Blind
import Reckoner.Proofs.Session.Effect
import Reckoner.Proofs.Session.Orderly

/-!
# What holds all through a session

`Context.Orderly`: no call is open, the constants have their values at the working width, all
functions that are built in are there, and the user's functions are orderly and have names of their
own.

1. Whatever the effect of a command, it keeps a context orderly (`Session.Effect.orderly`), so that
   a session that starts afresh is orderly to its end.
2. An orderly context is reset to a fresh one, apart from the value of `ans`
   (`Context.Orderly.reset_eq`).
-/

namespace Reckoner

open Session (isReservedFunction)

namespace Context

/-- The invariant of the variables: the constants have their values at the working width, and no
command has one. -/
structure KeepsValues (c : Context) : Prop where
  unit : c.valueOf? "i" = some .unit
  pi : c.valueOf? "pi" = some (.ofReal (c.numerics.library.pi c.bits))
  euler : c.valueOf? "e" = some (.ofReal (c.numerics.library.euler c.bits))
  commands : ∀ name, Reserved.isCommand name = true → c.valueOf? name = none

/-- The invariant of the functions: those that are built in are there, and those of the user are
orderly and have no reserved names. -/
structure KeepsFunctions (c : Context) : Prop where
  builtins : ∀ b : Builtin, c.function? b.name = some (.builtin b)
  names : ∀ name f, c.user? name = some f → isReservedFunction name = false
  users : ∀ name f, c.user? name = some f → f.Orderly

/-- The invariant of the contexts of a session with some settings. -/
structure Orderly (s : Settings) (c : Context) : Prop where
  depth : c.depth = 0
  ceiling : c.ceiling = s.ceiling
  library : c.numerics.library = s.library
  digits : c.numerics.digits = c.precision.shown + 8
  ans : (c.valueOf? "ans").isSome
  values : c.KeepsValues
  functions : c.KeepsFunctions

variable {s : Settings} {c d : Context}

/-! ### Variables -/

theorem valueOf?_setConstants (c : Context) (name : String) :
    c.setConstants.valueOf? name =
      if name = "e" then some (.ofReal (c.numerics.library.euler c.bits))
      else if name = "pi" then some (.ofReal (c.numerics.library.pi c.bits))
      else if name = "i" then some .unit
      else c.valueOf? name := by
  unfold setConstants
  simp only [valueOf?_setVariable, eq_comm]

theorem valueOf?_reset (c : Context) (name : String) :
    c.reset.valueOf? name = if Reserved.isConstant name then c.valueOf? name else none := by
  show (c.vars.filter (fun name _ => Reserved.isConstant name))[name]? = _
  rw [Std.ExtTreeMap.getElem?_filter']
  cases h : c.vars[name]? with
  | none => simp [valueOf?, h]
  | some value => simp [valueOf?, h, Option.filter]

theorem valueOf?_fresh (s : Settings) (name : String) :
    (fresh s).valueOf? name =
      if name = "ans" then some 0
      else if name = "e" then some (.ofReal (s.library.euler s.precision.bits))
      else if name = "pi" then some (.ofReal (s.library.pi s.precision.bits))
      else if name = "i" then some .unit
      else none := by
  unfold fresh
  rw [valueOf?_setVariable, valueOf?_setConstants]
  simp only [eq_comm]
  rfl

namespace KeepsValues

/-- The values of constants other than `ans` and of commands stay the same. -/
theorem of_agree (h : c.KeepsValues) (hnumerics : d.numerics = c.numerics)
    (hconstants : ∀ name, Reserved.isConstant name = true → name ≠ "ans" →
      d.valueOf? name = c.valueOf? name)
    (hcommands : ∀ name, Reserved.isCommand name = true → d.valueOf? name = c.valueOf? name) :
    d.KeepsValues := by
  constructor
  · rw [hconstants "i" (by decide) (by decide), h.unit]
  · rw [hconstants "pi" (by decide) (by decide), Context.bits, hnumerics, h.pi, Context.bits]
  · rw [hconstants "e" (by decide) (by decide), Context.bits, hnumerics, h.euler, Context.bits]
  · intro name hname
    rw [hcommands name hname, h.commands name hname]

theorem of_vars_eq (h : c.KeepsValues) (hvars : d.vars = c.vars)
    (hnumerics : d.numerics = c.numerics) : d.KeepsValues := by
  have hvalue : ∀ name, d.valueOf? name = c.valueOf? name := fun name => by
    rw [valueOf?, valueOf?, hvars]
  exact h.of_agree hnumerics (fun name _ _ => hvalue name) fun name _ => hvalue name

/-- A variable may be set that is neither a command nor a constant other than `ans`. -/
theorem setVariable (h : c.KeepsValues) {name : String}
    (hconstant : Reserved.isConstant name = false ∨ name = "ans")
    (hcommand : Reserved.isCommand name = false) (value : Number) :
    (c.setVariable name value).KeepsValues := by
  refine h.of_agree rfl (fun other hother hne => ?_) fun other hother => ?_
  · rw [valueOf?_setVariable, if_neg]
    rintro rfl
    rcases hconstant with hconstant | rfl
    · exact Bool.eq_false_iff.1 hconstant hother
    · exact hne rfl
  · rw [valueOf?_setVariable, if_neg]
    rintro rfl
    exact Bool.eq_false_iff.1 hcommand hother

theorem eraseVariable (h : c.KeepsValues) {name : String}
    (hconstant : Reserved.isConstant name = false) : (c.eraseVariable name).KeepsValues := by
  refine h.of_agree rfl (fun other hother _ => ?_) fun other hother => ?_
  · rw [valueOf?_eraseVariable, if_neg]
    rintro rfl
    exact Bool.eq_false_iff.1 hconstant hother
  · rw [valueOf?_eraseVariable, h.commands other hother, ite_self]

end KeepsValues

/-- The constants may be set where no command has a value. -/
theorem keepsValues_setConstants
    (hcommands : ∀ name, Reserved.isCommand name = true → c.valueOf? name = none) :
    c.setConstants.KeepsValues := by
  constructor
  · rw [valueOf?_setConstants]
    rfl
  · rw [valueOf?_setConstants]
    rfl
  · rw [valueOf?_setConstants]
    rfl
  · intro name hname
    have hne : ∀ constant, Reserved.isCommand constant = false → name ≠ constant := by
      rintro constant hconstant rfl
      exact Bool.eq_false_iff.1 hconstant hname
    rw [valueOf?_setConstants, if_neg (hne _ (by decide)), if_neg (hne _ (by decide)),
      if_neg (hne _ (by decide)), hcommands name hname]

/-! ### Functions -/

namespace KeepsFunctions

theorem of_functions_eq (h : c.KeepsFunctions) (hfunctions : d.functions = c.functions) :
    d.KeepsFunctions := by
  have hfunction : ∀ name, d.function? name = c.function? name := fun name => by
    rw [function?, function?, hfunctions]
  have huser : ∀ name, d.user? name = c.user? name := fun name => by
    rw [user?, user?, hfunction]
  exact ⟨fun b => (hfunction b.name).trans (h.builtins b),
    fun name f hf => h.names name f ((huser name).symm.trans hf),
    fun name f hf => h.users name f ((huser name).symm.trans hf)⟩

/-- The functions change in a way that keeps each of the user's orderly. -/
theorem of_change (h : c.KeepsFunctions)
    (hbuiltin : ∀ (name : String) (b : Builtin), c.function? name = some (.builtin b) →
      d.function? name = some (.builtin b))
    (huser : ∀ name g, d.user? name = some g →
      ∃ f, c.user? name = some f ∧ (f.Orderly → g.Orderly)) :
    d.KeepsFunctions where
  builtins b := hbuiltin b.name b (h.builtins b)
  names name g hg := by
    obtain ⟨f, hf, -⟩ := huser name g hg
    exact h.names name f hf
  users name g hg := by
    obtain ⟨f, hf, horderly⟩ := huser name g hg
    exact horderly (h.users name f hf)

theorem grows (h : c.KeepsFunctions) (hgrows : c.Grows d) : d.KeepsFunctions := by
  refine h.of_change (fun name b => hgrows.function?_builtin) fun name g hg => ?_
  obtain ⟨f, hf, hfg⟩ := hgrows.exists_user?_before hg
  exact ⟨f, hf, fun horderly => horderly.grows hfg⟩

theorem sheds (h : c.KeepsFunctions) (hsheds : c.Sheds d) : d.KeepsFunctions := by
  refine h.of_change (fun name b hb => ?_) fun name g hg => ?_
  · rcases hsheds name with hname | hname
    · rw [hname, hb]
    · rw [hname, hb]
      rfl
  · obtain ⟨f, hf, rfl | rfl⟩ := hsheds.exists_user? hg
    · exact ⟨g, hf, id⟩
    · exact ⟨f, hf, .forget⟩

theorem setFunction (h : c.KeepsFunctions) {name : String} (hname : isReservedFunction name = false)
    {f : UserFunction} (hf : f.Orderly) : (c.setFunction name (.user f)).KeepsFunctions := by
  have hcases : ∀ other g, (c.setFunction name (.user f)).user? other = some g →
      name = other ∧ g = f ∨ c.user? other = some g := by
    intro other g hg
    rw [user?_eq_some, function?_setFunction] at hg
    split at hg
    · next heq =>
      cases hg
      exact .inl ⟨heq, rfl⟩
    · exact .inr (user?_eq_some.2 hg)
  constructor
  · intro b
    rw [function?_setFunction, if_neg, h.builtins b]
    rintro rfl
    rw [isReservedFunction, b.isName_name] at hname
    cases hname
  · intro other g hg
    rcases hcases other g hg with ⟨rfl, -⟩ | hg
    · exact hname
    · exact h.names other g hg
  · intro other g hg
    rcases hcases other g hg with ⟨-, rfl⟩ | hg
    · exact hf
    · exact h.users other g hg

theorem eraseFunction (h : c.KeepsFunctions) {name : String}
    (hname : Builtin.isName name = false) : (c.eraseFunction name).KeepsFunctions := by
  have huser : ∀ other f, (c.eraseFunction name).user? other = some f → c.user? other = some f := by
    intro other f hf
    rw [user?_eq_some, function?_eraseFunction] at hf
    split at hf
    · cases hf
    · exact user?_eq_some.2 hf
  constructor
  · intro b
    rw [function?_eraseFunction, if_neg, h.builtins b]
    rintro rfl
    rw [b.isName_name] at hname
    cases hname
  · exact fun other f hf => h.names other f (huser other f hf)
  · exact fun other f hf => h.users other f (huser other f hf)

end KeepsFunctions

/-! ### Whole contexts -/

theorem orderly_fresh (s : Settings) : (fresh s).Orderly s where
  depth := rfl
  ceiling := rfl
  library := rfl
  digits := rfl
  ans := by
    unfold fresh
    rw [valueOf?_setVariable]
    rfl
  values := by
    have hconstants := keepsValues_setConstants
      (c := ⟨∅, builtins, .start s.library s.precision, s.ceiling, 0, s.chance⟩)
      fun name _ => Std.ExtTreeMap.getElem?_empty
    exact hconstants.setVariable (.inr rfl) (by decide) 0
  functions := by
    have huser : ∀ name f, (fresh s).user? name ≠ some f := by
      intro name f hf
      obtain ⟨b, hb, -⟩ := function?_fresh s (user?_eq_some.1 hf)
      cases hb
    exact ⟨function?_fresh_name s, fun name f hf => absurd hf (huser name f),
      fun name f hf => absurd hf (huser name f)⟩

namespace Orderly

theorem grows (h : c.Orderly s) (hgrows : c.Grows d) : d.Orderly s where
  depth := hgrows.depth.trans h.depth
  ceiling := hgrows.ceiling.trans h.ceiling
  library := hgrows.numerics ▸ h.library
  digits := by
    rw [Context.precision, hgrows.numerics]
    exact h.digits
  ans := by
    rw [hgrows.valueOf?_eq]
    exact h.ans
  values := h.values.of_vars_eq hgrows.vars hgrows.numerics
  functions := h.functions.grows hgrows

theorem setVariable (h : c.Orderly s) {name : String}
    (hconstant : Reserved.isConstant name = false ∨ name = "ans")
    (hcommand : Reserved.isCommand name = false) (value : Number) :
    (c.setVariable name value).Orderly s where
  depth := h.depth
  ceiling := h.ceiling
  library := h.library
  digits := h.digits
  ans := by
    rw [valueOf?_setVariable]
    split
    · rfl
    · exact h.ans
  values := h.values.setVariable hconstant hcommand value
  functions := h.functions.of_functions_eq rfl

theorem eraseVariable (h : c.Orderly s) {name : String}
    (hconstant : Reserved.isConstant name = false) : (c.eraseVariable name).Orderly s where
  depth := h.depth
  ceiling := h.ceiling
  library := h.library
  digits := h.digits
  ans := by
    rw [valueOf?_eraseVariable, if_neg]
    · exact h.ans
    · rintro rfl
      exact absurd hconstant (by decide)
  values := h.values.eraseVariable hconstant
  functions := h.functions.of_functions_eq rfl

/-- The functions may be changed alone. -/
theorem of_functions (h : c.Orderly s) (hvars : d.vars = c.vars)
    (hnumerics : d.numerics = c.numerics) (hceiling : d.ceiling = c.ceiling)
    (hdepth : d.depth = c.depth) (hfunctions : d.KeepsFunctions) : d.Orderly s where
  depth := hdepth.trans h.depth
  ceiling := hceiling.trans h.ceiling
  library := hnumerics ▸ h.library
  digits := by
    rw [Context.precision, hnumerics]
    exact h.digits
  ans := by
    rw [valueOf?, hvars]
    exact h.ans
  values := h.values.of_vars_eq hvars hnumerics
  functions := hfunctions

theorem setFunction (h : c.Orderly s) {name : String}
    (hname : isReservedFunction name = false) {f : UserFunction} (hf : f.Orderly) :
    (c.setFunction name (.user f)).Orderly s :=
  h.of_functions rfl rfl rfl rfl (h.functions.setFunction hname hf)

theorem eraseFunction (h : c.Orderly s) {name : String}
    (hname : Builtin.isName name = false) : (c.eraseFunction name).Orderly s :=
  h.of_functions rfl rfl rfl rfl (h.functions.eraseFunction hname)

theorem invalidate (h : c.Orderly s) (name : String) : (c.invalidate name).Orderly s :=
  h.of_functions rfl rfl rfl rfl (h.functions.sheds (c.sheds_invalidate name))

theorem assign (h : c.Orderly s) {name : String}
    (hconstant : Reserved.isConstant name = false ∨ name = "ans")
    (hcommand : Reserved.isCommand name = false) (value : Number) :
    ((c.setVariable name value).invalidate name).Orderly s :=
  (h.setVariable hconstant hcommand value).invalidate name

theorem invalidateAll (h : c.Orderly s) : c.invalidateAll.Orderly s :=
  h.of_functions rfl rfl rfl rfl (h.functions.sheds c.sheds_invalidateAll)

theorem setPrecision (h : c.Orderly s) (p : Precision) :
    (c.setPrecision p).Orderly s := by
  have hconstants : (c.rescale p).Orderly s := by
    refine ⟨h.depth, h.ceiling, h.library, rfl, ?_, ?_, h.functions.of_functions_eq rfl⟩
    · rw [rescale, valueOf?_setConstants]
      exact h.ans
    · exact keepsValues_setConstants h.values.commands
  exact hconstants.invalidateAll

theorem isFree_of_not_taken (h : c.Orderly s) {name : String}
    (hname : c.isTaken name = false) : Reserved.IsFree name := by
  rw [isTaken, Bool.or_eq_false_iff, Bool.or_eq_false_iff, hasVariable_eq, hasFunction_eq] at hname
  obtain ⟨⟨hvariable, hfunction⟩, hcommand⟩ := hname
  constructor
  · rw [Bool.eq_false_iff, ne_eq, Reserved.isConstant_iff]
    rintro (rfl | rfl | rfl | rfl)
    · rw [h.values.unit] at hvariable
      cases hvariable
    · rw [h.values.pi] at hvariable
      cases hvariable
    · rw [h.values.euler] at hvariable
      cases hvariable
    · exact Bool.eq_false_iff.1 hvariable h.ans
  · rw [isReservedFunction, hcommand, Bool.or_false, Bool.eq_false_iff]
    intro hbuiltin
    obtain ⟨b, rfl⟩ := Builtin.exists_name_eq hbuiltin
    rw [h.functions.builtins] at hfunction
    cases hfunction

/-- A context is reset to a fresh one, apart from the value of `ans`. -/
theorem reset_eq (h : c.Orderly s) {value : Number} (hvalue : c.valueOf? "ans" = some value) :
    c.reset =
      (fresh ⟨s.library, c.precision, s.ceiling, c.chance⟩).setVariable "ans" value := by
  have hnumerics : c.numerics = .start s.library c.precision := by
    rw [← h.library]
    exact congrArg (Numerics.mk _ _) h.digits
  refine ext_of_function? ?_ (fun name => ?_) hnumerics h.ceiling h.depth rfl
  · refine Std.ExtTreeMap.ext_getElem? fun name => ?_
    show c.reset.valueOf? name = Context.valueOf? _ name
    rw [valueOf?_reset, valueOf?_setVariable, valueOf?_fresh]
    by_cases hname : Reserved.isConstant name = true
    · rw [if_pos hname]
      rcases Reserved.isConstant_iff.1 hname with rfl | rfl | rfl | rfl
      · exact h.values.unit
      · rw [h.values.pi, Context.bits, hnumerics]
        rfl
      · rw [h.values.euler, Context.bits, hnumerics]
        rfl
      · exact hvalue
    · have hne : ∀ constant, Reserved.isConstant constant = true → name ≠ constant := by
        rintro constant hconstant rfl
        exact hname hconstant
      rw [if_neg hname, if_neg (hne "ans" (by decide)).symm, if_neg (hne "ans" (by decide)),
        if_neg (hne "e" (by decide)), if_neg (hne "pi" (by decide)), if_neg (hne "i" (by decide))]
  · rw [function?_reset]
    show _ = (fresh ⟨s.library, c.precision, s.ceiling, c.chance⟩).function? name
    split
    · next hname =>
      obtain ⟨b, rfl⟩ := Builtin.exists_name_eq hname
      rw [h.functions.builtins b, function?_fresh_name]
      rfl
    · next hname =>
      rw [eq_comm, Option.eq_none_iff_forall_ne_some]
      intro f hf
      obtain ⟨b, -, rfl⟩ := function?_fresh _ hf
      exact hname b.isName_name

end Orderly

end Context

/-! ## Sessions -/

namespace Session

variable {s : Settings} {c d : Context}

/-- Whatever a command does, it leaves an orderly context. -/
theorem Effect.orderly {command : Command} {result : Except Fault String}
    (h : Effect c command result d) (hc : c.Orderly s) : d.Orderly s := by
  have huser : ∀ name, ∀ f ∈ c.user? name, f.Orderly := fun name f hf =>
    hc.functions.users name f hf
  cases h with
  | failure hgrows => exact hc.grows hgrows
  | quiet hquiet => exact hc
  | function hfree hchecked _ =>
    obtain ⟨hnodup, htaken⟩ := nodup_of_checkParams hchecked
    refine (hc.setFunction hfree ?_).invalidate _
    refine orderly_redefine (huser _) hnodup (fun param hparam => ?_) _
    exact hc.isFree_of_not_taken (htaken param hparam).2
  | baseCase hfree harity =>
    refine (hc.setFunction hfree ?_).invalidate _
    exact (orderly_baseCaseHost (huser _) _).putBaseCase harity _
  | var hconstant hcommand hgrows =>
    exact ((hc.grows hgrows).assign (.inl hconstant) hcommand _).assign (.inr rfl) (by decide) _
  | value hgrows => exact (hc.grows hgrows).assign (.inr rfl) (by decide) _
  | eraseVariable hconstant => exact (hc.eraseVariable hconstant).invalidate _
  | eraseFunction hbuiltin => exact (hc.eraseFunction hbuiltin).invalidate _
  | precision p => exact hc.setPrecision p
  | reset =>
    obtain ⟨value, hvalue⟩ := Option.isSome_iff_exists.1 hc.ans
    rw [hc.reset_eq hvalue]
    have hfresh := Context.orderly_fresh ⟨s.library, c.precision, s.ceiling, c.chance⟩
    have hset := hfresh.setVariable (.inr rfl) (by decide) value
    exact ⟨hset.depth, hset.ceiling, hset.library, hset.digits, hset.ans, hset.values,
      hset.functions⟩

/-- **The invariant of a session.** After any lines of a session that starts afresh the context is
orderly, and the line `reset` then gives a fresh context at the present precision, apart from the
value of `ans`. -/
theorem orderly_after_lines (s : Settings) (lines : List String) :
    (after (.fresh s) lines).Orderly s ∧
      ∃ value, (after (.fresh s) lines).valueOf? "ans" = some value ∧
        after (.fresh s) (lines ++ ["reset"]) =
          (Context.fresh ⟨s.library, (after (.fresh s) lines).precision, s.ceiling,
            (after (.fresh s) lines).chance⟩).setVariable "ans" value := by
  have horderly : (after (.fresh s) lines).Orderly s := by
    refine after_induction (fun c line hc => ?_) (Context.orderly_fresh s) lines
    rw [run_execute]
    exact (effect_perform c _).orderly hc
  obtain ⟨value, hvalue⟩ := Option.isSome_iff_exists.1 horderly.ans
  refine ⟨horderly, value, hvalue, ?_⟩
  have hreset : after (.fresh s) (lines ++ ["reset"]) = (after (.fresh s) lines).reset := by
    rw [after, List.foldl_append]
    show ((execute "reset").run (after (.fresh s) lines)).2 = _
    rw [run_execute, show Command.ofLine "reset" = .reset by decide +kernel]
    rfl
  rw [hreset, horderly.reset_eq hvalue]

end Session

end Reckoner
