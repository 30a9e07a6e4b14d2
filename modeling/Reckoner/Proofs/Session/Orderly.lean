import Mathlib.Data.List.Nodup
import Std.Data.String.ToNat
import Reckoner.Proofs.Memory.Growth
import Reckoner.Proofs.Operand.Occurs
import Reckoner.Proofs.Session.Steps

/-!
# Orderly functions

`UserFunction.Orderly`: the parameters of a function differ from each other and from all reserved
names, its references are the names in its body apart from them, and its tables have keys of its
arity, each in one of them only.  Evaluation keeps a function orderly, and so do definitions whose
parameters pass the check (`Session.orderly_redefine`) and base cases of the right arity
(`UserFunction.Orderly.putBaseCase`), the ones of a function without a body included
(`Session.orderly_baseCaseHost`).
-/

namespace Reckoner

open Session (isReservedFunction)

/-! ## The invariant -/

theorem Reserved.isConstant_iff {name : String} : Reserved.isConstant name = true ↔
    name = "i" ∨ name = "pi" ∨ name = "e" ∨ name = "ans" := by
  simp [Reserved.isConstant, Reserved.constants]

/-- No constant, no command and no function that is built in has the name. -/
def Reserved.IsFree (name : String) : Prop :=
  Reserved.isConstant name = false ∧ isReservedFunction name = false

/-- The invariant of a function that the user defined. -/
structure UserFunction.Orderly (f : UserFunction) : Prop where
  distinct : f.params.Nodup
  free : ∀ param ∈ f.params, Reserved.IsFree param
  references : ∀ n, n ∈ f.references ↔
    ∃ body, f.body = some body ∧ (Operand.Occurs (.var n) body ∨ body.Calls n) ∧ n ∉ f.params
  baseCases : ∀ args value, f.baseCases.find? args = some value → args.length = f.arity
  memo : ∀ args value, f.memo.find? args = some value →
    args.length = f.arity ∧ f.baseCases.find? args = none
  bodiless : f.body = none → f.memo = .empty

namespace UserFunction

variable {f g : UserFunction}

theorem mem_references_iff_occurs (f : UserFunction) (n : String) : n ∈ f.references ↔
    ∃ body, f.body = some body ∧ (Operand.Occurs (.var n) body ∨ body.Calls n) ∧ n ∉ f.params := by
  simp only [mem_references, Operand.mem_references_iff]

theorem orderly_of_memo_eq_empty (hmemo : f.memo = .empty) (hdistinct : f.params.Nodup)
    (hfree : ∀ param ∈ f.params, Reserved.IsFree param)
    (hbaseCases : ∀ args value, f.baseCases.find? args = some value → args.length = f.arity) :
    f.Orderly where
  distinct := hdistinct
  free := hfree
  references := f.mem_references_iff_occurs
  baseCases := hbaseCases
  memo args value h := by
    rw [hmemo, Table.find?_empty] at h
    cases h
  bodiless _ := hmemo

namespace Orderly

theorem forget (h : f.Orderly) : f.forget.Orderly :=
  orderly_of_memo_eq_empty rfl h.distinct h.free h.baseCases

theorem grows (h : f.Orderly) (hfg : f.Grows g) : g.Orderly where
  distinct := hfg.params ▸ h.distinct
  free := hfg.params ▸ h.free
  references := g.mem_references_iff_occurs
  baseCases args value hargs := by
    rw [hfg.baseCases] at hargs
    rw [arity, hfg.params]
    exact h.baseCases args value hargs
  memo args value hargs := by
    rw [arity, hfg.params, hfg.baseCases]
    rcases hfg.gained args value hargs with hold | ⟨hlength, hbase, -⟩
    · exact h.memo args value hold
    · exact ⟨hlength, hbase⟩
  bodiless hbody := by
    rw [hfg.body] at hbody
    refine Table.eq_empty_of_find? fun args value hargs => ?_
    rcases hfg.gained args value hargs with hold | ⟨-, -, hsome⟩
    · rw [h.bodiless hbody, Table.find?_empty] at hold
      cases hold
    · exact hsome hbody

theorem putBaseCase (h : f.Orderly) {args : List Number} (hlength : f.arity = args.length)
    (value : Number) : (f.putBaseCase args value).forget.Orderly := by
  refine orderly_of_memo_eq_empty rfl h.distinct h.free fun key other hkey => ?_
  rw [show (f.putBaseCase args value).forget.baseCases = f.baseCases.put args value from rfl,
    Table.find?_put] at hkey
  split at hkey
  · next heq => exact heq ▸ hlength.symm
  · exact h.baseCases key other hkey

end Orderly

end UserFunction

/-! ## Definitions -/

namespace Session

theorem orderly_redefine {former : Option UserFunction} (hformer : ∀ f ∈ former, f.Orderly)
    {params : List String} (hdistinct : params.Nodup)
    (hfree : ∀ param ∈ params, Reserved.IsFree param) (body : Operand) :
    (redefine former params body).Orderly := by
  have hnew : (UserFunction.define params (some body)).Orderly :=
    UserFunction.orderly_of_memo_eq_empty rfl hdistinct hfree fun args value h => by
      rw [show (UserFunction.define params (some body)).baseCases = .empty from rfl,
        Table.find?_empty] at h
      cases h
  cases former with
  | none => exact hnew
  | some f =>
    unfold redefine
    dsimp only
    split
    · next harity =>
      refine UserFunction.orderly_of_memo_eq_empty rfl hdistinct hfree fun args value h => ?_
      -- the base cases come from the former function alone
      have hbase : (Table.empty.adopt f.baseCases).find? args = some value := h
      rw [Table.find?_adopt, Table.find?_empty, Option.or_none] at hbase
      exact (hformer f rfl).baseCases args value hbase |>.trans harity
    · exact hnew

theorem slot_injective : Function.Injective Builtin.slot := by
  intro i j h
  rw [Builtin.slot, Builtin.slot, String.append_right_inj] at h
  exact Nat.repr_inj.1 h

theorem contains_eq_false_of_underscore {names : List String} {name : String}
    (hnames : names.all (fun n => n.toList.head? != some '_') = true)
    (h : name.toList.head? = some '_') : names.contains name = false := by
  rw [Bool.eq_false_iff]
  intro hmem
  have hne := List.all_eq_true.1 hnames name (List.contains_iff_mem.1 hmem)
  rw [h] at hne
  cases hne

/-- No reserved name starts with an underscore. -/
theorem isFree_slot (i : Nat) : Reserved.IsFree (Builtin.slot i) := by
  have hhead : (Builtin.slot i).toList.head? = some '_' := by
    rw [Builtin.slot, String.toList_append]
    rfl
  have hbuiltin : Builtin.isName (Builtin.slot i) = false := by
    rw [Bool.eq_false_iff]
    intro h
    obtain ⟨b, hb⟩ := Builtin.exists_name_eq h
    have hmem : (Builtin.all.map Builtin.name).contains (Builtin.slot i) = true :=
      List.contains_iff_mem.2 (List.mem_map.2 ⟨b, b.mem_all, hb⟩)
    rw [contains_eq_false_of_underscore (by decide) hhead] at hmem
    cases hmem
  have hcommand : Reserved.isCommand (Builtin.slot i) = false :=
    contains_eq_false_of_underscore (by decide) hhead
  refine ⟨contains_eq_false_of_underscore (by decide) hhead, ?_⟩
  rw [isReservedFunction, hbuiltin, hcommand]
  rfl

theorem orderly_baseCaseHost {former : Option UserFunction} (hformer : ∀ f ∈ former, f.Orderly)
    (count : Nat) : (baseCaseHost former count).Orderly := by
  cases former with
  | some f => exact hformer f rfl
  | none =>
    refine UserFunction.orderly_of_memo_eq_empty rfl ?_ ?_ ?_
    · exact List.Nodup.map slot_injective List.nodup_range
    · intro param hparam
      obtain ⟨i, -, rfl⟩ := List.mem_map.1 hparam
      exact isFree_slot i
    · intro args value h
      exact absurd h (by simp [baseCaseHost, UserFunction.define])

theorem nodup_of_checkParams {c : Context} {function : String} {seen params : List String}
    (h : checkParams c function seen params = .ok ()) :
    params.Nodup ∧ ∀ param ∈ params, param ∉ seen ∧ c.isTaken param = false := by
  induction params generalizing seen with
  | nil => exact ⟨List.nodup_nil, fun _ hparam => absurd hparam List.not_mem_nil⟩
  | cons param params ih =>
    unfold checkParams at h
    split at h
    · cases h
    · next htaken =>
      split at h
      · cases h
      · next hseen =>
        obtain ⟨hnodup, hrest⟩ := ih h
        refine ⟨List.nodup_cons.2 ⟨fun hmem => ?_, hnodup⟩, fun p hp => ?_⟩
        · exact (hrest param hmem).1 List.mem_cons_self
        · rcases List.mem_cons.1 hp with rfl | hp
          · exact ⟨fun hmem => hseen (List.contains_iff_mem.2 hmem), Bool.eq_false_iff.2 htaken⟩
          · exact ⟨fun hmem => (hrest p hp).1 (List.mem_cons_of_mem _ hmem), (hrest p hp).2⟩

end Session

end Reckoner
