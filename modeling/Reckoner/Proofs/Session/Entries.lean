import Reckoner.Proofs.Grammar.Compile
import Reckoner.Proofs.Session.Dependents

/-!
# Lines that give a base case

1. A line is a base case of a function only if its arguments and its value are numerals
   (`Session.isEntry_of_ofLine`), so both have values at every width.
2. In a context where the function can have as many arguments, the line succeeds and makes the
   function one with an entry more (`Session.leads_baseCase`).
-/

namespace Reckoner

open Reckoner.Action

theorem Numeral.IsNumeral.numeralValue_eq_ok {text : String} (h : IsNumeral text.toList) (w : Nat) :
    ∃ value, Operand.numeralValue w text = .ok value := by
  unfold Operand.numeralValue
  rw [if_pos ((Numeral.isNumeral_iff _).2 h)]
  exact h.ofNumeral_eq_ok w

theorem exists_mapM_numeralValue {texts : List String}
    (h : ∀ text ∈ texts, Numeral.IsNumeral text.toList) (w : Nat) :
    ∃ args, texts.mapM (Operand.numeralValue w) = .ok args ∧ args.length = texts.length := by
  induction texts with
  | nil => exact ⟨[], rfl, rfl⟩
  | cons text texts ih =>
    obtain ⟨htext, htexts⟩ := List.forall_mem_cons.1 h
    obtain ⟨arg, harg⟩ := htext.numeralValue_eq_ok w
    obtain ⟨args, hargs, hlength⟩ := ih htexts
    refine ⟨arg :: args, ?_, by simp [hlength]⟩
    rw [List.mapM_cons, harg, ok_bind, hargs, ok_bind]
    rfl

/-! ## The text of a base case -/

/-- The text of a call with arguments. -/
def callSource (name : String) (texts : List String) : String :=
  String.ofList (name.toList ++ '[' :: ([','].intercalate (texts.map String.toList) ++ [']']))

/-- The texts of a base case. -/
structure IsEntry (name : String) (texts : List String) (text : String) : Prop where
  isName : Text.isName name.toList = true
  args : ∀ text ∈ texts, Numeral.IsNumeral text.toList
  value : Numeral.IsNumeral text.toList
  size : (callSource name texts).utf8ByteSize ≤ Lexed.maxLength

namespace Definition

theorem eq_of_splitBracketed? {cs name inner right : List Char}
    (h : splitBracketed? cs = some (name, inner, right)) :
    Text.isName name = true ∧ right ≠ [] ∧ cs = name ++ '[' :: (inner ++ ']' :: '=' :: right) := by
  unfold splitBracketed? at h
  dsimp only at h
  split at h
  · next c tail hdrop =>
    split at h
    · next c' right' hdrop' =>
      split at h
      · next hcond =>
        cases h
        have hc : c = '[' := by
          have hhead := List.head?_dropWhile_not (fun c => c != '[') cs
          rw [hdrop] at hhead
          simpa using hhead
        have hc' : c' = ']' := by
          have hhead := List.head?_dropWhile_not (fun c => c != ']') tail
          rw [hdrop'] at hhead
          simpa using hhead
        subst hc hc'
        rw [Bool.and_eq_true, Bool.not_eq_true', List.isEmpty_eq_false_iff] at hcond
        refine ⟨hcond.1, hcond.2, ?_⟩
        rw [← hdrop', List.takeWhile_append_dropWhile, ← hdrop, List.takeWhile_append_dropWhile]
      · cases h
    · cases h
  · cases h

theorem isEntry_of_baseCase? {cs : List Char} {name text : String} {texts : List String}
    (hsize : Grammar.bytes cs ≤ Lexed.maxLength)
    (h : baseCase? cs = some (.baseCase name texts text)) : IsEntry name texts text := by
  unfold baseCase? at h
  split at h
  · next name' inner right hsplit =>
    dsimp only at h
    split at h
    · next hcond =>
      cases h
      obtain ⟨hname, -, rfl⟩ := eq_of_splitBracketed? hsplit
      simp only [Bool.and_eq_true, List.all_eq_true, Numeral.isNumeral_iff] at hcond
      have hcall : callSource (String.ofList name')
          ((Fragment.splitArguments inner).map String.ofList) =
          String.ofList (name' ++ '[' :: (inner ++ [']'])) := by
        have hmap : (Fragment.splitArguments inner).map (String.toList ∘ String.ofList) =
            Fragment.splitArguments inner := by
          rw [show String.toList ∘ String.ofList = id from funext fun _ => String.toList_ofList,
            List.map_id]
        rw [callSource, String.toList_ofList, List.map_map, hmap,
          Grammar.intercalate_splitArguments]
      refine ⟨by rwa [String.toList_ofList], ?_, by rw [String.toList_ofList]; exact hcond.2, ?_⟩
      · intro text htext
        obtain ⟨part, hpart, rfl⟩ := List.mem_map.1 htext
        rw [String.toList_ofList]
        exact hcond.1.2 part hpart
      · have hbytes : name' ++ '[' :: (inner ++ ']' :: '=' :: right) =
            (name' ++ '[' :: (inner ++ [']'])) ++ '=' :: right := by simp
        rw [hbytes, Grammar.bytes_append] at hsize
        rw [hcall]
        exact (Nat.le_add_right _ _).trans hsize
    · cases h
  · cases h

theorem isEntry_of_ofChars? {cs : List Char} {name text : String} {texts : List String}
    (hsize : Grammar.bytes cs ≤ Lexed.maxLength)
    (h : ofChars? cs = some (.baseCase name texts text)) : IsEntry name texts text := by
  unfold ofChars? at h
  rcases Option.or_eq_some_iff.1 h with h | ⟨-, h⟩
  · unfold function? at h
    split at h
    · dsimp only at h
      split at h <;> cases h
    · cases h
  · rcases Option.or_eq_some_iff.1 h with h | ⟨-, h⟩
    · exact isEntry_of_baseCase? hsize h
    · obtain ⟨parts, -, h⟩ := Option.map_eq_some_iff.1 h
      cases h

end Definition

namespace Session

/-- A line that is a base case is short enough, and its arguments and value are numerals. -/
theorem isEntry_of_ofLine {line name text : String} {texts : List String}
    (h : Command.ofLine line = .define (.baseCase name texts text)) : IsEntry name texts text := by
  unfold Command.ofLine at h
  split at h
  · cases h
  · cases h
  · split at h <;> cases h
  · split at h <;> cases h
  · unfold Command.ofStripped at h
    dsimp only at h
    split at h
    · cases h
    · next hsize =>
      split at h
      · cases h
      · split at h
        · cases h
        · split at h
          · cases h
          · split at h
            · next definition hdefinition =>
              cases h
              exact Definition.isEntry_of_ofChars? (Nat.not_lt.1 hsize) hdefinition
            · cases h

end Session

/-! ## Functions with base cases -/

/-- The context with a user function of a name, in which what depends on the name is forgotten. -/
def Context.installed (c : Context) (name : String) (f : UserFunction) : Context :=
  (c.setFunction name (.user f)).invalidate name

namespace Session

/-- A line is answered without a fault and leaves a context. -/
def Leads (c : Context) (line : String) (d : Context) : Prop :=
  Succeeds c line ∧ ((execute line).run c).2 = d

theorem succeeds_of_perform {c : Context} {line output : String}
    (h : ((perform (.ofLine line)).run c).1 = .ok output) : Succeeds c line := by
  refine ⟨⟨output, none, Command.ofLine line = .exit⟩, ?_, rfl⟩
  rw [run_execute, h]
  rfl

theorem leads_of_perform {c d : Context} {line output : String}
    (h : (perform (.ofLine line)).run c = (.ok output, d)) : Leads c line d := by
  refine ⟨succeeds_of_perform (congrArg Prod.fst h), ?_⟩
  rw [run_execute, h]

/-- The function of a name after it was given a base case. -/
def withEntry (former : Option UserFunction) (args : List Number) (value : Number) : UserFunction :=
  ((baseCaseHost former args.length).putBaseCase args value).forget

theorem run_defineBaseCase {c : Context} {name text : String} {texts : List String}
    {args : List Number} {value : Number} (hfree : isReservedFunction name = false)
    (hargs : texts.mapM (Operand.numeralValue c.bits) = .ok args)
    (hvalue : Operand.numeralValue c.bits text = .ok value)
    (harity : ∀ f, c.user? name = some f → f.arity = args.length) :
    ∃ output, (defineBaseCase name texts text).run c =
      (.ok output, c.installed name (withEntry (c.user? name) args value)) := by
  have hhost : (baseCaseHost (c.user? name) args.length).arity = args.length := by
    cases hf : c.user? name with
    | none => simp [baseCaseHost, UserFunction.define, UserFunction.arity]
    | some f => exact harity f hf
  unfold defineBaseCase
  rw [if_neg (Bool.eq_false_iff.1 hfree), run_context_bind, hargs, run_ofExcept_ok_bind, hvalue,
    run_ofExcept_ok_bind]
  dsimp only
  rw [if_neg (not_not.2 hhost)]
  exact ⟨_, rfl⟩

theorem run_defineFunction {c : Context} {name source : String} {params : List String}
    {body : Operand} (hfree : isReservedFunction name = false)
    (hchecked : checkParams c name [] params = .ok ())
    (hbody : Operand.compile c.bits c.ceiling source = .ok body) :
    ∃ output, (defineFunction name params source).run c =
      (.ok output, c.installed name (redefine (c.user? name) params body)) := by
  unfold defineFunction
  rw [if_neg (Bool.eq_false_iff.1 hfree), run_context_bind, hchecked]
  dsimp only
  rw [run_compile_bind, hbody]
  exact ⟨_, rfl⟩

end Session

end Reckoner
