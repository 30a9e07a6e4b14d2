import Mathlib.Data.Set.Defs
import Mathlib.Tactic.Common
import Reckoner.Function.User
import Reckoner.Text

/-!
# Parts and references of operands

`Operand.Occurs` says that an operand is a part of another one.  The references of an operand are
those of its parts (`mem_references_expression`, `mem_references_call`), which are the variables and
the calls that occur in it (`mem_references_iff`).  Those of a function are the ones of its body
without the parameters (`UserFunction.mem_references`).
-/

namespace Reckoner

namespace Operand

/-- Induction over the tokens of expressions and the arguments of calls. -/
@[elab_as_elim]
theorem induction {P : Operand → Prop} (numeral : ∀ value text, P (.numeral value text))
    (var : ∀ name, P (.var name))
    (expression : ∀ tokens, (∀ o, .operand o ∈ tokens → P o) → P (.expression tokens))
    (call : ∀ name args, (∀ arg ∈ args, P arg) → P (.call name args)) : ∀ o, P o
  | .numeral value text => numeral value text
  | .var name => var name
  | .expression tokens =>
    expression tokens fun o _ => induction numeral var expression call o
  | .call name args => call name args fun arg _ => induction numeral var expression call arg
termination_by o => sizeOf o
decreasing_by
  · next h =>
    have hlt := List.sizeOf_lt_of_mem h
    simp only [Token.operand.sizeOf_spec] at hlt
    simp only [Reckoner.Operand.expression.sizeOf_spec]
    omega
  · next h =>
    have hlt := List.sizeOf_lt_of_mem h
    simp only [Reckoner.Operand.call.sizeOf_spec]
    omega

/-- An operand is a part of another one, or is that one itself. -/
inductive Occurs (part : Operand) : Operand → Prop where
  | self : Occurs part part
  | token {tokens : List (Token Operand)} {o : Operand} (member : .operand o ∈ tokens)
      (inside : Occurs part o) : Occurs part (.expression tokens)
  | argument {name : String} {args : List Operand} {arg : Operand} (member : arg ∈ args)
      (inside : Occurs part arg) : Occurs part (.call name args)

theorem Occurs.trans {first second third : Operand} (h : Occurs first second)
    (h' : Occurs second third) : Occurs first third := by
  induction h' with
  | self => exact h
  | token member _ ih => exact .token member ih
  | argument member _ ih => exact .argument member ih

def Calls (o : Operand) (name : String) : Prop := ∃ args, Occurs (.call name args) o

@[simp] theorem not_calls_numeral (value : Number) (text n : String) :
    ¬ (numeral value text).Calls n := by
  rintro ⟨args, h⟩
  cases h

@[simp] theorem not_calls_var (name n : String) : ¬ (var name).Calls n := by
  rintro ⟨args, h⟩
  cases h

@[simp] theorem calls_expression {tokens : List (Token Operand)} {n : String} :
    (expression tokens).Calls n ↔ ∃ o, .operand o ∈ tokens ∧ o.Calls n := by
  constructor
  · rintro ⟨args, h⟩
    cases h with
    | token member inside => exact ⟨_, member, args, inside⟩
  · rintro ⟨o, ho, args, h⟩
    exact ⟨args, .token ho h⟩

@[simp] theorem calls_call {name n : String} {args : List Operand} :
    (call name args).Calls n ↔ n = name ∨ ∃ arg ∈ args, arg.Calls n := by
  constructor
  · rintro ⟨args', h⟩
    cases h with
    | self => exact .inl rfl
    | argument member inside => exact .inr ⟨_, member, args', inside⟩
  · rintro (rfl | ⟨arg, harg, args', h⟩)
    · exact ⟨args, .self⟩
    · exact ⟨args', .argument harg h⟩

theorem ne_of_not_calls {name n : String} {args : List Operand}
    (h : ¬ (call name args).Calls n) : name ≠ n := by
  rintro rfl
  exact h ⟨args, .self⟩

/-- An operand has a summation or product that counts with a name. -/
def CountsWith (o : Operand) (counter : String) : Prop :=
  ∃ name first last term, Reserved.isReduction name ∧
    Occurs (.call name [.var counter, first, last, term]) o

/-- An operand calls no random function and counts with names of a set only. -/
structure CallsWithin (B : Set String) (o : Operand) : Prop where
  rand : ¬ o.Calls "rand"
  randint : ¬ o.Calls "randint"
  counters : ∀ n, o.CountsWith n → n ∈ B

theorem CallsWithin.of_occurs {B : Set String} {part o : Operand} (h : o.CallsWithin B)
    (hpart : ∀ other : Operand, Occurs other part → Occurs other o) : part.CallsWithin B where
  rand := fun ⟨args, hargs⟩ => h.rand ⟨args, hpart _ hargs⟩
  randint := fun ⟨args, hargs⟩ => h.randint ⟨args, hpart _ hargs⟩
  counters := fun n ⟨name, first, last, term, hname, ho⟩ =>
    h.counters n ⟨name, first, last, term, hname, hpart _ ho⟩

theorem CallsWithin.token {B : Set String} {tokens : List (Token Operand)}
    (h : (expression tokens).CallsWithin B) {o : Operand} (ho : .operand o ∈ tokens) :
    o.CallsWithin B :=
  h.of_occurs fun _ => .token ho

theorem CallsWithin.argument {B : Set String} {name : String} {args : List Operand}
    (h : (call name args).CallsWithin B) {arg : Operand} (harg : arg ∈ args) :
    arg.CallsWithin B :=
  h.of_occurs fun _ => .argument harg

/-! ## References -/

theorem mem_tokensReferences {n : String} {tokens : List (Token Operand)} :
    n ∈ tokensReferences tokens ↔ ∃ o, .operand o ∈ tokens ∧ n ∈ o.references := by
  induction tokens with
  | nil => simp [tokensReferences]
  | cons t tokens ih =>
    cases t with
    | operand o => simp [tokensReferences, ih, or_and_right, exists_or]
    | operator op => simp [tokensReferences, ih]
    | grouper g => simp [tokensReferences, ih]

theorem mem_argumentsReferences {n : String} {args : List Operand} :
    n ∈ argumentsReferences args ↔ ∃ arg ∈ args, n ∈ arg.references := by
  induction args with
  | nil => simp [argumentsReferences]
  | cons arg args ih => simp [argumentsReferences, ih]

theorem mem_references_var {n name : String} : n ∈ (var name).references ↔ n = name := by
  have hmem : n ∈ (var name).references ↔ name = n := by
    simp [references, Singleton.singleton, Std.ExtTreeSet.mem_insert]
  rw [hmem, eq_comm]

theorem mem_references_expression {n : String} {tokens : List (Token Operand)} :
    n ∈ (expression tokens).references ↔ ∃ o, .operand o ∈ tokens ∧ n ∈ o.references := by
  rw [references, mem_tokensReferences]

theorem mem_references_call {n name : String} {args : List Operand} :
    n ∈ (call name args).references ↔ n = name ∨ ∃ arg ∈ args, n ∈ arg.references := by
  rw [references, Std.ExtTreeSet.mem_insert, Std.LawfulEqCmp.compare_eq_iff_eq,
    mem_argumentsReferences, eq_comm]

theorem mem_references_of_occurs {n : String} {part o : Operand} (h : Occurs part o)
    (hn : n ∈ part.references) : n ∈ o.references := by
  induction h with
  | self => exact hn
  | token member _ ih => exact mem_references_expression.2 ⟨_, member, ih⟩
  | argument member _ ih => exact mem_references_call.2 (.inr ⟨_, member, ih⟩)

theorem mem_references_of_calls {o : Operand} {name : String} (h : o.Calls name) :
    name ∈ o.references := by
  obtain ⟨args, h⟩ := h
  exact mem_references_of_occurs h (mem_references_call.2 (.inl rfl))

/-- An operand refers to the variables and the functions that occur in it. -/
theorem mem_references_iff {n : String} {o : Operand} :
    n ∈ o.references ↔ Occurs (.var n) o ∨ o.Calls n := by
  constructor
  · intro hn
    induction o using Operand.induction with
    | numeral value text => simp [references] at hn
    | var name =>
      rw [mem_references_var.1 hn]
      exact .inl .self
    | expression tokens ih =>
      obtain ⟨o, ho, hn⟩ := mem_references_expression.1 hn
      rcases ih o ho hn with h | ⟨args, h⟩
      · exact .inl (.token ho h)
      · exact .inr ⟨args, .token ho h⟩
    | call name args ih =>
      rcases mem_references_call.1 hn with rfl | ⟨arg, harg, hn⟩
      · exact .inr ⟨args, .self⟩
      · rcases ih arg harg hn with h | ⟨args', h⟩
        · exact .inl (.argument harg h)
        · exact .inr ⟨args', .argument harg h⟩
  · rintro (h | h)
    · exact mem_references_of_occurs h (mem_references_var.2 rfl)
    · exact mem_references_of_calls h

end Operand

namespace UserFunction

theorem mem_foldl_erase {n : String} (params : List String) (names : Names) :
    n ∈ params.foldl (fun names param => names.erase param) names ↔ n ∈ names ∧ n ∉ params := by
  induction params generalizing names with
  | nil => simp
  | cons p params ih =>
    rw [List.foldl_cons, ih, Std.ExtTreeSet.mem_erase, List.mem_cons]
    simp
    tauto

theorem mem_references {f : UserFunction} {n : String} :
    n ∈ f.references ↔ ∃ body, f.body = some body ∧ n ∈ body.references ∧ n ∉ f.params := by
  unfold references
  cases f.body with
  | none => simp
  | some body => simp [mem_foldl_erase]

end UserFunction

end Reckoner
