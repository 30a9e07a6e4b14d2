import Reckoner.Proofs.Grammar.Numeral
import Reckoner.Text

/-!
# The language of expressions

1. `Derives` is the grammar of expressions over a set of calls, and `IsCall` that of calls over a
   set of arguments.  `IsExpression` takes them in turn, as often as calls may nest.
2. What is derived has its brackets balanced and no comma outside them (`IsExpression.balanced`).
-/

namespace Reckoner.Grammar

/-- What a text can be derived as. -/
inductive Category where
  | primary
  | signed
  | expression
deriving DecidableEq

/-- Expressions over a set of calls: signed primaries joined by operators. -/
inductive Derives (call : List Char → Prop) : Category → List Char → Prop where
  | numeral {cs : List Char} (h : Numeral.IsNumeral cs) : Derives call .primary cs
  | name {cs : List Char} (h : Text.isName cs = true) : Derives call .primary cs
  | call {cs : List Char} (h : call cs) : Derives call .primary cs
  | group {cs : List Char} (h : Derives call .expression cs) :
      Derives call .primary ('(' :: (cs ++ [')']))
  | plain {cs : List Char} (h : Derives call .primary cs) : Derives call .signed cs
  | sign {c : Char} {cs : List Char} (isSign : c = '-' ∨ c = '+') (h : Derives call .signed cs) :
      Derives call .signed (c :: cs)
  | single {cs : List Char} (h : Derives call .signed cs) : Derives call .expression cs
  | join {c : Char} {cs ds : List Char} (left : Derives call .signed cs)
      (isOperator : Fragment.isOperator c = true) (right : Derives call .expression ds) :
      Derives call .expression (cs ++ c :: ds)

/-- Calls over a set of arguments.  A summation or product has four of them, the first a name. -/
inductive IsCall (argument : List Char → Prop) : List Char → Prop where
  | mk {name : List Char} {args : List (List Char)} (isName : Text.isName name = true)
      (arguments : ∀ arg ∈ args, argument arg)
      (shape : Reserved.isReduction (String.ofList name) = true →
        args.length = 4 ∧ ∀ first ∈ args.head?, Text.isName first = true) :
      IsCall argument (name ++ '[' :: ([','].intercalate args ++ [']']))

/-- Expressions in which calls nest at most `depth` deep. -/
def IsExpression : Nat → List Char → Prop
  | 0 => Derives (fun _ => False) .expression
  | depth + 1 => Derives (IsCall (IsExpression depth)) .expression

/-! ## Balanced texts -/

/-- A character that is neither a bracket nor the placeholder of a call. -/
def isPlain (c : Char) : Bool := c != '[' && c != ']' && c != Fragment.placeholder

/-- Texts whose brackets match; the index says whether commas can stand outside brackets. -/
inductive Balanced : Bool → List Char → Prop where
  | nil (commas : Bool) : Balanced commas []
  | char {commas : Bool} {c : Char} {cs : List Char} (plain : isPlain c = true)
      (comma : c = ',' → commas = true) (rest : Balanced commas cs) : Balanced commas (c :: cs)
  | bracket {commas : Bool} {inner cs : List Char} (inside : Balanced true inner)
      (rest : Balanced commas cs) : Balanced commas ('[' :: (inner ++ ']' :: cs))

theorem Balanced.of_plain {cs : List Char} (h : ∀ c ∈ cs, isPlain c = true ∧ c ≠ ',')
    (commas : Bool) : Balanced commas cs := by
  induction cs with
  | nil => exact .nil commas
  | cons c cs ih =>
    obtain ⟨hplain, hcomma⟩ := h c (by simp)
    exact .char hplain (fun hc => absurd hc hcomma) (ih fun d hd => h d (by simp [hd]))

theorem Balanced.append {commas : Bool} {cs ds : List Char} (hc : Balanced commas cs)
    (hd : Balanced commas ds) : Balanced commas (cs ++ ds) := by
  induction hc with
  | nil _ => exact hd
  | char plain comma _ ih => exact .char plain comma (ih hd)
  | bracket inside _ _ ih =>
    rw [List.cons_append, List.append_assoc, List.cons_append]
    exact .bracket inside (ih hd)

theorem Balanced.with_commas {commas : Bool} {cs : List Char} (h : Balanced commas cs) :
    Balanced true cs := by
  induction h with
  | nil _ => exact .nil true
  | char plain _ _ ih => exact .char plain (fun _ => rfl) ih
  | bracket inside _ _ ih => exact .bracket inside ih

theorem Balanced.placeholder_not_mem {commas : Bool} {cs : List Char} (h : Balanced commas cs) :
    Fragment.placeholder ∉ cs := by
  induction h with
  | nil _ => exact List.not_mem_nil
  | char plain _ _ ih =>
    rw [List.mem_cons, not_or]
    refine ⟨?_, ih⟩
    rintro rfl
    exact absurd plain (by decide)
  | bracket _ _ ihinside ihrest =>
    simp only [List.mem_cons, List.mem_append, not_or]
    exact ⟨by decide, ihinside, by decide, ihrest⟩

theorem balanced_intercalate {args : List (List Char)} (h : ∀ arg ∈ args, Balanced false arg) :
    Balanced true ([','].intercalate args) := by
  induction args with
  | nil => exact .nil true
  | cons arg rest ih =>
    have harg : Balanced true arg := (h arg (by simp)).with_commas
    cases rest with
    | nil => rwa [List.intercalate_singleton]
    | cons next rest =>
      rw [List.intercalate_cons_cons, List.append_assoc]
      have hrest := ih fun a ha => h a (by simp [ha])
      exact harg.append (.char (by decide) (fun _ => rfl) hrest)

/-! ## What is derived is balanced -/

theorem plain_of_isNameChar {c : Char} (h : Text.isNameChar c = true) :
    isPlain c = true ∧ c ≠ ',' := by
  simp only [isPlain, Bool.and_eq_true, bne_iff_ne]
  refine ⟨⟨⟨?_, ?_⟩, ?_⟩, ?_⟩ <;>
  · rintro rfl
    exact absurd h (by decide)

theorem nameChar_of_isName {cs : List Char} (h : Text.isName cs = true) :
    ∀ c ∈ cs, Text.isNameChar c = true := by
  cases cs with
  | nil => cases h
  | cons c cs =>
    rw [Text.isName, Bool.and_eq_true, List.all_eq_true] at h
    intro d hd
    rcases List.mem_cons.1 hd with rfl | hd
    · exact Text.isNameChar_of_isNameStart h.1
    · exact h.2 d hd

theorem plain_of_isNumeral {cs : List Char} (h : Numeral.IsNumeral cs) :
    ∀ c ∈ cs, isPlain c = true ∧ c ≠ ',' := by
  intro c hc
  have hchar := h.decimalChar c hc
  simp only [isPlain, Bool.and_eq_true, bne_iff_ne]
  refine ⟨⟨⟨?_, ?_⟩, ?_⟩, ?_⟩ <;>
  · rintro rfl
    exact absurd hchar (by decide)

theorem plain_of_isOperator {c : Char} (h : Fragment.isOperator c = true) :
    isPlain c = true ∧ c ≠ ',' := by
  rcases symbol_cases (.inl h) with rfl | rfl | rfl | rfl | rfl | rfl | rfl | rfl <;> decide

/-- A call whose arguments are balanced. -/
def CallShaped (cs : List Char) : Prop :=
  ∃ name inner, Text.isName name = true ∧ Balanced true inner ∧ cs = name ++ '[' :: (inner ++ [']'])

theorem CallShaped.balanced {cs : List Char} (h : CallShaped cs) : Balanced false cs := by
  obtain ⟨name, inner, hname, hinner, rfl⟩ := h
  have hplain := fun c hc => plain_of_isNameChar (nameChar_of_isName hname c hc)
  exact (Balanced.of_plain hplain false).append (.bracket hinner (.nil false))

theorem IsCall.callShaped {argument : List Char → Prop} {cs : List Char} (h : IsCall argument cs)
    (hargument : ∀ arg, argument arg → Balanced false arg) : CallShaped cs := by
  obtain ⟨isName, arguments, -⟩ := h
  exact ⟨_, _, isName, balanced_intercalate fun arg harg => hargument arg (arguments arg harg), rfl⟩

theorem Derives.balanced {call : List Char → Prop} (hcall : ∀ cs, call cs → CallShaped cs)
    {k : Category} {cs : List Char} (h : Derives call k cs) : Balanced false cs := by
  induction h with
  | numeral h => exact .of_plain (plain_of_isNumeral h) false
  | name h => exact .of_plain (fun c hc => plain_of_isNameChar (nameChar_of_isName h c hc)) false
  | call h => exact (hcall _ h).balanced
  | group _ ih =>
    refine .char (by decide) (by decide) (ih.append ?_)
    exact .char (by decide) (by decide) (.nil false)
  | plain _ ih => exact ih
  | sign isSign _ ih => rcases isSign with rfl | rfl <;> exact .char (by decide) (by decide) ih
  | single _ ih => exact ih
  | join _ isOperator _ ihleft ihright =>
    obtain ⟨hplain, hcomma⟩ := plain_of_isOperator isOperator
    exact ihleft.append (.char hplain (fun hc => absurd hc hcomma) ihright)

theorem IsExpression.balanced {depth : Nat} {cs : List Char} (h : IsExpression depth cs) :
    Balanced false cs := by
  induction depth generalizing cs with
  | zero => exact Derives.balanced (fun _ h => h.elim) h
  | succ depth ih => exact Derives.balanced (fun _ h => h.callShaped fun _ => ih) h

theorem Derives.ne_nil {call : List Char → Prop} (hcall : ∀ cs, call cs → CallShaped cs)
    {k : Category} {cs : List Char} (h : Derives call k cs) : cs ≠ [] := by
  induction h with
  | numeral h =>
    rintro rfl
    exact absurd ((Numeral.isNumeral_iff []).2 h) (by decide)
  | name h =>
    rintro rfl
    exact absurd h (by decide)
  | call h =>
    obtain ⟨name, inner, -, -, rfl⟩ := hcall _ h
    simp
  | group _ _ => exact List.cons_ne_nil _ _
  | plain _ ih => exact ih
  | sign _ _ _ => exact List.cons_ne_nil _ _
  | single _ ih => exact ih
  | join _ _ _ _ _ => simp

theorem IsExpression.ne_nil {depth : Nat} {cs : List Char} (h : IsExpression depth cs) :
    cs ≠ [] := by
  cases depth with
  | zero => exact Derives.ne_nil (fun _ h => h.elim) h
  | succ depth => exact Derives.ne_nil (fun _ h => h.callShaped fun _ => IsExpression.balanced) h

end Reckoner.Grammar
