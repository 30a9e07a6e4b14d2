import Reckoner.Operand.Compile
import Reckoner.Proofs.Order.Chain
import Reckoner.Proofs.Outcome

/-!
# Well formed operands

An operand is well formed when its expressions are chains over known symbols and its summations and
products have four arguments of which the first is a variable, at every level of nesting.  What the
compiler returns is well formed (`wellFormed_of_compile`).
-/

namespace Reckoner

/-- Expressions are chains and summations have their shape, at every level. -/
inductive Operand.WellFormed : Operand → Prop where
  | numeral (value : Number) (text : String) : WellFormed (.numeral value text)
  | var (name : String) : WellFormed (.var name)
  | expression {tokens : List (Token Operand)} (order : Token.Chain .joined tokens)
      (known : ∀ t ∈ tokens, t.IsKnown) (parts : ∀ o, .operand o ∈ tokens → WellFormed o) :
      WellFormed (.expression tokens)
  | call {name : String} {args : List Operand}
      (shape : Reserved.isReduction name = true → checkReduction name args = .ok ())
      (parts : ∀ arg ∈ args, WellFormed arg) : WellFormed (.call name args)

namespace Operand

/-- Four arguments, the first of them a variable. -/
theorem checkReduction_eq_ok_iff (name : String) (args : List Operand) :
    checkReduction name args = .ok () ↔
      ∃ counter first last term, args = [.var counter, first, last, term] := by
  constructor
  · intro h
    unfold checkReduction at h
    split at h
    · exact ⟨_, _, _, _, rfl⟩
    · cases h
    · cases h
  · rintro ⟨counter, first, last, term, rfl⟩
    rfl

/-! ## Tokens -/

/-- A known token whose operand, if it has one, has a property. -/
def TokenHas (P : Operand → Prop) (t : Token Operand) : Prop :=
  t.IsKnown ∧ ∀ o, t = .operand o → P o

section Tokens

variable {P : Operand → Prop} (hnumeral : ∀ value text, P (.numeral value text))
  (hvar : ∀ name, P (.var name))

theorem isKnown_of_operatorOf {text : String} {op : Operator} (h : operatorOf text = .ok op) :
    Fragment.isOperator op.symbol = true := by
  unfold operatorOf at h
  split at h
  · split at h
    · next hc => cases h; exact hc
    · cases h
  · cases h

theorem isKnown_of_grouperOf {text : String} {g : Grouper} (h : grouperOf text = .ok g) :
    Fragment.isGrouper g.symbol = true := by
  unfold grouperOf at h
  split at h
  · split at h
    · next hc => cases h; exact hc
    · cases h
  · cases h

theorem eq_numeral_of_ofNumeral {w : Nat} {text : String} {o : Operand}
    (h : ofNumeral w text = .ok o) : ∃ value, o = .numeral value text := by
  obtain ⟨value, _, rfl⟩ := map_eq_ok_iff.1 h
  exact ⟨value, rfl⟩

theorem eq_var_of_ofName {text : String} {o : Operand} (h : ofName text = .ok o) :
    o = .var text := by
  unfold ofName at h
  split at h
  · cases h; rfl
  · cases h

include hnumeral hvar in
theorem tokenHas_of_plainToken {w : Nat} {f : Fragment} {t : Token Operand}
    (h : plainToken w f = .ok t) : TokenHas P t := by
  unfold plainToken at h
  split at h
  · obtain ⟨o, ho, rfl⟩ := map_eq_ok_iff.1 h
    obtain ⟨value, rfl⟩ := eq_numeral_of_ofNumeral ho
    exact ⟨trivial, fun o' ho' => by cases ho'; exact hnumeral value _⟩
  · obtain ⟨o, ho, rfl⟩ := map_eq_ok_iff.1 h
    obtain rfl := eq_var_of_ofName ho
    exact ⟨trivial, fun o' ho' => by cases ho'; exact hvar _⟩
  · obtain ⟨op, hop, rfl⟩ := map_eq_ok_iff.1 h
    exact ⟨isKnown_of_operatorOf hop, fun o' ho' => by cases ho'⟩
  · obtain ⟨g, hg, rfl⟩ := map_eq_ok_iff.1 h
    exact ⟨isKnown_of_grouperOf hg, fun o' ho' => by cases ho'⟩
  · cases h
  · cases h

include hnumeral hvar in
/-- The tokens of fragments are known, and their operands have a property that numerals, variables
and compiled calls have. -/
theorem tokenHas_of_tokensOf {w : Nat} {call : String → Except Fault Operand}
    (hcall : ∀ text o, call text = .ok o → P o) {fs : List Fragment} {calls : List String}
    {ts : List (Token Operand)} (h : tokensOf w call fs calls = .ok ts) :
    ∀ t ∈ ts, TokenHas P t := by
  induction fs generalizing calls ts with
  | nil =>
    cases h
    intro t ht
    cases ht
  | cons f fs ih =>
    unfold tokensOf at h
    split at h
    · next text calls _ =>
      obtain ⟨o, ho, h⟩ := bind_eq_ok_iff.1 h
      obtain ⟨us, hus, h⟩ := bind_eq_ok_iff.1 h
      cases h
      intro t ht
      rcases List.mem_cons.1 ht with rfl | ht
      · exact ⟨trivial, fun o' ho' => by cases ho'; exact hcall text o ho⟩
      · exact ih hus t ht
    · obtain ⟨u, hu, h⟩ := bind_eq_ok_iff.1 h
      obtain ⟨us, hus, h⟩ := bind_eq_ok_iff.1 h
      cases h
      intro t ht
      rcases List.mem_cons.1 ht with rfl | ht
      · exact tokenHas_of_plainToken hnumeral hvar hu
      · exact ih hus t ht

end Tokens

/-! ## Compiled sources -/

/-- What a call compiles to: a name and compiled arguments, with the shape that it needs. -/
theorem ofCallWith_eq_ok {argument : String → Except Fault Operand} {text : String} {o : Operand}
    (h : ofCallWith argument text = .ok o) :
    ∃ name inner args, splitCall? text.toList = some (name, inner) ∧
      (Fragment.splitArguments inner).mapM (fun part =>
        if part.isEmpty then .error (.compile (.notCall text))
        else argument (String.ofList part)) = .ok args ∧
      (Reserved.isReduction (String.ofList name) = true →
        checkReduction (String.ofList name) args = .ok ()) ∧
      o = .call (String.ofList name) args := by
  unfold ofCallWith at h
  split at h
  · cases h
  · next name inner hsplit =>
    obtain ⟨args, hargs, h⟩ := bind_eq_ok_iff.1 h
    refine ⟨name, inner, args, hsplit, hargs, ?_⟩
    dsimp only at h
    split at h
    · split at h
      · cases h
      · next hcheck =>
        cases h
        exact ⟨fun _ => hcheck, rfl⟩
    · next hred =>
      cases h
      exact ⟨fun hc => absurd hc hred, rfl⟩

theorem wellFormed_of_ofCallWith {argument : String → Except Fault Operand}
    (harg : ∀ text o, argument text = .ok o → o.WellFormed) {text : String} {o : Operand}
    (h : ofCallWith argument text = .ok o) : o.WellFormed := by
  obtain ⟨name, inner, args, _, hargs, hshape, rfl⟩ := ofCallWith_eq_ok h
  refine .call hshape fun arg harg' => ?_
  obtain ⟨part, _, hpart⟩ := exists_of_mem_results hargs harg'
  split at hpart
  · cases hpart
  · exact harg _ _ hpart

theorem wellFormed_of_ofSourceWith {w : Nat} {call : String → Except Fault Operand}
    (hcall : ∀ text o, call text = .ok o → o.WellFormed) {source : String} {o : Operand}
    (h : ofSourceWith w call source = .ok o) : o.WellFormed := by
  unfold ofSourceWith at h
  obtain ⟨lexed, _, h⟩ := bind_eq_ok_iff.1 h
  obtain ⟨tokens, htokens, h⟩ := bind_eq_ok_iff.1 h
  have hhas := tokenHas_of_tokensOf .numeral .var hcall htokens
  split at h
  · cases h
    exact (hhas _ (by simp)).2 _ rfl
  · cases h
  · split at h
    · cases h
    · next horder =>
      cases h
      exact .expression ((Token.checkOrder_eq_ok_iff _ _).1 horder) (fun t ht => (hhas t ht).1)
        (fun o ho => (hhas _ ho).2 o rfl)

/-- **Compiled operands.** What the compiler returns is well formed. -/
theorem wellFormed_of_compile {w depth : Nat} {source : String} {o : Operand}
    (h : compile w depth source = .ok o) : o.WellFormed := by
  induction depth generalizing source o with
  | zero => exact wellFormed_of_ofSourceWith (fun _ _ h => by cases h) h
  | succ depth ih =>
    exact wellFormed_of_ofSourceWith (fun _ _ => wellFormed_of_ofCallWith fun _ _ => ih) h

end Operand

end Reckoner
