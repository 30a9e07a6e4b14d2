import Reckoner.Proofs.Session.Entries

/-!
# Patterns of definitions

A text without blanks is a definition if it matches one of three patterns, in which a word is a name
or a numeral:

1. `name[names]=text`, where the names are separated by commas and there may be none;
2. `name[numerals]=numeral`, with at least one numeral between the brackets;
3. `name=text`.

`Matches` says which parts of a text a pattern captures.  The three tests accept what the patterns
match (`test_eq_some_iff`), a text is captured in at most one way (`Matches.unique`), and none of
the texts that match is an expression (`Matches.compile_ne_ok`).  So it does not matter in which
order the tests are made (`findSome?_test`), or that a text which fails them all is taken for an
expression (`dispatch_is_unambiguous`).
-/

namespace Reckoner

namespace Grammar

/-! ## Equals signs -/

theorem eq_or_mem_of_mem_intercalate {words : List (List Char)} {c : Char}
    (h : c ∈ [','].intercalate words) : c = ',' ∨ ∃ w ∈ words, c ∈ w := by
  induction words with
  | nil => cases h
  | cons w words ih =>
    cases words with
    | nil =>
      rw [List.intercalate_singleton] at h
      exact .inr ⟨w, List.mem_singleton_self w, h⟩
    | cons next words =>
      rw [List.intercalate_cons_cons, List.append_assoc, List.mem_append, List.mem_append,
        List.mem_singleton] at h
      rcases h with h | h | h
      · exact .inr ⟨w, List.mem_cons_self, h⟩
      · exact .inl h
      · obtain hc | ⟨w', hw', hc⟩ := ih h
        · exact .inl hc
        · exact .inr ⟨w', List.mem_cons_of_mem w hw', hc⟩

theorem Derives.equals_not_mem {call : List Char → Prop} (hcall : ∀ cs, call cs → '=' ∉ cs)
    {k : Category} {cs : List Char} (h : Derives call k cs) : '=' ∉ cs := by
  induction h with
  | numeral h => exact fun hmem => absurd (h.decimalChar _ hmem) (by decide)
  | name h => exact fun hmem => absurd (nameChar_of_isName h _ hmem) (by decide)
  | call h => exact hcall _ h
  | group _ ih =>
    simp only [List.mem_cons, List.mem_append, not_or]
    exact ⟨by decide, ih, by decide, List.not_mem_nil⟩
  | plain _ ih => exact ih
  | sign isSign _ ih =>
    rw [List.mem_cons, not_or]
    refine ⟨?_, ih⟩
    rcases isSign with rfl | rfl <;> decide
  | single _ ih => exact ih
  | join _ isOperator _ ihleft ihright =>
    simp only [List.mem_append, List.mem_cons, not_or]
    refine ⟨ihleft, ?_, ihright⟩
    rintro rfl
    exact absurd isOperator (by decide)

theorem IsCall.equals_not_mem {argument : List Char → Prop} {cs : List Char}
    (h : IsCall argument cs) (hargument : ∀ arg, argument arg → '=' ∉ arg) : '=' ∉ cs := by
  obtain ⟨isName, arguments, -⟩ := h
  simp only [List.mem_append, List.mem_cons, not_or]
  refine ⟨fun hmem => absurd (nameChar_of_isName isName _ hmem) (by decide), by decide, ?_,
    by decide⟩
  intro hmem
  obtain hc | ⟨arg, harg, hc⟩ := eq_or_mem_of_mem_intercalate hmem
  · exact absurd hc (by decide)
  · exact hargument arg (arguments arg harg) hc

/-- There is no equals sign in an expression, however its calls nest. -/
theorem IsExpression.equals_not_mem {depth : Nat} {cs : List Char} (h : IsExpression depth cs) :
    '=' ∉ cs := by
  induction depth generalizing cs with
  | zero => exact Derives.equals_not_mem (fun _ h => h.elim) h
  | succ depth ih => exact Derives.equals_not_mem (fun _ h => h.equals_not_mem fun _ => ih) h

end Grammar

namespace Definition

/-! ## The patterns -/

/-- What the groups of a pattern take of a text. -/
inductive Capture where
  | function (name inner right : List Char)
  | baseCase (name inner right : List Char)
  | var (name right : List Char)
deriving DecidableEq

/-- Words of a language with commas between them. -/
def Listed (word : List Char → Prop) (cs : List Char) : Prop :=
  ∃ words : List (List Char), (∀ w ∈ words, word w) ∧ [','].intercalate words = cs

/-- At least one character, and no line breaks. -/
structure IsRun (cs : List Char) : Prop where
  ne_nil : cs ≠ []
  one_line : ∀ c ∈ cs, c ≠ '\n' ∧ c ≠ '\r'

/-- A text matches a pattern, whose groups take the captured parts. -/
inductive Matches : List Char → Capture → Prop where
  | function {name inner right : List Char} (isName : Text.isName name = true)
      (params : Listed (fun w => Text.isName w = true) inner) (body : IsRun right) :
      Matches (name ++ '[' :: (inner ++ ']' :: '=' :: right)) (.function name inner right)
  | baseCase {name inner right : List Char} (isName : Text.isName name = true)
      (args : Listed Numeral.IsNumeral inner) (some_arg : inner ≠ [])
      (value : Numeral.IsNumeral right) :
      Matches (name ++ '[' :: (inner ++ ']' :: '=' :: right)) (.baseCase name inner right)
  | var {name right : List Char} (isName : Text.isName name = true) (value : IsRun right) :
      Matches (name ++ '=' :: right) (.var name right)

/-- The parts of a text between its commas; an empty text has none. -/
def splitCommas (cs : List Char) : List (List Char) := if cs = [] then [] else cs.splitOn ','

namespace Capture

def inner : Capture → List Char
  | .function _ inner _ => inner
  | .baseCase _ inner _ => inner
  | .var _ _ => []

/-- The words that can stand between the brackets. -/
def IsWord : Capture → List Char → Prop
  | .function _ _ _ => fun w => Text.isName w = true
  | .baseCase _ _ _ => Numeral.IsNumeral
  | .var _ _ => fun _ => False

/-- What captured parts define. -/
def definition : Capture → Definition
  | .function name inner right =>
    .function (String.ofList name) ((splitCommas inner).map String.ofList) (String.ofList right)
  | .baseCase name inner right =>
    .baseCase (String.ofList name) ((splitCommas inner).map String.ofList) (String.ofList right)
  | .var name right => .var (String.ofList name) (String.ofList right)

end Capture

/-! ## Words between commas -/

/-- A language whose words can be told apart in a list: they are not empty, and have neither commas
nor brackets. -/
def Separable (word : List Char → Prop) : Prop :=
  ∀ w, word w → w ≠ [] ∧ ∀ c ∈ w, Grammar.isPlain c = true ∧ c ≠ ','

theorem separable_isName : Separable (fun w => Text.isName w = true) := by
  intro w hw
  refine ⟨?_, fun c hc => Grammar.plain_of_isNameChar (Grammar.nameChar_of_isName hw c hc)⟩
  rintro rfl
  cases hw

theorem separable_isNumeral : Separable Numeral.IsNumeral := by
  intro w hw
  refine ⟨?_, Grammar.plain_of_isNumeral hw⟩
  rintro rfl
  exact absurd ((Numeral.isNumeral_iff []).2 hw) (by decide)

section Words

variable {word : List Char → Prop} {words : List (List Char)} {cs : List Char}

theorem Separable.splitArguments_intercalate (hword : Separable word) (h : ∀ w ∈ words, word w) :
    Fragment.splitArguments ([','].intercalate words) = words := by
  refine Grammar.splitArguments_intercalate fun w hw => ?_
  obtain ⟨hne, hplain⟩ := hword w (h w hw)
  exact ⟨.of_plain hplain false, hne⟩

theorem Separable.splitCommas_intercalate (hword : Separable word) (h : ∀ w ∈ words, word w) :
    splitCommas ([','].intercalate words) = words := by
  cases words with
  | nil => rfl
  | cons w words =>
    have hsplit := hword.splitArguments_intercalate h
    have hne : [','].intercalate (w :: words) ≠ [] := by
      intro hnil
      rw [hnil] at hsplit
      cases hsplit
    rw [splitCommas, if_neg hne]
    refine List.splitOn_intercalate ',' (fun w hw hmem => ?_) (List.cons_ne_nil _ _)
    exact ((hword w (h w hw)).2 ',' hmem).2 rfl

/-- The words of a list are the parts between its commas, and nothing else. -/
theorem Separable.listed_iff (hword : Separable word) (h : Listed word cs)
    (words : List (List Char)) :
    ((∀ w ∈ words, word w) ∧ [','].intercalate words = cs) ↔ words = splitCommas cs := by
  constructor
  · rintro ⟨hwords, rfl⟩
    exact (hword.splitCommas_intercalate hwords).symm
  · rintro rfl
    obtain ⟨words, hwords, rfl⟩ := h
    rw [hword.splitCommas_intercalate hwords]
    exact ⟨hwords, rfl⟩

/-- Brackets do not matter in a list of words, as it has none. -/
theorem Separable.splitArguments_eq (hword : Separable word) (h : Listed word cs) :
    Fragment.splitArguments cs = splitCommas cs := by
  obtain ⟨words, hwords, rfl⟩ := h
  rw [hword.splitCommas_intercalate hwords, hword.splitArguments_intercalate hwords]

theorem Separable.bracket_not_mem (hword : Separable word) (h : Listed word cs) : ']' ∉ cs := by
  obtain ⟨words, hwords, rfl⟩ := h
  intro hmem
  obtain hc | ⟨w, hw, hc⟩ := Grammar.eq_or_mem_of_mem_intercalate hmem
  · exact absurd hc (by decide)
  · exact absurd ((hword w (hwords w hw)).2 ']' hc).1 (by decide)

/-- The test for a list of words: all parts between top-level commas are words. -/
theorem Separable.all_splitArguments_iff (hword : Separable word) :
    (∀ w ∈ Fragment.splitArguments cs, word w) ↔ Listed word cs := by
  constructor
  · exact fun h => ⟨_, h, Grammar.intercalate_splitArguments cs⟩
  · intro h
    rw [hword.splitArguments_eq h]
    exact ((hword.listed_iff h _).2 rfl).1

end Words

/-- No list of names is a list of numerals, unless it is empty. -/
theorem eq_nil_of_listed {cs : List Char} (hnames : Listed (fun w => Text.isName w = true) cs)
    (hnumerals : Listed Numeral.IsNumeral cs) : cs = [] := by
  obtain ⟨words, hwords, rfl⟩ := hnames
  have hsplit := separable_isName.splitCommas_intercalate hwords
  have hword := ((separable_isNumeral.listed_iff hnumerals _).2 rfl).1
  rw [hsplit] at hword
  cases words with
  | nil => rfl
  | cons w words =>
    have hname := hwords w List.mem_cons_self
    have hnumeral := (Numeral.isNumeral_iff w).2 (hword w List.mem_cons_self)
    cases w with
    | nil => cases hname
    | cons c w =>
      rw [Text.isName, Bool.and_eq_true] at hname
      rw [Numeral.isNumeral, Bool.and_eq_true,
        Grammar.not_isDigit_of_isNameStart hname.1] at hnumeral
      exact absurd hnumeral.1 Bool.false_ne_true

/-! ## Captures are unique -/

/-- A text is cut in one way only before the first character that fails a test. -/
theorem cut_unique {p : Char → Bool} {xs xs' ys ys' : List Char} {c c' : Char}
    (hxs : ∀ d ∈ xs, p d = true) (hc : p c = false) (hxs' : ∀ d ∈ xs', p d = true)
    (hc' : p c' = false) (h : xs ++ c :: ys = xs' ++ c' :: ys') :
    xs = xs' ∧ c = c' ∧ ys = ys' := by
  have htake : ∀ {xs ys : List Char} {c : Char}, (∀ d ∈ xs, p d = true) → p c = false →
      (xs ++ c :: ys).takeWhile p = xs := by
    intro xs ys c hxs hc
    rw [List.takeWhile_append_of_pos hxs, List.takeWhile_cons, if_neg (by simp [hc]),
      List.append_nil]
  have hsame : xs = xs' := by rw [← htake hxs hc, h, htake hxs' hc']
  subst hsame
  have htail := List.append_cancel_left h
  exact ⟨rfl, (List.cons.inj htail).1, (List.cons.inj htail).2⟩

theorem cut_name {name name' ys ys' : List Char} {c c' : Char}
    (hname : Text.isName name = true) (hc : Text.isNameChar c = false)
    (hname' : Text.isName name' = true) (hc' : Text.isNameChar c' = false)
    (h : name ++ c :: ys = name' ++ c' :: ys') : name = name' ∧ c = c' ∧ ys = ys' :=
  cut_unique (Grammar.nameChar_of_isName hname) hc (Grammar.nameChar_of_isName hname') hc' h

/-- Parts of a text `name[inner]=right` without a closing bracket in `inner` are unique. -/
theorem cut_bracketed {name name' inner inner' right right' : List Char}
    (hname : Text.isName name = true) (hinner : ']' ∉ inner) (hname' : Text.isName name' = true)
    (hinner' : ']' ∉ inner')
    (h : name ++ '[' :: (inner ++ ']' :: '=' :: right) =
      name' ++ '[' :: (inner' ++ ']' :: '=' :: right')) :
    name = name' ∧ inner = inner' ∧ right = right' := by
  have hplain : ∀ {cs : List Char}, ']' ∉ cs → ∀ d ∈ cs, (d != ']') = true := by
    intro cs hcs d hd
    rw [bne_iff_ne]
    rintro rfl
    exact hcs hd
  obtain ⟨hsame, -, htail⟩ := cut_name hname (by decide) hname' (by decide) h
  obtain ⟨hsame', -, htail'⟩ :=
    cut_unique (p := fun d => d != ']') (hplain hinner) rfl (hplain hinner') rfl htail
  exact ⟨hsame, hsame', (List.cons.inj htail').2⟩

theorem bracketed_ne_equation {name name' tail right : List Char}
    (hname : Text.isName name = true) (hname' : Text.isName name' = true) :
    name ++ '[' :: tail ≠ name' ++ '=' :: right := by
  intro h
  exact absurd (cut_name hname (by decide) hname' (by decide) h).2.1 (by decide)

/-- **Captures.** A text matches at most one pattern, and in one way only. -/
theorem Matches.unique {cs : List Char} {m m' : Capture} (h : Matches cs m) (h' : Matches cs m') :
    m = m' := by
  generalize hcs : cs = cs' at h'
  cases h with
  | function hname params _ =>
    have hinner := separable_isName.bracket_not_mem params
    cases h' with
    | function hname' params' _ =>
      obtain ⟨rfl, rfl, rfl⟩ := cut_bracketed hname hinner hname'
        (separable_isName.bracket_not_mem params') hcs
      rfl
    | baseCase hname' args some_arg _ =>
      obtain ⟨rfl, rfl, rfl⟩ := cut_bracketed hname hinner hname'
        (separable_isNumeral.bracket_not_mem args) hcs
      exact absurd (eq_nil_of_listed params args) some_arg
    | var hname' _ => exact absurd hcs (bracketed_ne_equation hname hname')
  | baseCase hname args some_arg _ =>
    have hinner := separable_isNumeral.bracket_not_mem args
    cases h' with
    | function hname' params _ =>
      obtain ⟨rfl, rfl, rfl⟩ := cut_bracketed hname hinner hname'
        (separable_isName.bracket_not_mem params) hcs
      exact absurd (eq_nil_of_listed params args) some_arg
    | baseCase hname' args' _ _ =>
      obtain ⟨rfl, rfl, rfl⟩ := cut_bracketed hname hinner hname'
        (separable_isNumeral.bracket_not_mem args') hcs
      rfl
    | var hname' _ => exact absurd hcs (bracketed_ne_equation hname hname')
  | var hname _ =>
    cases h' with
    | function hname' _ _ => exact absurd hcs.symm (bracketed_ne_equation hname' hname)
    | baseCase hname' _ _ _ => exact absurd hcs.symm (bracketed_ne_equation hname' hname)
    | var hname' _ =>
      obtain ⟨rfl, -, rfl⟩ := cut_name hname (by decide) hname' (by decide) hcs
      rfl

/-! ## The tests -/

theorem splitBracketed?_append {name inner right : List Char} (hname : Text.isName name = true)
    (hinner : ']' ∉ inner) (hright : right ≠ []) :
    splitBracketed? (name ++ '[' :: (inner ++ ']' :: '=' :: right)) =
      some (name, inner, right) := by
  have hopen : ∀ d ∈ name, (d != '[') = true := by
    intro d hd
    have hplain := (Grammar.plain_of_isNameChar (Grammar.nameChar_of_isName hname d hd)).1
    simp only [Grammar.isPlain, Bool.and_eq_true] at hplain
    exact hplain.1.1
  have hclose : ∀ d ∈ inner, (d != ']') = true := by
    intro d hd
    rw [bne_iff_ne]
    rintro rfl
    exact hinner hd
  unfold splitBracketed?
  simp [List.takeWhile_append_of_pos hopen, List.dropWhile_append_of_pos hopen,
    List.takeWhile_append_of_pos hclose, List.dropWhile_append_of_pos hclose, hname, hright]

theorem splitEquation?_append {name right : List Char} (hname : Text.isName name = true)
    (hright : right ≠ []) : splitEquation? (name ++ '=' :: right) = some (name, right) := by
  have hplain : ∀ d ∈ name, (d != '=') = true := by
    intro d hd
    have hchar := Grammar.nameChar_of_isName hname d hd
    rw [bne_iff_ne]
    rintro rfl
    exact absurd hchar (by decide)
  unfold splitEquation?
  simp [List.takeWhile_append_of_pos hplain, List.dropWhile_append_of_pos hplain, hname, hright]

theorem eq_of_splitEquation? {cs name right : List Char}
    (h : splitEquation? cs = some (name, right)) :
    Text.isName name = true ∧ right ≠ [] ∧ cs = name ++ '=' :: right := by
  unfold splitEquation? at h
  dsimp only at h
  split at h
  · next c tail hdrop =>
    split at h
    · next hcond =>
      cases h
      obtain rfl : c = '=' := by
        have hhead := List.head?_dropWhile_not (fun c => c != '=') cs
        rw [hdrop] at hhead
        simpa using hhead
      rw [Bool.and_eq_true, Bool.not_eq_true', List.isEmpty_eq_false_iff] at hcond
      refine ⟨hcond.1, hcond.2, ?_⟩
      rw [← hdrop, List.takeWhile_append_dropWhile]
    · cases h
  · cases h

inductive Form where
  | function
  | baseCase
  | var
deriving DecidableEq

def Form.test : Form → List Char → Option Definition
  | .function => function?
  | .baseCase => baseCase?
  | .var => var?

def Capture.form : Capture → Form
  | .function _ _ _ => .function
  | .baseCase _ _ _ => .baseCase
  | .var _ _ => .var

theorem Matches.test_eq {cs : List Char} {m : Capture} (h : Matches cs m) :
    m.form.test cs = some m.definition := by
  cases h with
  | function hname params body =>
    have hwords := separable_isName.all_splitArguments_iff.2 params
    simp only [Capture.form, Form.test, function?, splitBracketed?_append hname
      (separable_isName.bracket_not_mem params) body.ne_nil]
    rw [if_pos (List.all_eq_true.2 hwords), separable_isName.splitArguments_eq params]
    rfl
  | @baseCase name inner right hname args some_arg value =>
    have hright : right ≠ [] := (separable_isNumeral _ value).1
    have hwords := separable_isNumeral.all_splitArguments_iff.2 args
    have hsome : Fragment.splitArguments inner ≠ [] := by
      intro hnil
      have hinner := Grammar.intercalate_splitArguments inner
      rw [hnil] at hinner
      exact some_arg hinner.symm
    have hcond : (!(Fragment.splitArguments inner).isEmpty &&
        (Fragment.splitArguments inner).all Numeral.isNumeral && Numeral.isNumeral right) =
        true := by
      simp only [Bool.and_eq_true, Bool.not_eq_true', List.isEmpty_eq_false_iff, List.all_eq_true,
        Numeral.isNumeral_iff]
      exact ⟨⟨hsome, hwords⟩, value⟩
    simp only [Capture.form, Form.test, baseCase?, splitBracketed?_append hname
      (separable_isNumeral.bracket_not_mem args) hright]
    rw [if_pos hcond, separable_isNumeral.splitArguments_eq args]
    rfl
  | var hname value =>
    simp only [Capture.form, Form.test, var?, splitEquation?_append hname value.ne_nil]
    rfl

theorem isRun_of_blank {cs ds : List Char} (hblank : ∀ c ∈ cs, Text.isBlank c = false)
    (hsub : ∀ c ∈ ds, c ∈ cs) (hne : ds ≠ []) : IsRun ds := by
  refine ⟨hne, fun c hc => ?_⟩
  have hc := hblank c (hsub c hc)
  constructor <;>
  · rintro rfl
    exact absurd hc (by decide)

theorem exists_matches_of_test {cs : List Char} (hblank : ∀ c ∈ cs, Text.isBlank c = false)
    {f : Form} {d : Definition} (h : f.test cs = some d) :
    ∃ m, Matches cs m ∧ m.form = f ∧ m.definition = d := by
  cases f with
  | function =>
    simp only [Form.test, function?] at h
    split at h
    · next name inner right hsplit =>
      split at h
      · next hall =>
        obtain ⟨hname, hright, rfl⟩ := eq_of_splitBracketed? hsplit
        have hparams := separable_isName.all_splitArguments_iff.1 (List.all_eq_true.1 hall)
        have hbody : IsRun right := isRun_of_blank hblank (by simp +contextual) hright
        refine ⟨.function name inner right, .function hname hparams hbody, rfl, ?_⟩
        rw [Capture.definition, ← separable_isName.splitArguments_eq hparams]
        exact Option.some.inj h
      · cases h
    · cases h
  | baseCase =>
    simp only [Form.test, baseCase?] at h
    split at h
    · next name inner right hsplit =>
      split at h
      · next hcond =>
        simp only [Bool.and_eq_true, Bool.not_eq_true', List.isEmpty_eq_false_iff,
          List.all_eq_true, Numeral.isNumeral_iff] at hcond
        obtain ⟨⟨hsome, hall⟩, hvalue⟩ := hcond
        obtain ⟨hname, -, rfl⟩ := eq_of_splitBracketed? hsplit
        have hargs := separable_isNumeral.all_splitArguments_iff.1 hall
        have hinner : inner ≠ [] := by
          rintro rfl
          exact hsome rfl
        refine ⟨.baseCase name inner right, .baseCase hname hargs hinner hvalue, rfl, ?_⟩
        rw [Capture.definition, ← separable_isNumeral.splitArguments_eq hargs]
        exact Option.some.inj h
      · cases h
    · cases h
  | var =>
    obtain ⟨⟨name, right⟩, hsplit, hd⟩ := Option.map_eq_some_iff.1 h
    obtain ⟨hname, hright, rfl⟩ := eq_of_splitEquation? hsplit
    have hvalue : IsRun right := isRun_of_blank hblank (by simp +contextual) hright
    exact ⟨.var name right, .var hname hvalue, rfl, hd⟩

/-- **Tests.** A test accepts what its pattern matches, and gives what is captured. -/
theorem test_eq_some_iff {cs : List Char} (hblank : ∀ c ∈ cs, Text.isBlank c = false) (f : Form)
    (d : Definition) :
    f.test cs = some d ↔ ∃ m, Matches cs m ∧ m.form = f ∧ m.definition = d := by
  refine ⟨exists_matches_of_test hblank, ?_⟩
  rintro ⟨m, hm, rfl, rfl⟩
  exact hm.test_eq

/-! ## The order of the tests -/

theorem ofChars?_eq_findSome? (cs : List Char) :
    ofChars? cs = [Form.function, .baseCase, .var].findSome? (fun f => f.test cs) := by
  simp only [List.findSome?, Form.test, ofChars?]
  cases function? cs <;> cases baseCase? cs <;> cases var? cs <;> rfl

/-- If all tests that succeed say the same, their order does not matter. -/
theorem findSome?_eq_some_iff {α β : Type} {test : α → Option β}
    (h : ∀ {f g x y}, test f = some x → test g = some y → x = y) {tests : List α} {x : β} :
    tests.findSome? test = some x ↔ ∃ f ∈ tests, test f = some x := by
  constructor
  · exact List.exists_of_findSome?_eq_some
  · rintro ⟨f, hf, hx⟩
    obtain ⟨y, hy⟩ := Option.isSome_iff_exists.1
      (List.findSome?_isSome_iff.2 ⟨f, hf, Option.isSome_iff_exists.2 ⟨x, hx⟩⟩)
    obtain ⟨g, -, hg⟩ := List.exists_of_findSome?_eq_some hy
    rw [hy, h hx hg]

/-- Whatever the order of the tests, a text is taken for the same definition. -/
theorem findSome?_test {cs : List Char} (hblank : ∀ c ∈ cs, Text.isBlank c = false)
    {forms : List Form} (hall : ∀ f, f ∈ forms) :
    forms.findSome? (fun f => f.test cs) = ofChars? cs := by
  have hsame : ∀ {f g : Form} {d d' : Definition}, f.test cs = some d → g.test cs = some d' →
      d = d' := by
    intro f g d d' hd hd'
    obtain ⟨m, hm, -, rfl⟩ := exists_matches_of_test hblank hd
    obtain ⟨m', hm', -, rfl⟩ := exists_matches_of_test hblank hd'
    rw [hm.unique hm']
  rw [ofChars?_eq_findSome?]
  refine Option.ext fun d => ?_
  rw [findSome?_eq_some_iff hsame, findSome?_eq_some_iff hsame]
  refine exists_congr fun f => and_congr_left fun _ => iff_of_true (hall f) ?_
  cases f <;> decide

/-! ## Definitions are no expressions -/

theorem Matches.equals_mem {cs : List Char} {m : Capture} (h : Matches cs m) : '=' ∈ cs := by
  cases h <;> simp

theorem Matches.compile_ne_ok {cs : List Char} {m : Capture} (h : Matches cs m) (w depth : Nat)
    (o : Operand) : Operand.compile w depth (String.ofList cs) ≠ .ok o := by
  intro ho
  have hexpression := (Grammar.accepts_compile w depth).1.sound ho
  rw [String.toList_ofList] at hexpression
  exact hexpression.equals_not_mem h.equals_mem

/-- Between the brackets stand the words of the pattern, and the commas split them. -/
theorem Matches.words_iff {cs : List Char} {m : Capture} (h : Matches cs m)
    (words : List (List Char)) :
    ((∀ w ∈ words, m.IsWord w) ∧ [','].intercalate words = m.inner) ↔
      words = splitCommas m.inner := by
  cases h with
  | function _ params _ => exact separable_isName.listed_iff params words
  | baseCase _ args _ _ => exact separable_isNumeral.listed_iff args words
  | var _ _ =>
    constructor
    · rintro ⟨hwords, -⟩
      exact List.eq_nil_iff_forall_not_mem.2 hwords
    · rintro rfl
      exact ⟨nofun, rfl⟩

/-- **Dispatch.** For a text without blanks, each test accepts what its pattern matches; at most one
pattern matches, and in one way; the commas split what stands between the brackets into the words of
the pattern; the tests can be made in any order; and what they accept is no expression. -/
theorem dispatch_is_unambiguous {cs : List Char} (hblank : ∀ c ∈ cs, Text.isBlank c = false) :
    (∀ (f : Form) (d : Definition),
      f.test cs = some d ↔ ∃ m, Matches cs m ∧ m.form = f ∧ m.definition = d) ∧
    (∀ m m', Matches cs m → Matches cs m' → m = m') ∧
    (∀ m, Matches cs m → ∀ words, ((∀ w ∈ words, m.IsWord w) ∧ [','].intercalate words = m.inner) ↔
      words = splitCommas m.inner) ∧
    (∀ forms : List Form, (∀ f, f ∈ forms) →
      forms.findSome? (fun f => f.test cs) = ofChars? cs) ∧
    ∀ m, Matches cs m → ∀ (w depth : Nat) (o : Operand),
      Operand.compile w depth (String.ofList cs) ≠ .ok o :=
  ⟨test_eq_some_iff hblank, fun _ _ h h' => h.unique h', fun _ h => h.words_iff,
    fun _ hall => findSome?_test hblank hall, fun _ h => h.compile_ne_ok⟩

/-- A function definition whose body has brackets, commas and an equals sign of its own. -/
def crowdedDefinition : List Char := "f[x,y1]=g[x,[0]=y1]=2".toList

theorem dispatch_of_crowdedDefinition :
    (∀ c ∈ crowdedDefinition, Text.isBlank c = false) ∧
      (∀ m, Matches crowdedDefinition m ↔
        m = .function "f".toList "x,y1".toList "g[x,[0]=y1]=2".toList) ∧
      ∀ w depth o, Operand.compile w depth (String.ofList crowdedDefinition) ≠ .ok o := by
  have hblank : ∀ c ∈ crowdedDefinition, Text.isBlank c = false := by
    have hall : crowdedDefinition.all (fun c => !Text.isBlank c) = true := by decide
    simpa using hall
  obtain ⟨-, hunique, -, -, hcompile⟩ := dispatch_is_unambiguous hblank
  have hparams : Listed (fun w => Text.isName w = true) "x,y1".toList :=
    ⟨["x".toList, "y1".toList], by decide, by decide⟩
  have hmatches : Matches crowdedDefinition
      (.function "f".toList "x,y1".toList "g[x,[0]=y1]=2".toList) := by
    have htext : crowdedDefinition =
        "f".toList ++ '[' :: ("x,y1".toList ++ ']' :: '=' :: "g[x,[0]=y1]=2".toList) := by decide
    have hbody : IsRun "g[x,[0]=y1]=2".toList :=
      isRun_of_blank hblank (by rw [htext]; simp +contextual) (by decide)
    rw [htext]
    exact .function (by decide) hparams hbody
  exact ⟨hblank, fun m => ⟨fun h => hunique m _ h hmatches, fun h => h ▸ hmatches⟩,
    hcompile _ hmatches⟩

end Definition

end Reckoner
