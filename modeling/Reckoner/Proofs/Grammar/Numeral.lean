import Mathlib.Data.List.TakeWhile
import Mathlib.Tactic.Common
import Reckoner.Fragment.Basic
import Reckoner.Number.Text
import Reckoner.Numeral

/-!
# The language of numerals

`IsNumeral` is the grammar `\d+ \.? \d* ([eE] [+-]? \d+)? i?`.

1. A text is in it exactly when the test for numerals says so (`isNumeral_iff`).
2. Before a symbol, or at the end of a text, the longest numeral is the whole of the one that stands
   there (`IsNumeral.span_append`).
3. Every numeral has a value (`IsNumeral.ofNumeral_eq_ok`).
-/

namespace Reckoner

/-- A text that is over or goes on with an operator or a grouping symbol. -/
def AtSymbol (cs : List Char) : Prop :=
  ∀ c ∈ cs.head?, Fragment.isOperator c = true ∨ Fragment.isGrouper c = true

theorem atSymbol_nil : AtSymbol [] := by
  intro c hc
  simp at hc

theorem symbol_cases {c : Char}
    (h : Fragment.isOperator c = true ∨ Fragment.isGrouper c = true) :
    c = '+' ∨ c = '-' ∨ c = '*' ∨ c = '/' ∨ c = '%' ∨ c = '^' ∨ c = '(' ∨ c = ')' := by
  simpa only [Fragment.isOperator, Fragment.isGrouper, Bool.or_eq_true, beq_iff_eq, or_assoc]
    using h

/-- What is taken from a text does not change when something is put after it at which the taking
stops. -/
theorem takeWhile_append_of_stop {p : Char → Bool} (xs : List Char) {ys : List Char}
    (h : ∀ c ∈ ys.head?, p c = false) :
    (xs ++ ys).takeWhile p = xs.takeWhile p ∧ (xs ++ ys).dropWhile p = xs.dropWhile p ++ ys := by
  induction xs with
  | nil =>
    cases ys with
    | nil => exact ⟨rfl, rfl⟩
    | cons y ys =>
      have hy : p y = false := h y rfl
      simp [hy]
  | cons x xs ih =>
    obtain ⟨htake, hdrop⟩ := ih
    by_cases hx : p x = true
    · simp [hx, htake, hdrop]
    · simp [hx]

namespace Numeral

def AreDigits (cs : List Char) : Prop := ∀ c ∈ cs, c.isDigit = true

instance (cs : List Char) : Decidable (AreDigits cs) :=
  decidable_of_iff (cs.all Char.isDigit = true) List.all_eq_true

/-- An exponent: a mark, at most one sign, and at least one digit. -/
inductive IsExponent : List Char → Prop where
  | mk {mark : Char} {sign digits : List Char} (isMark : mark = 'e' ∨ mark = 'E')
      (isSign : sign = [] ∨ sign = ['+'] ∨ sign = ['-']) (areDigits : AreDigits digits)
      (nonempty : digits ≠ []) : IsExponent (mark :: (sign ++ digits))

/-- A numeral: digits, at most one point, more digits, at most one exponent and at most one `i`. -/
inductive IsNumeral : List Char → Prop where
  | mk {whole point fraction exponent unit : List Char} (areDigits : AreDigits whole)
      (nonempty : whole ≠ []) (isPoint : point = [] ∨ point = ['.'])
      (inFraction : AreDigits fraction) (isExponent : exponent = [] ∨ IsExponent exponent)
      (isUnit : unit = [] ∨ unit = ['i']) :
      IsNumeral (whole ++ point ++ fraction ++ exponent ++ unit)

/-- A point with the digits after it, or nothing. -/
def IsFraction (cs : List Char) : Prop := cs = [] ∨ ∃ digits, AreDigits digits ∧ cs = '.' :: digits

/-- Without a point the digits before and after it are one run. -/
theorem IsNumeral.parts {cs : List Char} (h : IsNumeral cs) :
    ∃ whole fraction exponent unit, AreDigits whole ∧ whole ≠ [] ∧ IsFraction fraction ∧
      (exponent = [] ∨ IsExponent exponent) ∧ (unit = [] ∨ unit = ['i']) ∧
      cs = whole ++ (fraction ++ (exponent ++ unit)) := by
  obtain ⟨hwhole, hsome, rfl | rfl, hfraction, hexponent, hunit⟩ := h
  · rename_i whole fraction exponent unit
    refine ⟨whole ++ fraction, [], exponent, unit, ?_, ?_, .inl rfl, hexponent, hunit, by simp⟩
    · intro c hc
      rcases List.mem_append.1 hc with hc | hc
      · exact hwhole c hc
      · exact hfraction c hc
    · intro h
      exact hsome (List.append_eq_nil_iff.1 h).1
  · rename_i whole fraction exponent unit
    exact ⟨whole, '.' :: fraction, exponent, unit, hwhole, hsome, .inr ⟨fraction, hfraction, rfl⟩,
      hexponent, hunit, by simp⟩

theorem IsNumeral.of_parts {whole fraction exponent unit : List Char} (hwhole : AreDigits whole)
    (hsome : whole ≠ []) (hfraction : IsFraction fraction)
    (hexponent : exponent = [] ∨ IsExponent exponent) (hunit : unit = [] ∨ unit = ['i']) :
    IsNumeral (whole ++ fraction ++ exponent ++ unit) := by
  rcases hfraction with rfl | ⟨digits, hdigits, rfl⟩
  · have hnil : AreDigits [] := fun _ h => by cases h
    simpa using IsNumeral.mk hwhole hsome (.inl rfl) hnil hexponent hunit
  · have h := IsNumeral.mk hwhole hsome (.inr rfl) hdigits hexponent hunit
    rwa [List.append_assoc whole] at h

/-! ## Longest runs -/

theorem AreDigits.takeWhile_eq {ds : List Char} (h : AreDigits ds) :
    ds.takeWhile Char.isDigit = ds := List.takeWhile_eq_self_iff.2 h

theorem AreDigits.dropWhile_eq {ds : List Char} (h : AreDigits ds) :
    ds.dropWhile Char.isDigit = [] := List.dropWhile_eq_nil_iff.2 h

theorem AreDigits.spanDigits_append {ds rest : List Char} (h : AreDigits ds)
    (hrest : ∀ c ∈ rest.head?, c.isDigit = false) : spanDigits (ds ++ rest) = (ds, rest) := by
  obtain ⟨htake, hdrop⟩ := takeWhile_append_of_stop ds hrest
  unfold spanDigits
  rw [htake, hdrop, h.takeWhile_eq, h.dropWhile_eq, List.nil_append]

theorem IsFraction.spanFraction_append {fraction rest : List Char} (h : IsFraction fraction)
    (hrest : ∀ c ∈ rest.head?, c.isDigit = false ∧ c ≠ '.') :
    spanFraction (fraction ++ rest) = (fraction, rest) := by
  rcases h with rfl | ⟨ds, hds, rfl⟩
  · cases rest with
    | nil => rfl
    | cons c cs =>
      rw [List.nil_append, spanFraction]
      intro tail htail
      cases htail
      exact (hrest '.' rfl).2 rfl
  · rw [List.cons_append, spanFraction, hds.spanDigits_append fun c hc => (hrest c hc).1]

theorem spanExponent_of_stop {rest : List Char} (hrest : ∀ c ∈ rest.head?, c ≠ 'e' ∧ c ≠ 'E') :
    spanExponent rest = ([], rest) := by
  cases rest with
  | nil => rfl
  | cons c cs =>
    obtain ⟨he, hE⟩ := hrest c rfl
    simp [spanExponent, he, hE]

theorem IsExponent.spanExponent_append {exponent rest : List Char} (h : IsExponent exponent)
    (hrest : ∀ c ∈ rest.head?, c.isDigit = false) :
    spanExponent (exponent ++ rest) = (exponent, rest) := by
  obtain ⟨hmark, hsign, hdigits, hsome⟩ := h
  rename_i mark sign digits
  have hsign : spanSign (sign ++ (digits ++ rest)) = (sign, digits ++ rest) := by
    rcases hsign with rfl | rfl | rfl
    · cases digits with
      | nil => exact absurd rfl hsome
      | cons d ds =>
        have hd : d.isDigit = true := hdigits d (by simp)
        rw [List.nil_append, List.cons_append, spanSign]
        · intro tail htail
          cases htail
          exact absurd hd (by decide)
        · intro tail htail
          cases htail
          exact absurd hd (by decide)
    · rfl
    · rfl
  have hne : digits.isEmpty = false := by simpa using hsome
  have hm : (mark == 'e' || mark == 'E') = true := by simpa using hmark
  rw [List.cons_append, List.append_assoc, spanExponent, hsign]
  simp [hdigits.spanDigits_append hrest, hne, hm]

theorem spanUnit_append_of_stop {unit rest : List Char} (h : unit = [] ∨ unit = ['i'])
    (hrest : ∀ c ∈ rest.head?, c ≠ 'i') : spanUnit (unit ++ rest) = (unit, rest) := by
  rcases h with rfl | rfl
  · cases rest with
    | nil => rfl
    | cons c cs =>
      rw [List.nil_append, spanUnit]
      intro tail htail
      cases htail
      exact hrest 'i' rfl rfl
  · rfl

/-- The longest numeral before a symbol is the numeral that stands there. -/
theorem IsNumeral.span_append {cs rest : List Char} (h : IsNumeral cs) (hrest : AtSymbol rest) :
    span (cs ++ rest) = (cs, rest) := by
  obtain ⟨whole, fraction, exponent, unit, hwhole, -, hfraction, hexponent, hunit, rfl⟩ := h.parts
  -- what each part can be followed by
  have hafter : ∀ c ∈ (unit ++ rest).head?, c = 'i' ∨ c ∈ rest.head? := by
    intro c hc
    rcases hunit with rfl | rfl
    · exact .inr hc
    · rw [List.cons_append, List.head?_cons, Option.mem_some_iff] at hc
      exact .inl hc.symm
  have hafter' : ∀ c ∈ (exponent ++ (unit ++ rest)).head?,
      c = 'e' ∨ c = 'E' ∨ c = 'i' ∨ c ∈ rest.head? := by
    intro c hc
    rcases hexponent with rfl | ⟨hmark, -, -, -⟩
    · exact .inr (.inr (hafter c hc))
    · rw [List.cons_append, List.head?_cons, Option.mem_some_iff] at hc
      subst hc
      exact hmark.imp id .inl
  have hsymbol : ∀ c ∈ rest.head?,
      c.isDigit = false ∧ c ≠ '.' ∧ c ≠ 'e' ∧ c ≠ 'E' ∧ c ≠ 'i' := by
    intro c hc
    rcases symbol_cases (hrest c hc) with rfl | rfl | rfl | rfl | rfl | rfl | rfl | rfl <;> decide
  have hunit' : spanUnit (unit ++ rest) = (unit, rest) :=
    spanUnit_append_of_stop hunit fun c hc => (hsymbol c hc).2.2.2.2
  have hexponent' : spanExponent (exponent ++ (unit ++ rest)) = (exponent, unit ++ rest) := by
    rcases hexponent with rfl | hexponent
    · refine spanExponent_of_stop fun c hc => ?_
      rcases hafter c hc with rfl | hc
      · decide
      · exact ⟨(hsymbol c hc).2.2.1, (hsymbol c hc).2.2.2.1⟩
    · refine hexponent.spanExponent_append fun c hc => ?_
      rcases hafter c hc with rfl | hc
      · decide
      · exact (hsymbol c hc).1
  have hplain : ∀ c ∈ (exponent ++ (unit ++ rest)).head?, c.isDigit = false ∧ c ≠ '.' := by
    intro c hc
    rcases hafter' c hc with rfl | rfl | rfl | hc
    · decide
    · decide
    · decide
    · exact ⟨(hsymbol c hc).1, (hsymbol c hc).2.1⟩
  have hfraction' : spanFraction (fraction ++ (exponent ++ (unit ++ rest))) =
      (fraction, exponent ++ (unit ++ rest)) := hfraction.spanFraction_append hplain
  have hwhole' : spanDigits (whole ++ (fraction ++ (exponent ++ (unit ++ rest)))) =
      (whole, fraction ++ (exponent ++ (unit ++ rest))) := by
    refine hwhole.spanDigits_append fun c hc => ?_
    rcases hfraction with rfl | ⟨ds, -, rfl⟩
    · exact (hplain c hc).1
    · rw [List.cons_append, List.head?_cons, Option.mem_some_iff] at hc
      subst hc
      decide
  rw [List.append_assoc, List.append_assoc, List.append_assoc]
  unfold span
  simp only [hwhole', hfraction', hexponent', hunit', List.append_assoc]

/-! ## The test for numerals -/

theorem areDigits_takeWhile (cs : List Char) : AreDigits (cs.takeWhile Char.isDigit) :=
  fun _ hc => List.mem_takeWhile_imp hc

theorem isFraction_spanFraction (cs : List Char) : IsFraction (spanFraction cs).1 := by
  unfold spanFraction
  split
  · exact .inr ⟨_, areDigits_takeWhile _, rfl⟩
  · exact .inl rfl

theorem spanSign_cases (cs : List Char) :
    (spanSign cs).1 = [] ∨ (spanSign cs).1 = ['+'] ∨ (spanSign cs).1 = ['-'] := by
  unfold spanSign
  split
  · exact .inr (.inl rfl)
  · exact .inr (.inr rfl)
  · exact .inl rfl

theorem isExponent_spanExponent (cs : List Char) :
    (spanExponent cs).1 = [] ∨ IsExponent (spanExponent cs).1 := by
  cases cs with
  | nil => exact .inl rfl
  | cons c cs =>
    simp only [spanExponent]
    split
    · next h =>
      rw [Bool.and_eq_true] at h
      refine .inr (.mk (by simpa using h.1) (spanSign_cases cs) (areDigits_takeWhile _) ?_)
      simpa using h.2
    · exact .inl rfl

theorem spanUnit_cases (cs : List Char) : (spanUnit cs).1 = [] ∨ (spanUnit cs).1 = ['i'] := by
  unfold spanUnit
  split
  · exact .inr rfl
  · exact .inl rfl

theorem isNumeral_span {c : Char} (hc : c.isDigit = true) (cs : List Char) :
    IsNumeral (span (c :: cs)).1 := by
  have hwhole : (spanDigits (c :: cs)).1 ≠ [] := by
    simp [spanDigits, hc]
  exact .of_parts (areDigits_takeWhile _) hwhole (isFraction_spanFraction _)
    (isExponent_spanExponent _) (spanUnit_cases _)

/-- The test for numerals accepts the language of numerals. -/
theorem isNumeral_iff (cs : List Char) : isNumeral cs = true ↔ IsNumeral cs := by
  constructor
  · intro h
    cases cs with
    | nil => cases h
    | cons c cs =>
      rw [isNumeral, Bool.and_eq_true, List.isEmpty_iff] at h
      obtain ⟨hc, hrest⟩ := h
      have happ := Numeral.span_append (c :: cs)
      rw [hrest, List.append_nil] at happ
      rw [← happ]
      exact isNumeral_span hc cs
  · intro h
    obtain ⟨whole, fraction, exponent, unit, hwhole, hsome, -, -, -, rfl⟩ := h.parts
    have hspan := h.span_append atSymbol_nil
    rw [List.append_nil] at hspan
    cases whole with
    | nil => exact absurd rfl hsome
    | cons d ds =>
      rw [List.cons_append] at hspan ⊢
      rw [isNumeral, hspan, hwhole d (by simp)]
      rfl

/-! ## Characters -/

/-- The characters of an exponent and of what comes before it. -/
def isDecimalChar (c : Char) : Bool :=
  c.isDigit || c == '.' || c == 'e' || c == 'E' || c == '+' || c == '-'

theorem decimalChar_of_isDigit {c : Char} (h : c.isDigit = true) : isDecimalChar c = true := by
  simp [isDecimalChar, h]

theorem IsFraction.decimalChar {cs : List Char} (h : IsFraction cs) :
    ∀ c ∈ cs, isDecimalChar c = true := by
  intro c hc
  rcases h with rfl | ⟨ds, hds, rfl⟩
  · cases hc
  · rcases List.mem_cons.1 hc with rfl | hc
    · decide
    · exact decimalChar_of_isDigit (hds c hc)

theorem IsExponent.decimalChar {cs : List Char} (h : IsExponent cs) :
    ∀ c ∈ cs, isDecimalChar c = true := by
  obtain ⟨hmark, hsign, hdigits, -⟩ := h
  intro c hc
  rw [List.mem_cons, List.mem_append] at hc
  rcases hc with rfl | hc | hc
  · rcases hmark with rfl | rfl <;> decide
  · rcases hsign with rfl | rfl | rfl
    · cases hc
    · rw [List.mem_singleton.1 hc]
      decide
    · rw [List.mem_singleton.1 hc]
      decide
  · exact decimalChar_of_isDigit (hdigits c hc)

theorem IsNumeral.decimalChar {cs : List Char} (h : IsNumeral cs) :
    ∀ c ∈ cs, isDecimalChar c = true ∨ c = 'i' := by
  obtain ⟨whole, fraction, exponent, unit, hwhole, -, hfraction, hexponent, hunit, rfl⟩ := h.parts
  intro c hc
  simp only [List.mem_append] at hc
  rcases hc with hc | hc | hc | hc
  · exact .inl (decimalChar_of_isDigit (hwhole c hc))
  · exact .inl (hfraction.decimalChar c hc)
  · rcases hexponent with rfl | hexponent
    · cases hc
    · exact .inl (hexponent.decimalChar c hc)
  · rcases hunit with rfl | rfl
    · cases hc
    · exact .inr (List.mem_singleton.1 hc)

/-! ## Values -/

theorem not_mark_of_isDigit {c : Char} (h : c.isDigit = true) :
    Decimal.isExponentMark c = false := by
  simp only [Decimal.isExponentMark, Bool.or_eq_false_iff, beq_eq_false_iff_ne]
  refine ⟨⟨?_, ?_⟩, ?_⟩ <;>
  · rintro rfl
    exact absurd h (by decide)

theorem not_blank_of_decimalChar {c : Char} (h : isDecimalChar c = true) :
    Text.isBlank c = false := by
  simp only [Text.isBlank, Bool.or_eq_false_iff, beq_eq_false_iff_ne]
  refine ⟨⟨⟨⟨⟨?_, ?_⟩, ?_⟩, ?_⟩, ?_⟩, ?_⟩ <;>
  · rintro rfl
    exact absurd h (by decide)

theorem AreDigits.readExponentDigits?_eq {ds : List Char} (h : AreDigits ds) (hne : ds ≠ []) :
    Decimal.readExponentDigits? ds = some (Decimal.natOfDigits ds) := by
  unfold Decimal.readExponentDigits?
  rw [h.takeWhile_eq]
  cases ds with
  | nil => exact absurd rfl hne
  | cons d ds => rfl

/-- Digits without a sign are read as an exponent that is not negative. -/
theorem AreDigits.readExponent?_eq {ds : List Char} (h : AreDigits ds) (hne : ds ≠ []) :
    Decimal.readExponent? ds = some (Decimal.natOfDigits ds : Int) := by
  have hread := h.readExponentDigits?_eq hne
  unfold Decimal.readExponent?
  split
  · exact absurd (h '-' (by simp)) (by decide)
  · exact absurd (h '+' (by simp)) (by decide)
  · rw [hread]
    rfl

/-- The number that an exponent denotes, its mark included; none denotes zero. -/
def exponentValue? : List Char → Option Int
  | [] => some 0
  | _ :: cs => Decimal.readExponent? cs

/-- The parts of a numeral without its unit, as the decimal reader gets them. -/
structure Parts (whole fraction exponent : List Char) : Prop where
  digits : AreDigits whole
  nonempty : whole ≠ []
  fraction : IsFraction fraction
  exponent : exponent = [] ∨ IsExponent exponent

section Parts

variable {whole fraction exponent : List Char} (h : Parts whole fraction exponent)

include h

theorem Parts.decimalChar : ∀ c ∈ whole ++ (fraction ++ exponent), isDecimalChar c = true := by
  intro c hc
  simp only [List.mem_append] at hc
  rcases hc with hc | hc | hc
  · exact decimalChar_of_isDigit (h.digits c hc)
  · exact h.fraction.decimalChar c hc
  · rcases h.exponent with rfl | hexponent
    · cases hc
    · exact hexponent.decimalChar c hc

theorem Parts.unit_not_mem : 'i' ∉ whole ++ (fraction ++ exponent) := fun hmem =>
  absurd (h.decimalChar _ hmem) (by decide)

theorem Parts.not_mark : ∀ c ∈ whole ++ fraction, Decimal.isExponentMark c = false := by
  intro c hc
  rcases List.mem_append.1 hc with hc | hc
  · exact not_mark_of_isDigit (h.digits c hc)
  · rcases h.fraction with rfl | ⟨ds, hds, rfl⟩
    · cases hc
    · rcases List.mem_cons.1 hc with rfl | hc
      · decide
      · exact not_mark_of_isDigit (hds c hc)

theorem Parts.splitExponent :
    Decimal.splitExponent (whole ++ (fraction ++ exponent)) =
      (whole ++ fraction, if exponent = [] then none else some exponent.tail) := by
  have hmantissa : ∀ c ∈ (whole ++ fraction).reverse, (!Decimal.isExponentMark c) = true := by
    intro c hc
    rw [h.not_mark c (List.mem_reverse.1 hc)]
    rfl
  unfold Decimal.splitExponent
  rcases h.exponent with rfl | ⟨hmark, hsign, hdigits, -⟩
  · rw [List.append_nil]
    simp only [List.dropWhile_eq_nil_iff.2 hmantissa, if_true]
  · rename_i mark sign digits
    have hm : (!Decimal.isExponentMark mark) = false := by
      rcases hmark with rfl | rfl <;> rfl
    have htail : ∀ c ∈ (sign ++ digits).reverse, (!Decimal.isExponentMark c) = true := by
      intro c hc
      rcases List.mem_append.1 (List.mem_reverse.1 hc) with hc | hc
      · rcases hsign with rfl | rfl | rfl
        · cases hc
        · rw [List.mem_singleton.1 hc]
          rfl
        · rw [List.mem_singleton.1 hc]
          rfl
      · rw [not_mark_of_isDigit (hdigits c hc)]
        rfl
    have hback : (whole ++ (fraction ++ mark :: (sign ++ digits))).reverse =
        (sign ++ digits).reverse ++ mark :: (whole ++ fraction).reverse := by
      simp
    have hdrop : (mark :: (whole ++ fraction).reverse).dropWhile
        (fun c => !Decimal.isExponentMark c) = mark :: (whole ++ fraction).reverse := by
      rw [List.dropWhile_cons_of_neg (by simp [hm])]
    have htake : (mark :: (whole ++ fraction).reverse).takeWhile
        (fun c => !Decimal.isExponentMark c) = [] := by
      rw [List.takeWhile_cons_of_neg (by simp [hm])]
    rw [hback]
    dsimp only
    rw [List.dropWhile_append_of_pos htail, List.takeWhile_append_of_pos htail, hdrop, htake,
      List.append_nil, if_neg (List.cons_ne_nil _ _)]
    simp only [List.reverse_reverse, List.tail_cons]

theorem Parts.strip_eq : Text.strip (whole ++ fraction) = whole ++ fraction := by
  refine List.filter_eq_self.2 fun c hc => ?_
  have hchar : isDecimalChar c = true := by
    rcases List.mem_append.1 hc with hc | hc
    · exact decimalChar_of_isDigit (h.digits c hc)
    · exact h.fraction.decimalChar c hc
  rw [not_blank_of_decimalChar hchar]
  rfl

theorem Parts.splitPoint :
    Decimal.splitPoint? (whole ++ fraction) = some (whole, fraction.tail) := by
  have hstop : ∀ c ∈ fraction.head?, c.isDigit = false := by
    rcases h.fraction with rfl | ⟨ds, -, rfl⟩
    · exact nofun
    · rintro c hc
      cases hc
      rfl
  obtain ⟨htake, hdrop⟩ := takeWhile_append_of_stop whole hstop
  rw [h.digits.takeWhile_eq] at htake
  rw [h.digits.dropWhile_eq, List.nil_append] at hdrop
  unfold Decimal.splitPoint?
  rw [hdrop]
  rcases h.fraction with rfl | ⟨ds, hds, rfl⟩
  · rw [List.append_nil]
    rfl
  · have hall : ds.all Char.isDigit = true := List.all_eq_true.2 hds
    simp only [hall, if_true, htake, List.tail_cons]

theorem Parts.readExponent : ∃ n, exponentValue? exponent = some n := by
  rcases h.exponent with rfl | ⟨-, hsign, hdigits, hne⟩
  · exact ⟨0, rfl⟩
  · rename_i mark sign digits
    have hread := hdigits.readExponentDigits?_eq hne
    rw [exponentValue?]
    rcases hsign with rfl | rfl | rfl
    · exact ⟨_, hdigits.readExponent?_eq hne⟩
    · exact ⟨_, by rw [List.singleton_append, Decimal.readExponent?, hread]; rfl⟩
    · exact ⟨_, by rw [List.singleton_append, Decimal.readExponent?, hread]; rfl⟩

theorem Parts.read {n : Int} (hn : exponentValue? exponent = some n) :
    Decimal.read? (whole ++ (fraction ++ exponent)) =
      some ⟨false, Decimal.natOfDigits (whole ++ fraction.tail), n - fraction.tail.length⟩ := by
  obtain ⟨d, ds, rfl⟩ := List.exists_cons_of_ne_nil h.nonempty
  have hd : d.isDigit = true := h.digits d (by simp)
  have hall : ∀ c ∈ d :: ds ++ (fraction ++ exponent), (c != '\x00') = true := by
    intro c hc
    have hchar := h.decimalChar c hc
    rw [bne_iff_ne]
    rintro rfl
    exact absurd hchar (by decide)
  have hunsigned : Decimal.readUnsigned? (d :: ds ++ (fraction ++ exponent)) =
      some (Decimal.natOfDigits (d :: ds ++ fraction.tail), n - fraction.tail.length) := by
    have hstart : Decimal.startsWithDigit (d :: ds ++ (fraction ++ exponent)) = true := by
      rw [List.cons_append, Decimal.startsWithDigit]
      · exact hd
      · intro c tail htail
        cases htail
        exact absurd hd (by decide)
    unfold Decimal.readUnsigned?
    rw [h.splitExponent, hstart]
    dsimp only
    rw [h.strip_eq, h.splitPoint]
    cases exponent with
    | nil =>
      cases hn
      rfl
    | cons mark cs =>
      rw [exponentValue?] at hn
      rw [if_neg (List.cons_ne_nil _ _), List.tail_cons]
      dsimp only
      rw [hn]
      rfl
  have hblank : Text.isBlank d = false := not_blank_of_decimalChar (decimalChar_of_isDigit hd)
  unfold Decimal.read?
  rw [List.takeWhile_eq_self_iff.2 hall, List.cons_append,
    List.dropWhile_cons_of_neg (by simp [hblank])]
  rw [List.cons_append] at hunsigned
  split
  · next heq =>
    cases heq
    exact absurd hd (by decide)
  · rw [hunsigned]
    rfl

end Parts

theorem padPoint_append {cs rest : List Char} (h : '.' ∉ cs) :
    Number.padPoint (cs ++ rest) = cs ++ Number.padPoint rest := by
  induction cs with
  | nil => rfl
  | cons c cs ih =>
    rw [List.mem_cons, not_or] at h
    rw [List.cons_append, Number.padPoint, ih h.2, List.cons_append]
    intro hc
    exact h.1 hc.symm

theorem AreDigits.point_not_mem {ds : List Char} (h : AreDigits ds) : '.' ∉ ds := by
  intro hmem
  exact absurd (h '.' hmem) (by decide)

/-- A fraction with a zero after its point, if it has no digits. -/
def padFraction (cs : List Char) : List Char := if cs = ['.'] then ['.', '0'] else cs

theorem Parts.padFraction {whole fraction exponent : List Char}
    (h : Parts whole fraction exponent) : Parts whole (padFraction fraction) exponent := by
  unfold Numeral.padFraction
  split
  · exact ⟨h.digits, h.nonempty, .inr ⟨['0'], by simp [AreDigits], rfl⟩, h.exponent⟩
  · exact h

/-- An exponent has no point and does not start with a digit. -/
theorem Parts.exponent_stop {whole fraction exponent : List Char}
    (h : Parts whole fraction exponent) :
    '.' ∉ exponent ∧ ∀ c ∈ exponent.head?, c.isDigit = false := by
  rcases h.exponent with rfl | ⟨hmark, hsign, hdigits, -⟩
  · exact ⟨List.not_mem_nil, fun c hc => by cases hc⟩
  · constructor
    · simp only [List.mem_cons, List.mem_append, not_or]
      refine ⟨?_, ?_, hdigits.point_not_mem⟩
      · rcases hmark with rfl | rfl <;> decide
      · rcases hsign with rfl | rfl | rfl <;> decide
    · rintro c hc
      cases hc
      rcases hmark with rfl | rfl <;> rfl

/-- Padding the point leaves a numeral with the same other parts. -/
theorem Parts.padPoint {whole fraction exponent : List Char} (h : Parts whole fraction exponent) :
    Number.padPoint (whole ++ (fraction ++ exponent)) =
      whole ++ (Numeral.padFraction fraction ++ exponent) := by
  have hexponent := h.exponent_stop
  rw [padPoint_append h.digits.point_not_mem]
  rcases h.fraction with rfl | ⟨ds, hds, rfl⟩
  · have hpad : Number.padPoint (exponent ++ []) = exponent ++ [] := padPoint_append hexponent.1
    rw [List.append_nil] at hpad
    rw [List.nil_append, hpad]
    rfl
  · cases ds with
    | nil =>
      cases exponent with
      | nil => rfl
      | cons c cs =>
        have hc : c.isDigit = false := hexponent.2 c rfl
        simp [Number.padPoint, Numeral.padFraction, hc]
    | cons d ds =>
      have hd : d.isDigit = true := hds d (by simp)
      simp [Number.padPoint, Numeral.padFraction, hd]

theorem ofNumeral?_real {cs : List Char} {d : Decimal} (hunit : 'i' ∉ cs)
    (hd : Decimal.read? (Number.padPoint cs) = some d) (w : Nat) {text : String}
    (htext : text.toList = cs) : Number.ofNumeral? w text = some ⟨d.toDyadic w, 0⟩ := by
  unfold Number.ofNumeral?
  dsimp only
  rw [htext]
  split
  · next hlast => exact absurd (List.mem_of_getLast? hlast) hunit
  · rw [hd]
    rfl

theorem ofNumeral?_imaginary {cs : List Char} {d : Decimal}
    (hd : Decimal.read? (Number.padPoint cs) = some d) (w : Nat) {text : String}
    (htext : text.toList = cs ++ ['i']) : Number.ofNumeral? w text = some ⟨0, d.toDyadic w⟩ := by
  unfold Number.ofNumeral?
  dsimp only
  rw [htext, List.getLast?_concat, List.dropLast_concat, hd]
  rfl

theorem IsNumeral.ofNumeral_eq_ok {text : String} (h : IsNumeral text.toList) (w : Nat) :
    ∃ value, Number.ofNumeral w text = .ok value := by
  obtain ⟨whole, fraction, exponent, unit, hwhole, hsome, hfraction, hexponent, hunit, heq⟩ :=
    h.parts
  have hparts : Parts whole fraction exponent := ⟨hwhole, hsome, hfraction, hexponent⟩
  obtain ⟨n, hn⟩ := hparts.readExponent
  have hd := hparts.padFraction.read hn
  rw [← hparts.padPoint] at hd
  have hvalue : ∃ value, Number.ofNumeral? w text = some value := by
    rcases hunit with rfl | rfl
    · rw [List.append_nil] at heq
      exact ⟨_, ofNumeral?_real hparts.unit_not_mem hd w heq⟩
    · rw [← List.append_assoc, ← List.append_assoc, List.append_assoc whole] at heq
      exact ⟨_, ofNumeral?_imaginary hd w heq⟩
  obtain ⟨value, hvalue⟩ := hvalue
  exact ⟨value, by rw [Number.ofNumeral, hvalue]⟩

end Numeral

end Reckoner
