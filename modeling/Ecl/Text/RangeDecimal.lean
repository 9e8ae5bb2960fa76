import Ecl.Text.RangeRational
import Ecl.Text.Write

/- Integers with a dot at the end in a part of a text, and when ecl_parse_number keeps to the
syntax of rational numbers. -/
namespace Ecl.Text

open Ecl.Number List Option

variable (ucd : Ucd)

def Zeros (text : List Nat) : Prop := ∀ c ∈ text, ucd.digitp c 10 = some 0

/-- What is before the first character does not change the integer in base ten that the
characters are written for: zeros, maybe with a sign, before digits. -/
inductive Harmless : List Nat → List Nat → Prop where
  | first {body : List Nat} : Harmless [] body
  | zeros {front body : List Nat} (zeros : Zeros ucd front)
      (digit : ∀ c ∈ body, ucd.digitp c 10 ≠ none) : Harmless front body
  | plus {front body : List Nat} (zeros : Zeros ucd front)
      (digit : ∀ c ∈ body, ucd.digitp c 10 ≠ none) : Harmless ('+'.toNat :: front) body
  | minus {front body : List Nat} (zeros : Zeros ucd front) (zero : Zeros ucd body) :
      Harmless ('-'.toNat :: front) body

variable {radix : Nat} {front : List Nat}

theorem digits_append (digit : ∀ c ∈ front, ucd.digitp c radix ≠ none) (body : List Nat) :
    digits ucd radix (front ++ body) = digits ucd radix front ++ digits ucd radix body := by
  induction front with
  | nil => rfl
  | cons c front ih =>
    obtain ⟨d, weight⟩ := ne_none_iff_exists'.mp (digit c mem_cons_self)
    rw [cons_append, digits, digits, weight]
    exact congrArg (d :: ·) (ih fun c member => digit c (mem_cons_of_mem _ member))

/-- The number of the digits of a text. -/
def digitValue (radix : Nat) (text : List Nat) : Nat :=
  Nat.ofDigits radix (digits ucd radix text).reverse

theorem digitValue_append (digit : ∀ c ∈ front, ucd.digitp c radix ≠ none) (body : List Nat) :
    digitValue ucd radix (front ++ body) =
      digitValue ucd radix body +
        radix ^ (digits ucd radix body).length * digitValue ucd radix front := by
  rw [digitValue, digits_append ucd digit, reverse_append, Nat.ofDigits_append,
    length_reverse]
  rfl

theorem digitValue_zero_iff {text : List Nat} (digit : ∀ c ∈ text, ucd.digitp c 10 ≠ none) :
    digitValue ucd 10 text = 0 ↔ Zeros ucd text := by
  induction text with
  | nil => exact iff_of_true rfl fun c member => absurd member not_mem_nil
  | cons c text ih =>
    have others := fun c member => digit c (mem_cons_of_mem _ member)
    have first : ∀ x ∈ [c], ucd.digitp x 10 ≠ none := by simpa using digit c mem_cons_self
    obtain ⟨d, weight⟩ := ne_none_iff_exists'.mp (digit c mem_cons_self)
    have single : digitValue ucd 10 [c] = d := by
      rw [digitValue, digits, weight]
      rfl
    have whole := digitValue_append ucd first text
    rw [singleton_append, single] at whole
    rw [whole, Nat.add_eq_zero_iff, ih others, Nat.mul_eq_zero,
      or_iff_right (by positivity), Zeros, Zeros, forall_mem_cons, weight,
      some.injEq, and_comm]

variable {v : Int}

theorem IntegerText.value_eq {text : List Nat} (integer : IntegerText ucd 10 text v)
    (digit : ∀ c ∈ text, ucd.digitp c 10 ≠ none) : v = digitValue ucd 10 text :=
  integer.unique ucd (by decide)
    (.unsigned (digitText_of_digits ucd (integer.signedDigits ucd).nonempty digit))

variable {body : List Nat}

theorem digitText_zeros (zeros : Zeros ucd front)
    (digit : ∀ c ∈ body, ucd.digitp c 10 ≠ none) (nonempty : body ≠ []) :
    DigitText ucd 10 (front ++ body) (digitValue ucd 10 body) := by
  have zeroDigit : ∀ c ∈ front, ucd.digitp c 10 ≠ none := fun c member => by
    rw [zeros c member]
    exact some_ne_none 0
  have value := digitValue_append ucd zeroDigit body
  rw [(digitValue_zero_iff ucd zeroDigit).mpr zeros, Nat.mul_zero, Nat.add_zero] at value
  rw [← value]
  exact digitText_of_digits ucd (append_ne_nil_of_right_ne_nil _ nonempty)
    (forall_mem_append.mpr ⟨zeroDigit, digit⟩)

theorem Harmless.integer (harmless : Harmless ucd front body)
    (integer : IntegerText ucd 10 body v) : IntegerText ucd 10 (front ++ body) v := by
  have nonempty := (integer.signedDigits ucd).nonempty
  cases harmless with
  | first => exact integer
  | zeros zeros digit =>
    rw [integer.value_eq ucd digit]
    exact .unsigned (digitText_zeros ucd zeros digit nonempty)
  | plus zeros digit =>
    rw [integer.value_eq ucd digit]
    exact .plus (digitText_zeros ucd zeros digit nonempty)
  | minus zeros zero =>
    have digit : ∀ c ∈ body, ucd.digitp c 10 ≠ none := fun c member => by
      rw [zero c member]
      exact some_ne_none 0
    have whole := digitText_zeros ucd zeros digit nonempty
    have value := integer.value_eq ucd digit
    rw [(digitValue_zero_iff ucd digit).mpr zero] at whole value
    rw [value]
    exact IntegerText.minus whole

theorem zeros_of_same {n : Nat}
    (written : DigitText ucd 10 (front ++ body) n) (less : n ≤ digitValue ucd 10 body) :
    Zeros ucd front := by
  have digit := forall_mem_append.mp (written.digit ucd)
  have value := ((digitText_iff ucd).mp written).2.2
  have whole := digitValue_append ucd digit.1 body
  rw [digitValue, value] at whole
  apply (digitValue_zero_iff ucd digit.1).mp
  have positive : 0 < 10 ^ (digits ucd 10 body).length := by positivity
  have product : 10 ^ (digits ucd 10 body).length * digitValue ucd 10 front = 0 := by omega
  exact (Nat.mul_eq_zero.mp product).resolve_left positive.ne'

theorem harmless_of_integer
    (whole : IntegerText ucd 10 (front ++ body) v) (integer : IntegerText ucd 10 body v) :
    Harmless ucd front body := by
  cases front with
  | nil => exact .first
  | cons c front =>
    generalize same : c :: front ++ body = text at whole
    cases whole with
    | unsigned written =>
      rw [← same] at written
      have digit := (forall_mem_append.mp (written.digit ucd)).2
      have value := integer.value_eq ucd digit
      exact .zeros (zeros_of_same ucd written (by omega)) digit
    | plus written =>
      obtain ⟨rfl, rfl⟩ := List.cons.inj same
      have digit := (forall_mem_append.mp (written.digit ucd)).2
      have value := integer.value_eq ucd digit
      exact .plus (zeros_of_same ucd written (by omega)) digit
    | @minus _ n written =>
      obtain ⟨rfl, rfl⟩ := List.cons.inj same
      have digit := (forall_mem_append.mp (written.digit ucd)).2
      have value := integer.value_eq ucd digit
      have none : n = 0 ∧ digitValue ucd 10 body = 0 := by omega
      exact .minus (zeros_of_same ucd written (by omega))
        ((digitValue_zero_iff ucd digit).mp none.2)

/-- The condition on what is before the first character of a token with a dot at its end. -/
structure NoPrefix (front body : List Nat) : Prop where
  harmless : SignedDigits ucd 10 body → Harmless ucd front body
  alone : body = [] → ¬ SignedDigits ucd 10 front

theorem noPrefix_iff : NoPrefix ucd front body ↔
      ∀ v, IntegerText ucd 10 (front ++ body) v ↔ IntegerText ucd 10 body v := by
  constructor
  · rintro ⟨harmless, alone⟩ v
    constructor
    · intro whole
      have signed : SignedDigits ucd 10 body := by
        cases front with
        | nil => exact whole.signedDigits ucd
        | cons c front =>
          have nonempty : body ≠ [] := by
            rintro rfl
            rw [append_nil] at whole
            exact alone rfl (whole.signedDigits ucd)
          generalize same : c :: front ++ body = text at whole
          cases whole with
          | unsigned written =>
            rw [← same] at written
            exact .unsigned (forall_mem_append.mp (written.digit ucd)).2 nonempty
          | plus written =>
            obtain ⟨rfl, rfl⟩ := List.cons.inj same
            exact .unsigned (forall_mem_append.mp (written.digit ucd)).2 nonempty
          | minus written =>
            obtain ⟨rfl, rfl⟩ := List.cons.inj same
            exact .unsigned (forall_mem_append.mp (written.digit ucd)).2 nonempty
      obtain ⟨w, integer⟩ := (signedDigits_iff ucd).mp signed
      rwa [whole.unique ucd (by decide) ((harmless signed).integer ucd integer)]
    · exact fun integer => (harmless (integer.signedDigits ucd)).integer ucd integer
  · intro same
    refine ⟨?_, ?_⟩
    · intro signed
      obtain ⟨v, integer⟩ := (signedDigits_iff ucd).mp signed
      exact harmless_of_integer ucd ((same v).mpr integer) integer
    · rintro rfl signed
      obtain ⟨v, integer⟩ := (signedDigits_iff ucd).mp signed
      rw [append_nil] at same
      exact (((same v).mp integer).signedDigits ucd).nonempty ucd rfl

variable {str : List Nat}

theorem parseDecimalIn_iff {i stop : Nat} (before : i < stop) (inside : stop ≤ str.length)
    {x : Rational} :
    parseDecimalIn ucd str i stop = .rational x stop ↔
      ∃ v, IntegerText ucd 10 (str.take i) v ∧ x = .integer (bigRegisterNormalize v) := by
  have found (y : Integer) := @parseIntegerIn_iff ucd 10 (by decide) str 0 i (Nat.zero_le i)
    (by omega) y
  rw [range, drop_zero] at found
  rw [parseDecimalIn]
  cases parsed : parseIntegerIn ucd str 0 i 10 with
  | none =>
    simp only [reduceCtorEq, false_iff, not_exists, not_and]
    intro v integer
    rw [(found _).mpr ⟨v, integer, rfl⟩] at parsed
    cases parsed
  | some pair =>
    obtain ⟨y, ep⟩ := pair
    have reached := parseIntegerIn_le ucd (by decide) (Nat.zero_le i) (by omega) parsed
    simp only [Parsed.rational.injEq]
    constructor
    · rintro ⟨rfl, stops⟩
      have whole : ep = i := by
        by_contra part
        rw [if_neg part] at stops
        omega
      rw [whole] at parsed
      obtain ⟨v, integer, rfl⟩ := (found y).mp parsed
      exact ⟨v, integer, rfl⟩
    · rintro ⟨v, integer, rfl⟩
      rw [(found _).mpr ⟨v, integer, rfl⟩, some.injEq, Prod.mk.injEq] at parsed
      exact ⟨congrArg Rational.integer parsed.1.symm, if_pos parsed.2.symm⟩

/-- Integers in base ten with a dot at the end. -/
def ReadsDecimal (result : Option Parsed) (stop : Nat) (body : List Nat) : Prop :=
  Reads result stop fun q => ∃ v : Int, IntegerText ucd 10 body v ∧ q = v

theorem readsDecimal_dot {start stop : Nat} (before : start < stop)
    (inside : stop ≤ str.length) (split : range str start stop = body ++ ['.'.toNat]) :
    ReadsDecimal ucd (some (parseDecimalIn ucd str (stop - 1) stop)) stop body ↔
      NoPrefix ucd (str.take start) body := by
  have length := congrArg List.length split
  rw [length_range inside, length_append, length_singleton] at length
  have front : str.take (stop - 1) = str.take start ++ body := by
    have bodyIs := range_front split
    rw [show start + body.length = stop - 1 by omega] at bodyIs
    have parts := take_append_drop start (str.take (stop - 1))
    rw [take_take, Nat.min_eq_left (by omega)] at parts
    rw [← bodyIs]
    exact parts.symm
  have found (x : Rational) := @parseDecimalIn_iff ucd str (stop - 1) stop (by omega) inside x
  rw [front] at found
  rw [noPrefix_iff]
  constructor
  · rintro ⟨sound, complete⟩ v
    have is := bigRegisterNormalize_is v
    constructor
    · intro whole
      obtain ⟨_, w, integer, same⟩ := sound _ (congrArg some ((found _).mpr ⟨v, whole, rfl⟩))
      rw [Rational.value, is.value_eq] at same
      rwa [Int.cast_injective same]
    · intro integer
      obtain ⟨x, taken, _, value⟩ := complete v ⟨v, integer, rfl⟩
      obtain ⟨w, whole, rfl⟩ := (found x).mp (some.inj taken)
      rw [Rational.value, (bigRegisterNormalize_is w).value_eq] at value
      rwa [← Int.cast_injective value]
  · intro same
    refine ⟨?_, ?_⟩
    · intro x taken
      obtain ⟨v, whole, rfl⟩ := (found x).mp (some.inj taken)
      have is := bigRegisterNormalize_is v
      exact ⟨is.canonical, v, (same v).mp whole, congrArg Int.cast is.value_eq⟩
    · rintro q ⟨v, integer, rfl⟩
      have is := bigRegisterNormalize_is v
      exact ⟨_, congrArg some ((found _).mpr ⟨v, (same v).mpr integer, rfl⟩), is.canonical,
        congrArg Int.cast is.value_eq⟩

/-- The condition on a token with a dot at its end: the loop goes past an integer in base ten,
and what is before it is no part of the number. -/
structure DecimalAt (radix : Nat) (front body : List Nat) : Prop where
  passes : SignedDigits ucd 10 body → ∀ c ∈ body, Passes ucd radix c
  harmless : SignedDigits ucd 10 body → Harmless ucd front body
  alone : body = [] → ¬ SignedDigits ucd 10 front

theorem readsDecimal_iff {base : Bool} (le : radix ≤ 36)
    {start stop : Nat} (before : start < stop) (inside : stop ≤ str.length)
    (split : range str start stop = body ++ ['.'.toNat]) (noDot : '.'.toNat ∉ body) :
    ReadsDecimal ucd (parseNumberIn ucd base str start stop radix) stop body ↔
      DecimalAt ucd radix (str.take start) body := by
  have length := congrArg List.length split
  rw [length_range inside, length_append, length_singleton] at length
  obtain ⟨front, rest, rfl, passes, stops⟩ := split_passes ucd radix body
  rw [append_assoc] at split
  cases rest with
  | nil =>
    rw [append_nil] at length noDot ⊢
    have dot : parseNumberIn ucd base str start stop radix =
        some (parseDecimalIn ucd str (stop - 1) stop) := by
      rw [parseNumberIn_front ucd before split passes, nil_append, parseRangeFrom,
        if_neg (by decide), if_pos rfl, if_pos (by omega),
        show start + front.length = stop - 1 by omega]
    rw [dot, readsDecimal_dot ucd before inside (by simpa using split)]
    constructor
    · rintro ⟨harmless, alone⟩
      exact ⟨fun _ => passes, harmless, alone⟩
    · rintro ⟨_, harmless, alone⟩
      exact ⟨harmless, alone⟩
  | cons c rest =>
    have stops := stops c rfl
    have refused : ¬ ∀ x ∈ front ++ c :: rest, Passes ucd radix x :=
      fun all => stops (all c (mem_append_right _ mem_cons_self))
    have notDot : c ≠ '.'.toNat := by
      rintro rfl
      exact noDot (mem_append_right _ mem_cons_self)
    have taken (x : Rational) : parseNumberIn ucd base str start stop radix ≠
        some (.rational x stop) := by
      rw [parseNumberIn_front ucd before split passes, cons_append]
      by_cases slash : c = '/'.toNat
      · subst slash
        rw [parseRangeFrom, if_pos rfl]
        intro found
        rw [length_append, length_cons] at length
        have inRange : range str (start + front.length + 1) stop = rest ++ ['.'.toNat] :=
          range_rest split
        obtain ⟨_, w, denominator⟩ := integers_of_parseRatioIn ucd le
          (Nat.le_add_right start front.length) (by omega) inside
          (by rw [some.inj found]; exact Parsed.noConfusion)
        rw [inRange] at denominator
        exact (not_mem_of_passes ucd (denominator.passes ucd)).2
          (mem_append_right _ mem_cons_self)
      · rw [(parseRangeFrom_stops ucd stops slash notDot _ _).2]
        split
        · exact parseFloatIn_not_rational _ _ _ _ _ _ _ _
        · intro found
          cases found
    constructor
    · rintro ⟨_, complete⟩
      have unsigned : ¬ SignedDigits ucd 10 (front ++ c :: rest) := by
        intro signed
        obtain ⟨v, integer⟩ := (signedDigits_iff ucd).mp signed
        obtain ⟨x, found, _⟩ := complete v ⟨v, integer, rfl⟩
        exact taken x found
      refine ⟨fun signed => absurd signed unsigned, fun signed => absurd signed unsigned, ?_⟩
      exact fun none => absurd none (append_ne_nil_of_right_ne_nil _ (cons_ne_nil _ _))
    · rintro ⟨all, _, _⟩
      refine reads_nothing taken ?_
      rintro q ⟨v, integer, _⟩
      exact refused (all (integer.signedDigits ucd))

/-- When the function does as the syntax says. -/
structure RangeSafe (str : List Nat) (start stop radix : Nat) : Prop where
  denominator : NoSignedDenominator ucd radix (range str start stop)
  decimal : ∀ body, range str start stop = body ++ ['.'.toNat] →
    DecimalAt ucd radix (str.take start) body

theorem range_nil {start stop : Nat} (empty : stop ≤ start) : range str start stop = [] := by
  rw [range, drop_eq_nil_iff, length_take]
  omega

theorem plain_of_sides {num den : List Nat} (signedNum : SignedDigits ucd radix num)
    (signedDen : SignedDigits ucd radix den) :
    '.'.toNat ∉ num ++ '/'.toNat :: den ∧ ∀ c ∈ num ++ '/'.toNat :: den,
      exponentMarkerP c = true → ucd.digitp c radix ≠ none := by
  have goes : ∀ c ∈ num ++ '/'.toNat :: den, Passes ucd radix c ∨ c = '/'.toNat := by
    intro c member
    rw [mem_append, mem_cons] at member
    obtain left | same | right := member
    · exact .inl (signedNum.passes ucd c left)
    · exact .inr same
    · exact .inl (signedDen.passes ucd c right)
  refine ⟨?_, ?_⟩
  · intro dot
    obtain passes | slash := goes _ dot
    · exact passes.notDot rfl
    · exact absurd slash (by decide)
  · intro c member marks
    obtain passes | rfl := goes c member
    · obtain digit | accepted := passes.accepted
      · exact digit
      · exact absurd marks (by rw [not_marker accepted]; exact Bool.false_ne_true)
    · exact absurd marks (by decide)

theorem rangeLaw_iff {radix : Nat} (le : radix ≤ 36) (base : Bool) {str : List Nat}
    {start stop : Nat} (inside : stop ≤ str.length) :
    RangeLaw ucd base str start stop radix ↔ RangeSafe ucd str start stop radix := by
  by_cases empty : stop ≤ start
  · have nothing := @range_nil str start stop empty
    have refused : parseNumberIn ucd base str start stop radix = some .objnull := by
      rw [parseNumberIn, if_pos empty]
    refine iff_of_true ⟨fun _ _ => ?_, fun body split _ => ?_⟩ ⟨?_, fun body split => ?_⟩
    · rw [refused, nothing]
      refine ⟨reads_nothing ?_ ?_, iff_of_false ?_ ?_⟩
      · intro x found
        cases found
      · intro q written
        obtain ⟨v, integer, _⟩ := written.integer_of_passes ucd
          fun c member => absurd member not_mem_nil
        exact (integer.signedDigits ucd).nonempty ucd rfl
      · intro found
        cases found
      · rintro ⟨n, ratio⟩
        exact not_mem_nil (ratio.slash ucd)
    · simp [nothing] at split
    · rw [nothing]
      exact noSignedDenominator_of_no_slash ucd not_mem_nil
    · simp [nothing] at split
  · have before : start < stop := by omega
    constructor
    · rintro ⟨rational, decimal⟩
      refine ⟨?_, ?_⟩
      · intro num den same signedNum signedDen
        have plain := plain_of_sides ucd signedNum signedDen
        rw [← same] at plain
        exact (readsRational_iff ucd le before inside plain.1 plain.2).mp
          (rational plain.1 plain.2) num den same signedNum signedDen
      · intro body split
        by_cases dot : '.'.toNat ∈ body
        · refine ⟨fun signed => absurd signed (dot_not_signed ucd dot),
            fun signed => absurd signed (dot_not_signed ucd dot), ?_⟩
          exact fun none => absurd none (ne_nil_of_mem dot)
        · exact (readsDecimal_iff ucd le before inside split dot).mp (decimal body split dot)
    · rintro ⟨denominator, decimal⟩
      refine ⟨?_, ?_⟩
      · exact fun noDot noMarker =>
          (readsRational_iff ucd le before inside noDot noMarker).mpr denominator
      · exact fun body split noDot =>
          (readsDecimal_iff ucd le before inside split noDot).mpr (decimal body split)

/-- The text 3/4. in which a ratio is read from the first character. -/
theorem rangeLaw_iff_ratio :
    3 ≤ (text "3/4.").length ∧
      (RangeLaw asciiUcd true (text "3/4.") 0 3 10 ↔
        RangeSafe asciiUcd (text "3/4.") 0 3 10) :=
  ⟨by decide, rangeLaw_iff asciiUcd (by decide) true (by decide)⟩

/-- A token in the middle of a text is read together with the digits before it. -/
theorem rangeLaw_counterexample : ¬ RangeLaw asciiUcd true (text "912.") 1 4 10 := by
  intro law
  have read : parseNumberIn asciiUcd true (text "912.") 1 4 10 =
      some (.rational (.integer (makeFixnum 912)) 4) := by decide
  have written : DigitText asciiUcd 10 (text "12") 12 :=
    ⟨⟨[1, 2], .cons rfl (.cons rfl .nil), rfl⟩, by decide⟩
  obtain ⟨x, found, _, value⟩ := (law.decimal (text "12") rfl (by decide)).complete 12
    ⟨12, .unsigned written, rfl⟩
  rw [read, Option.some.injEq, Parsed.rational.injEq] at found
  rw [← found.1] at value
  exact absurd value (by decide)

end Ecl.Text
