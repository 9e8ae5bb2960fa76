import Ecl.Text.NumberRange

/- Rational numbers in a part of a text without dots. -/
namespace Ecl.Text

open Ecl.Number List Option

variable (ucd : Ucd)

variable {radix : Nat} {text : List Nat}

theorem not_mem_of_passes (passes : ∀ c ∈ text, Passes ucd radix c) :
    '/'.toNat ∉ text ∧ '.'.toNat ∉ text :=
  ⟨fun slash => (passes _ slash).notSlash rfl, fun dot => (passes _ dot).notDot rfl⟩

theorem IntegerText.passes {v : Int}
    (integer : IntegerText ucd radix text v) : ∀ c ∈ text, Passes ucd radix c :=
  (integer.signedDigits ucd).passes

variable {num den : List Nat}

theorem slash_sides {top bottom : List Nat}
    (passesTop : ∀ c ∈ top, Passes ucd radix c) (passesBottom : ∀ c ∈ bottom, Passes ucd radix c)
    (same : num ++ '/'.toNat :: den = top ++ '/'.toNat :: bottom) : num = top ∧ den = bottom := by
  have clear := (append_cons_inj_of_notMem (not_mem_of_passes ucd passesTop).1
    (not_mem_of_passes ucd passesBottom).1).mp same.symm
  exact ⟨clear.1.symm, clear.2.2.symm⟩

variable {n : Int}

theorem RatioText.sides {d : Nat} (ratio : RatioText ucd radix (num ++ '/'.toNat :: den) n d) :
    IntegerText ucd radix num n ∧ DigitText ucd radix den d := by
  generalize same : num ++ '/'.toNat :: den = text at ratio
  cases ratio with
  | mk numerator denominator =>
    obtain ⟨left, right⟩ := slash_sides ucd (numerator.passes ucd)
      ((IntegerText.unsigned denominator).passes ucd) same
    exact ⟨left ▸ numerator, right ▸ denominator⟩

theorem RatioText.slash {d : Nat} (ratio : RatioText ucd radix text n d) : '/'.toNat ∈ text := by
  cases ratio with
  | mk _ _ => exact mem_append_right _ mem_cons_self

variable {q : ℚ}

theorem RationalText.integer_of_passes
    (passes : ∀ c ∈ text, Passes ucd radix c) (written : RationalText ucd radix text q) :
    ∃ v : Int, IntegerText ucd radix text v ∧ q = v := by
  cases written with
  | integer integer => exact ⟨_, integer, rfl⟩
  | ratio ratio _ => exact absurd (ratio.slash ucd) (not_mem_of_passes ucd passes).1

theorem RationalText.sides (written : RationalText ucd radix (num ++ '/'.toNat :: den) q) :
    ∃ (n : Int) (d : Nat), IntegerText ucd radix num n ∧ DigitText ucd radix den d ∧ d ≠ 0 ∧
      q = n / d := by
  generalize same : num ++ '/'.toNat :: den = text at written
  cases written with
  | integer integer =>
    have slash : '/'.toNat ∈ text := same ▸ mem_append_right _ mem_cons_self
    exact absurd slash (not_mem_of_passes ucd (integer.passes ucd)).1
  | ratio ratio nonzero =>
    have both := RatioText.sides ucd (same ▸ ratio)
    exact ⟨_, _, both.1, both.2, nonzero, rfl⟩

theorem RationalText.goes (written : RationalText ucd radix text q) :
    ∀ c ∈ text, Passes ucd radix c ∨ c = '/'.toNat := by
  intro c member
  cases written with
  | integer integer => exact .inl (integer.passes ucd c member)
  | ratio ratio _ =>
    cases ratio with
    | mk numerator denominator =>
      rw [mem_append, mem_cons] at member
      obtain left | slash | right := member
      · exact .inl (numerator.passes ucd c left)
      · exact .inr slash
      · exact .inl ((IntegerText.unsigned denominator).passes ucd c right)

theorem IntegerText.unsigned_iff {v : Int} (integer : IntegerText ucd radix text v) :
    (∀ c ∈ text.head?, signCode c = false) ↔ ∃ n : Nat, DigitText ucd radix text n ∧ v = n := by
  constructor
  · intro unsigned
    cases integer with
    | unsigned written => exact ⟨_, written, rfl⟩
    | plus _ => exact absurd (unsigned _ rfl) (by decide)
    | minus _ => exact absurd (unsigned _ rfl) (by decide)
  · rintro ⟨n, written, _⟩ c head
    exact digit_no_sign ucd (written.digit ucd c (mem_of_mem_head? head))

variable {stop : Nat}

theorem reads_nothing {result : Option Parsed} {written : ℚ → Prop}
    (refused : ∀ x, result ≠ some (.rational x stop)) (unwritten : ∀ q, ¬ written q) :
    Reads result stop written :=
  ⟨fun x found => absurd found (refused x), fun q found => absurd found (unwritten q)⟩

/-- No sign follows the slash between two integers. -/
def NoSignedDenominator (radix : Nat) (text : List Nat) : Prop :=
  ∀ num den, text = num ++ '/'.toNat :: den → SignedDigits ucd radix num →
    SignedDigits ucd radix den → ∀ c ∈ den.head?, signCode c = false

theorem noSignedDenominator_iff {d : Int}
    (numerator : IntegerText ucd radix num n) (denominator : IntegerText ucd radix den d) :
    NoSignedDenominator ucd radix (num ++ '/'.toNat :: den) ↔
      ∃ k : Nat, DigitText ucd radix den k ∧ d = k := by
  rw [← denominator.unsigned_iff]
  constructor
  · exact fun unsigned => unsigned num den rfl (numerator.signedDigits ucd)
      (denominator.signedDigits ucd)
  · intro unsigned top bottom same signedTop signedBottom
    obtain ⟨_, right⟩ := slash_sides ucd signedTop.passes signedBottom.passes same
    exact right ▸ unsigned

/-- The results for numbers without dots and for denominators of zero. -/
def ReadsRational (result : Option Parsed) (stop radix : Nat) (text : List Nat) : Prop :=
  Reads result stop (RationalText ucd radix text) ∧
    (result = some .nil ↔ ∃ n, RatioText ucd radix text n 0)

variable {str : List Nat} {start : Nat}

theorem readsRational_whole (le : radix ≤ 36) (ordered : start ≤ stop) (inside : stop ≤ str.length)
    (passes : ∀ c ∈ range str start stop, Passes ucd radix c) :
    ReadsRational ucd (some (parseWholeIn ucd str start stop radix)) stop radix
      (range str start stop) := by
  have whole (x : Rational) := @parseWholeIn_iff ucd radix le str start stop ordered inside x
  refine ⟨⟨?_, ?_⟩, ?_⟩
  · intro x found
    obtain ⟨v, integer, rfl⟩ := (whole x).mp (some.inj found)
    have is := bigRegisterNormalize_is v
    refine ⟨is.canonical, ?_⟩
    rw [Rational.value, is.value_eq]
    exact .integer integer
  · intro q written
    obtain ⟨v, integer, rfl⟩ := written.integer_of_passes ucd passes
    have is := bigRegisterNormalize_is v
    exact ⟨_, congrArg some ((whole _).mpr ⟨v, integer, rfl⟩), is.canonical,
      congrArg Int.cast is.value_eq⟩
  · constructor
    · intro found
      rw [parseWholeIn] at found
      split at found <;> cases found
    · rintro ⟨n, ratio⟩
      exact absurd (ratio.slash ucd) (not_mem_of_passes ucd passes).1

theorem readsRational_ratio (le : radix ≤ 36) (before : start < stop) (inside : stop ≤ str.length)
    (split : range str start stop = num ++ '/'.toNat :: den) :
    ReadsRational ucd (some (parseRatioIn ucd str start (start + num.length) stop radix)) stop radix
        (num ++ '/'.toNat :: den) ↔
      NoSignedDenominator ucd radix (num ++ '/'.toNat :: den) := by
  have length := congrArg List.length split
  rw [length_range inside, length_append, length_cons] at length
  have numIs := range_front split
  have denIs := range_rest split
  by_cases taken : parseRatioIn ucd str start (start + num.length) stop radix = .objnull
  · have refused (n d : Int) (numerator : IntegerText ucd radix num n)
        (denominator : IntegerText ucd radix den d) : False := by
      have made := parseRatioIn_integers ucd le (Nat.le_add_right start num.length) (by omega)
        inside (numIs.symm ▸ numerator) (denIs.symm ▸ denominator)
      rw [taken] at made
      split at made
      · cases made
      · obtain ⟨x, same, _⟩ := made
        cases same
    rw [taken]
    refine iff_of_true ⟨reads_nothing ?_ ?_, ?_⟩ ?_
    · intro x found
      cases found
    · intro q written
      obtain ⟨n, d, numerator, denominator, _⟩ := written.sides ucd
      exact refused _ _ numerator (.unsigned denominator)
    · refine iff_of_false ?_ ?_
      · intro found
        cases found
      · rintro ⟨n, ratio⟩
        have both := ratio.sides ucd
        exact refused _ _ both.1 (.unsigned both.2)
    · intro top bottom same signedTop signedBottom
      obtain ⟨rfl, rfl⟩ := slash_sides ucd signedTop.passes signedBottom.passes same
      obtain ⟨n, numerator⟩ := (signedDigits_iff ucd).mp signedTop
      obtain ⟨d, denominator⟩ := (signedDigits_iff ucd).mp signedBottom
      exact absurd (refused n d numerator denominator) not_false
  · obtain ⟨⟨n, numerator⟩, d, denominator⟩ := integers_of_parseRatioIn ucd le
      (Nat.le_add_right start num.length) (by omega) inside taken
    have made := parseRatioIn_integers ucd le (Nat.le_add_right start num.length) (by omega) inside
      numerator denominator
    rw [numIs] at numerator
    rw [denIs] at denominator
    rw [noSignedDenominator_iff ucd numerator denominator]
    constructor
    · rintro ⟨reads, zero⟩
      split at made
      · rename_i isZero
        obtain ⟨m, ratio⟩ := zero.mp (congrArg some made)
        exact ⟨0, (ratio.sides ucd).2, isZero⟩
      · obtain ⟨x, found, _⟩ := made
        obtain ⟨_, k, _, written, _⟩ := RationalText.sides ucd
          (reads.sound x (congrArg some found)).2
        exact ⟨k, written, denominator.unique ucd le (.unsigned written)⟩
    · rintro ⟨k, written, rfl⟩
      have same {m : Int} {j : Nat} (left : IntegerText ucd radix num m)
          (right : DigitText ucd radix den j) : m = n ∧ j = k := by
        refine ⟨left.unique ucd le numerator, ?_⟩
        exact Int.ofNat.inj ((IntegerText.unsigned right).unique ucd le denominator)
      split at made
      · rename_i isZero
        refine ⟨reads_nothing ?_ ?_, ?_⟩
        · intro x found
          rw [made] at found
          cases found
        · intro q rational
          obtain ⟨m, j, left, right, nonzero, _⟩ := rational.sides ucd
          exact nonzero ((same left right).2.trans (Int.ofNat.inj isZero))
        · refine iff_of_true (congrArg some made) ⟨n, .mk numerator ?_⟩
          rwa [Int.ofNat.inj isZero] at written
      · rename_i nonzero
        obtain ⟨x, found, canonical, value⟩ := made
        refine ⟨⟨?_, ?_⟩, ?_⟩
        · intro y again
          rw [found, some.injEq, Parsed.rational.injEq] at again
          rw [← again.1, value]
          exact ⟨canonical, .ratio (.mk numerator written) (mt (congrArg Int.ofNat) nonzero)⟩
        · intro q rational
          obtain ⟨m, j, left, right, _, rfl⟩ := rational.sides ucd
          obtain ⟨rfl, rfl⟩ := same left right
          exact ⟨x, congrArg some found, canonical, value⟩
        · refine iff_of_false ?_ ?_
          · intro none
            rw [found] at none
            cases none
          · rintro ⟨m, ratio⟩
            have both := ratio.sides ucd
            exact nonzero (congrArg Int.ofNat (same both.1 both.2).2.symm)

theorem noSignedDenominator_of_no_slash
    (noSlash : '/'.toNat ∉ text) : NoSignedDenominator ucd radix text := by
  rintro num den rfl
  exact absurd (mem_append_right _ mem_cons_self) noSlash

theorem readsRational_iff {base : Bool} (le : radix ≤ 36) (before : start < stop)
    (inside : stop ≤ str.length)
    (noDot : '.'.toNat ∉ range str start stop)
    (noMarker : ∀ c ∈ range str start stop, exponentMarkerP c = true → ucd.digitp c radix ≠ none) :
    ReadsRational ucd (parseNumberIn ucd base str start stop radix) stop radix
        (range str start stop) ↔
      NoSignedDenominator ucd radix (range str start stop) := by
  obtain ⟨front, rest, split, passes, stops⟩ := split_passes ucd radix (range str start stop)
  rw [parseNumberIn_front ucd before split passes]
  cases rest with
  | nil =>
    rw [append_nil] at split
    rw [← split] at passes
    rw [parseRangeFrom, if_neg Bool.false_ne_true]
    exact iff_of_true (readsRational_whole ucd le (Nat.le_of_lt before) inside passes)
      (noSignedDenominator_of_no_slash ucd (not_mem_of_passes ucd passes).1)
  | cons c rest =>
    have stops := stops c rfl
    have member : c ∈ range str start stop :=
      split ▸ mem_append_right _ mem_cons_self
    by_cases slash : c = '/'.toNat
    · subst slash
      rw [parseRangeFrom, if_pos rfl, split]
      exact readsRational_ratio ucd le before inside split
    · have notDot : c ≠ '.'.toNat := by
        rintro rfl
        exact noDot member
      obtain ⟨noDigit, ends⟩ := @parseRangeFrom_stops ucd radix c rest base str start stop stops
        slash notDot (start + front.length) false
      rw [ends, if_neg fun marks => noMarker c member marks noDigit]
      have alien {P : Prop} (goes : Passes ucd radix c ∨ c = '/'.toNat) : P :=
        absurd goes (not_or.mpr ⟨stops, slash⟩)
      refine iff_of_true ⟨reads_nothing ?_ ?_, ?_⟩ ?_
      · intro x found
        cases found
      · exact fun q written => alien (written.goes ucd c member)
      · refine iff_of_false ?_ ?_
        · intro found
          cases found
        · rintro ⟨n, ratio⟩
          generalize range str start stop = text at ratio member
          cases ratio with
          | mk numerator denominator =>
            rw [mem_append, mem_cons] at member
            obtain left | same | right := member
            · exact alien (.inl (numerator.passes ucd c left))
            · exact alien (.inr same)
            · exact alien (.inl ((IntegerText.unsigned denominator).passes ucd c right))
      · intro num den same signedNum signedDen
        rw [same, mem_append, mem_cons] at member
        obtain left | same | right := member
        · exact alien (.inl (signedNum.passes ucd c left))
        · exact alien (.inr same)
        · exact alien (.inl (signedDen.passes ucd c right))

end Ecl.Text
