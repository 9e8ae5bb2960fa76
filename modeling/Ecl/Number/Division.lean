import Mathlib.Algebra.Order.Field.Basic
import Mathlib.Tactic.Linarith
import Ecl.Number.RationalLaw

/- The rational cases of FLOOR, CEILING, TRUNCATE and ROUND in num_co.d, and of the
comparison that ROUND uses. -/
namespace Ecl.Number

namespace Integer

/-- The quotient and the remainder of two fixnums in FLOOR. -/
def floorFix (a b : BitVec 64) : Integer × Integer :=
  let q := a.sdiv b
  let r := a.srem b
  -- opposite sign and some remainder
  if (r ^^^ b).toInt < 0 ∧ r ≠ 0 then (makeFixnum (q - 1), makeFixnum (r + b))
  else (makeFixnum q, makeFixnum r)

/-- The quotient and the remainder of two fixnums in CEILING. -/
def ceilingFix (a b : BitVec 64) : Integer × Integer :=
  let q := a.sdiv b
  let r := a.srem b
  -- same signs and some remainder
  if 0 < (r ^^^ b).toInt ∧ r ≠ 0 then (makeFixnum (q + 1), makeFixnum (r - b))
  else (makeFixnum q, makeFixnum r)

/-- The function mpz_fdiv_qr. -/
def fdivQr (a b : Int) : Int × Int := (a.fdiv b, a.fmod b)

/-- The function mpz_cdiv_qr. -/
def cdivQr (a b : Int) : Int × Int := (-(-a).fdiv b, a + (-a).fdiv b * b)

/-- The cases of FLOOR and CEILING for two integers: a division of words for two fixnums,
one of GMP for the rest. -/
def quotient (onFix : BitVec 64 → BitVec 64 → Integer × Integer) (onBig : Int → Int → Int × Int) :
    Integer → Integer → Except ArithmeticError (Integer × Integer)
  | .fixnum x, .fixnum y => if fix y = 0 then .error .trap else .ok (onFix (fix x) (fix y))
  | x, y =>
    if y.value = 0 then .error .trap
    else
      let (q, r) := onBig x.value y.value
      .ok (bigRegisterNormalize q, bigRegisterNormalize r)

def floor2 : Integer → Integer → Except ArithmeticError (Integer × Integer) :=
  quotient floorFix fdivQr

def ceiling2 : Integer → Integer → Except ArithmeticError (Integer × Integer) :=
  quotient ceilingFix cdivQr

/-- The function ecl_number_compare on integers; only the sign of mpz_cmp is known. -/
def numberCompare : Integer → Integer → Int
  | .fixnum x, .fixnum y =>
    if (fix x).toInt < (fix y).toInt then -1 else if fix x ≠ fix y then 1 else 0
  | .fixnum _, .bignum y => if bigSize y < 0 then 1 else -1
  | .bignum x, .fixnum _ => if bigSize x < 0 then -1 else 1
  | .bignum x, .bignum y => (x - y).sign

end Integer

namespace Rational

/-- The two values of a division. -/
abbrev Values : Type := Except ArithmeticError (Integer × Rational)

/-- The cases of FLOOR and CEILING by the types of the arguments, over the division of
integers. -/
def quotient (onIntegers : Integer → Integer → Except ArithmeticError (Integer × Integer)) :
    Rational → Rational → Values
  | .integer x, .integer y => do
      let (v0, v1) ← onIntegers x y
      .ok (v0, .integer v1)
  | .integer x, .ratio num den => do
      let (v0, r) ← onIntegers (x.times den) num
      let v1 ← makeRatio r den
      .ok (v0, v1)
  | .ratio num den, .ratio num' den' => do
      let (v0, r) ← onIntegers (num.times den') (den.times num')
      let v1 ← makeRatio r (den.times den')
      .ok (v0, v1)
  | .ratio num den, .integer y => do
      let (v0, r) ← onIntegers num (den.times y)
      let v1 ← divide (.integer r) (.integer den)
      .ok (v0, v1)

def floor2 : Rational → Rational → Values := quotient Integer.floor2

def ceiling2 : Rational → Rational → Values := quotient Integer.ceiling2

def plusp : Rational → Bool
  | .integer x => x.plusp
  | .ratio num _ => num.plusp

def truncate2 (x y : Rational) : Values :=
  if x.plusp ≠ y.plusp then ceiling2 x y else floor2 x y

def numberCompare : Rational → Rational → Int
  | .integer x, .integer y => x.numberCompare y
  | .integer x, .ratio num den => (x.times den).numberCompare num
  | .ratio num den, .integer y => num.numberCompare (y.times den)
  | .ratio num den, .ratio num' den' => (num.times den').numberCompare (num'.times den)

/-- The constant cl_core.plus_half. -/
def plusHalf : Rational := .ratio (makeFixnum 1) (makeFixnum 2)

/-- The constant cl_core.minus_half. -/
def minusHalf : Rational := .ratio (makeFixnum (-1)) (makeFixnum 2)

def roundRatio (num den : Integer) : Except ArithmeticError Integer := do
  let q1 ← integerDivide num den
  let r ← minus (.ratio num den) (.integer q1)
  if r.minusp then
    let c := numberCompare minusHalf r
    .ok (if 0 < c ∨ c = 0 ∧ q1.oddp then q1.oneMinus else q1)
  else
    let c := numberCompare r plusHalf
    .ok (if 0 < c ∨ c = 0 ∧ q1.oddp then q1.onePlus else q1)

def numberRemainder (x y q : Rational) : Except ArithmeticError Rational := do
  let z ← times q y
  minus x z

def round2 (x y : Rational) : Values := do
  let q ← divide x y
  match q with
  | .integer v0 => .ok (v0, .integer (makeFixnum 0))
  | .ratio num den => do
      let q1 ← roundRatio num den
      let v1 ← numberRemainder x y (.integer q1)
      .ok (q1, v1)

/-- The functions of one argument, over those of two. The remainder of two integers is an
integer; ecl_gcd refuses a ratio. -/
def quotient1 (twoArguments : Rational → Rational → Values) : Rational → Values
  | .integer x => .ok (x, .integer (makeFixnum 0))
  | .ratio num den => do
      let (v0, r) ← twoArguments (.integer num) (.integer den)
      match r with
      | .integer r => do
          let v1 ← makeRatio r den
          .ok (v0, v1)
      | .ratio _ _ => .error .notInteger

def floor1 : Rational → Values := quotient1 floor2

def ceiling1 : Rational → Values := quotient1 ceiling2

def truncate1 : Rational → Values := quotient1 truncate2

def round1 : Rational → Values := quotient1 round2

end Rational

/- FLOOR and CEILING split a rational as the language says, unless the division of two
fixnums leaves the fixnums. -/

open Int

/-- The remainder of FLOOR as a part of the divisor. -/
def FloorPart (t : ℚ) : Prop := 0 ≤ t ∧ t < 1

/-- The remainder of CEILING as a part of the divisor. -/
def CeilingPart (t : ℚ) : Prop := -1 < t ∧ t ≤ 0

/-- A quotient and a remainder that make up a number again, the remainder being a given
part of the divisor. -/
structure Splits (part : ℚ → Prop) (x y q r : ℚ) : Prop where
  whole : x = q * y + r
  part : part (r / y)

/-- The two fixnums whose quotient is no fixnum. -/
def LeastByMinusOne (x y : Int) : Prop := x = mostNegativeFixnum ∧ y = -1

namespace Integer

/-- A division of integers that returns two canonical integers, of which the second is a
given part of the divisor. -/
def Divides (part : ℚ → Prop) (result : Except ArithmeticError (Integer × Integer)) (x y : Int) :
    Prop :=
  ∃ q r : Integer, result = .ok (q, r) ∧ q.Canonical ∧ r.Canonical ∧
    Splits part x y q.value r.value

variable {r : Int}

theorem floorPart_of_rest {b : Int}
    (rest : 0 < b ∧ 0 ≤ r ∧ r < b ∨ b < 0 ∧ b < r ∧ r ≤ 0) : FloorPart (r / b) := by
  rcases rest with ⟨positive, low, high⟩ | ⟨negative, low, high⟩
  · have divisor : (0 : ℚ) < b := cast_pos.mpr positive
    exact ⟨div_nonneg (by exact_mod_cast low) divisor.le,
      (div_lt_one divisor).mpr (cast_lt.mpr high)⟩
  · have divisor : (b : ℚ) < 0 := cast_lt_zero.mpr negative
    exact ⟨div_nonneg_of_nonpos (cast_nonpos.mpr high) divisor.le,
      (div_lt_one_of_neg divisor).mpr (cast_lt.mpr low)⟩

theorem ceilingPart_iff (t : ℚ) : CeilingPart t ↔ FloorPart (-t) := by
  constructor
  · rintro ⟨low, high⟩
    exact ⟨by linarith, by linarith⟩
  · rintro ⟨low, high⟩
    exact ⟨by linarith, by linarith⟩

theorem ceilingPart_of_rest {b : Int}
    (rest : 0 < b ∧ 0 ≤ -r ∧ -r < b ∨ b < 0 ∧ b < -r ∧ -r ≤ 0) : CeilingPart (r / b) := by
  rw [ceilingPart_iff, ← neg_div, ← cast_neg]
  exact floorPart_of_rest rest

theorem splits_of_int {part : ℚ → Prop} {x y q : Int} (whole : x = q * y + r)
    (rest : part (r / y)) : Splits part (x : ℚ) y q r :=
  ⟨by exact_mod_cast whole, rest⟩

theorem toInt_srem_fix (a b : BitVec 62) :
    ((fix a).srem (fix b)).toInt = a.toInt.tmod b.toInt := by
  rw [BitVec.toInt_srem, toInt_fix, toInt_fix]

theorem toInt_xor_neg_iff (a b : BitVec 64) :
    (a ^^^ b).toInt < 0 ↔ ¬ (a.toInt < 0 ↔ b.toInt < 0) := by
  have sign (w : BitVec 64) : w.toInt < 0 ↔ w.msb = true := by
    rw [BitVec.msb_eq_toInt, decide_eq_true_iff]
  rw [sign, sign, sign, BitVec.msb_xor]
  cases a.msb <;> cases b.msb <;> simp

theorem toInt_xor_pos_iff (a b : BitVec 64) (differ : a ≠ b) :
    0 < (a ^^^ b).toInt ↔ (a.toInt < 0 ↔ b.toInt < 0) := by
  have nonzero : (a ^^^ b).toInt ≠ 0 := by
    intro zero
    exact differ (BitVec.xor_eq_zero_iff.mp (BitVec.eq_of_toInt_eq zero))
  have negative := toInt_xor_neg_iff a b
  constructor
  · intro positive
    by_contra opposite
    have := negative.mpr opposite
    omega
  · intro same
    have : ¬ (a ^^^ b).toInt < 0 := fun below => negative.mp below same
    omega

/-- The quotient and the remainder of two fixnums, as words. -/
structure WordQuotient (a b : BitVec 62) : Prop where
  quotient : ((fix a).sdiv (fix b)).toInt = a.toInt.tdiv b.toInt
  remainder : ((fix a).srem (fix b)).toInt = a.toInt.tmod b.toInt
  whole : a.toInt.tmod b.toInt + b.toInt * a.toInt.tdiv b.toInt = a.toInt
  small : (a.toInt.tmod b.toInt).natAbs < b.toInt.natAbs
  low : mostNegativeFixnum ≤ a.toInt.tdiv b.toInt
  high : a.toInt.tdiv b.toInt ≤ mostPositiveFixnum
  /-- A quotient with a remainder is at most half of the dividend. -/
  half : a.toInt.tmod b.toInt ≠ 0 → (a.toInt.tdiv b.toInt).natAbs ≤ 2 ^ 60

variable {b a : BitVec 62}

theorem wordQuotient (nonzero : b.toInt ≠ 0)
    (fits : ¬ LeastByMinusOne a.toInt b.toInt) : WordQuotient a b := by
  have range := fixnum_range a
  have quotientRange := tdiv_range range.1 range.2 fits
  rw [mostNegativeFixnum_eq, mostPositiveFixnum_eq] at range
  have small : (a.toInt.tmod b.toInt).natAbs < b.toInt.natAbs := by
    rw [natAbs_tmod]
    exact Nat.mod_lt _ (natAbs_pos.mpr nonzero)
  have whole := tmod_add_mul_tdiv a.toInt b.toInt
  have size : (a.toInt.tdiv b.toInt).natAbs = a.toInt.natAbs / b.toInt.natAbs :=
    natAbs_tdiv _ _
  refine ⟨?_, toInt_srem_fix a b, whole, small, quotientRange.1, quotientRange.2, ?_⟩
  · rw [BitVec.toInt_sdiv, toInt_fix, toInt_fix]
    rw [mostNegativeFixnum_eq, mostPositiveFixnum_eq] at quotientRange
    apply bmod_eq_of_le <;> omega
  · intro rest
    have halved : a.toInt.natAbs / b.toInt.natAbs ≤ a.toInt.natAbs / 2 :=
      Nat.div_le_div_left (by omega) (by omega)
    omega

theorem makeFixnum_of_word {w : BitVec 64} {n : Int} (word : w.toInt = n)
    (low : mostNegativeFixnum ≤ n) (high : n ≤ mostPositiveFixnum) : (makeFixnum w).Is n :=
  (makeFixnum_is (by omega) (by omega)).of_eq word

theorem srem_eq_zero_iff (word : WordQuotient a b) :
    (fix a).srem (fix b) = 0 ↔ a.toInt.tmod b.toInt = 0 := by
  rw [← word.remainder]
  constructor
  · intro zero
    rw [zero]
    rfl
  · intro zero
    exact BitVec.eq_of_toInt_eq zero

theorem word_values (word : WordQuotient a b) (shift : Int)
    (bound : shift.natAbs ≤ 1) (moves : shift ≠ 0 → a.toInt.tmod b.toInt ≠ 0)
    (less : (a.toInt.tmod b.toInt - shift * b.toInt).natAbs < b.toInt.natAbs) {q r : BitVec 64}
    (wordQ : q.toInt = (a.toInt.tdiv b.toInt + shift).bmod (2 ^ 64))
    (wordR : r.toInt = (a.toInt.tmod b.toInt - shift * b.toInt).bmod (2 ^ 64)) :
    (makeFixnum q).Is (a.toInt.tdiv b.toInt + shift) ∧
      (makeFixnum r).Is (a.toInt.tmod b.toInt - shift * b.toInt) := by
  have rangeB := fixnum_range b
  have low := word.low
  have high := word.high
  have half := word.half
  rw [mostNegativeFixnum_eq, mostPositiveFixnum_eq] at rangeB
  rw [mostNegativeFixnum_eq] at low
  rw [mostPositiveFixnum_eq] at high
  have fitsQ : -2305843009213693952 ≤ a.toInt.tdiv b.toInt + shift ∧
      a.toInt.tdiv b.toInt + shift ≤ 2305843009213693951 := by
    by_cases still : shift = 0
    · omega
    · have := half (moves still)
      omega
  constructor
  · apply makeFixnum_of_word (wordQ.trans (bmod_eq_of_le (by omega) (by omega)))
    · rw [mostNegativeFixnum_eq]
      omega
    · rw [mostPositiveFixnum_eq]
      omega
  · apply makeFixnum_of_word (wordR.trans (bmod_eq_of_le (by omega) (by omega)))
    · rw [mostNegativeFixnum_eq]
      omega
    · rw [mostPositiveFixnum_eq]
      omega

theorem floorFix_divides (nonzero : b.toInt ≠ 0) (fits : ¬ LeastByMinusOne a.toInt b.toInt) :
    Divides FloorPart (.ok (floorFix (fix a) (fix b))) a.toInt b.toInt := by
  have word := wordQuotient nonzero fits
  have whole := word.whole
  have small := word.small
  have sign := toInt_xor_neg_iff ((fix a).srem (fix b)) (fix b)
  rw [word.remainder, toInt_fix] at sign
  have zero := srem_eq_zero_iff word
  unfold floorFix
  by_cases moves : (((fix a).srem (fix b)) ^^^ fix b).toInt < 0 ∧ (fix a).srem (fix b) ≠ 0
  · have opposite := sign.mp moves.1
    have rest := mt zero.mpr moves.2
    obtain ⟨isQ, isR⟩ := word_values word (-1) (by decide) (fun _ => rest) (by omega)
      (q := (fix a).sdiv (fix b) - 1) (r := (fix a).srem (fix b) + fix b)
      (by rw [BitVec.toInt_sub, word.quotient]; rfl)
      (by rw [BitVec.toInt_add, word.remainder, toInt_fix, neg_one_mul, sub_neg_eq_add])
    simp only [if_pos moves]
    refine ⟨_, _, rfl, isQ.canonical, isR.canonical, ?_⟩
    rw [isQ.value_eq, isR.value_eq]
    refine splits_of_int (by linarith) (floorPart_of_rest ?_)
    omega
  · obtain ⟨isQ, isR⟩ := word_values word 0 (by decide) (fun other => absurd rfl other) (by omega)
      (q := (fix a).sdiv (fix b)) (r := (fix a).srem (fix b))
      (by
        rw [← BitVec.toInt_bmod_cancel, word.quotient, add_zero])
      (by
        rw [← BitVec.toInt_bmod_cancel, word.remainder, zero_mul, sub_zero])
    simp only [if_neg moves]
    refine ⟨_, _, rfl, isQ.canonical, isR.canonical, ?_⟩
    rw [isQ.value_eq, isR.value_eq]
    refine splits_of_int (by linarith) (floorPart_of_rest ?_)
    by_cases none : a.toInt.tmod b.toInt = 0
    · omega
    · have same : ¬ (((fix a).srem (fix b)) ^^^ fix b).toInt < 0 :=
        fun below => moves ⟨below, mt zero.mp none⟩
      have agree := not_not.mp (mt sign.mpr same)
      omega

theorem ceilingFix_divides (nonzero : b.toInt ≠ 0) (fits : ¬ LeastByMinusOne a.toInt b.toInt) :
    Divides CeilingPart (.ok (ceilingFix (fix a) (fix b))) a.toInt b.toInt := by
  have word := wordQuotient nonzero fits
  have whole := word.whole
  have small := word.small
  have differ : (fix a).srem (fix b) ≠ fix b := by
    intro equal
    have values := congrArg BitVec.toInt equal
    rw [word.remainder, toInt_fix] at values
    omega
  have sign := toInt_xor_pos_iff _ _ differ
  rw [word.remainder, toInt_fix] at sign
  have zero := srem_eq_zero_iff word
  unfold ceilingFix
  by_cases moves : 0 < (((fix a).srem (fix b)) ^^^ fix b).toInt ∧ (fix a).srem (fix b) ≠ 0
  · have same := sign.mp moves.1
    have rest := mt zero.mpr moves.2
    obtain ⟨isQ, isR⟩ := word_values word 1 (by decide) (fun _ => rest) (by omega)
      (q := (fix a).sdiv (fix b) + 1) (r := (fix a).srem (fix b) - fix b)
      (by rw [BitVec.toInt_add, word.quotient]; rfl)
      (by rw [BitVec.toInt_sub, word.remainder, toInt_fix, one_mul])
    simp only [if_pos moves]
    refine ⟨_, _, rfl, isQ.canonical, isR.canonical, ?_⟩
    rw [isQ.value_eq, isR.value_eq]
    refine splits_of_int (by linarith) (ceilingPart_of_rest ?_)
    omega
  · obtain ⟨isQ, isR⟩ := word_values word 0 (by decide) (fun other => absurd rfl other) (by omega)
      (q := (fix a).sdiv (fix b)) (r := (fix a).srem (fix b))
      (by
        rw [← BitVec.toInt_bmod_cancel, word.quotient, add_zero])
      (by
        rw [← BitVec.toInt_bmod_cancel, word.remainder, zero_mul, sub_zero])
    simp only [if_neg moves]
    refine ⟨_, _, rfl, isQ.canonical, isR.canonical, ?_⟩
    rw [isQ.value_eq, isR.value_eq]
    refine splits_of_int (by linarith) (ceilingPart_of_rest ?_)
    by_cases none : a.toInt.tmod b.toInt = 0
    · omega
    · have opposite : ¬ 0 < (((fix a).srem (fix b)) ^^^ fix b).toInt :=
        fun above => moves ⟨above, mt zero.mp none⟩
      have disagree := mt sign.mpr opposite
      omega

/-- A division of GMP that splits every pair of integers. -/
def DividesInts (part : ℚ → Prop) (onBig : Int → Int → Int × Int) : Prop :=
  ∀ a b : Int, b ≠ 0 → Splits part a b (onBig a b).1 (onBig a b).2

theorem fmod_rest {a b : Int} (nonzero : b ≠ 0) :
    0 < b ∧ 0 ≤ a.fmod b ∧ a.fmod b < b ∨ b < 0 ∧ b < a.fmod b ∧ a.fmod b ≤ 0 := by
  rcases lt_or_gt_of_ne nonzero with negative | positive
  · have low := fmod_nonneg_of_pos (-a) (b := -b) (by omega)
    have high := fmod_lt_of_pos (-a) (b := -b) (by omega)
    rw [Int.neg_fmod_neg] at low high
    omega
  · have low := fmod_nonneg_of_pos a positive
    have high := fmod_lt_of_pos a positive
    omega

theorem fdivQr_divides : DividesInts FloorPart fdivQr := by
  intro a b nonzero
  apply splits_of_int (fdiv_mul_add_fmod a b).symm
  exact floorPart_of_rest (fmod_rest nonzero)

theorem cdivQr_divides : DividesInts CeilingPart cdivQr := by
  intro a b nonzero
  have whole := fdiv_mul_add_fmod (-a) b
  apply splits_of_int (q := -(-a).fdiv b) (r := a + (-a).fdiv b * b) (by ring)
  apply ceilingPart_of_rest
  have rest := fmod_rest (a := -a) nonzero
  have opposite : -(a + (-a).fdiv b * b) = (-a).fmod b := by linarith
  rw [opposite]
  exact rest

variable {x y : Integer}

theorem quotient_divides {part : ℚ → Prop} {onFix : BitVec 64 → BitVec 64 → Integer × Integer}
    {onBig : Int → Int → Int × Int} (nonzero : y.value ≠ 0)
    (fits : ¬ LeastByMinusOne x.value y.value)
    (words : ∀ a b : BitVec 62, b.toInt ≠ 0 → ¬ LeastByMinusOne a.toInt b.toInt →
      Divides part (.ok (onFix (fix a) (fix b))) a.toInt b.toInt)
    (registers : DividesInts part onBig) :
    Divides part (quotient onFix onBig x y) x.value y.value := by
  have onRegisters : Divides part (.ok (bigRegisterNormalize (onBig x.value y.value).1,
      bigRegisterNormalize (onBig x.value y.value).2)) x.value y.value := by
    have isQ := bigRegisterNormalize_is (onBig x.value y.value).1
    have isR := bigRegisterNormalize_is (onBig x.value y.value).2
    refine ⟨_, _, rfl, isQ.canonical, isR.canonical, ?_⟩
    rw [isQ.value_eq, isR.value_eq]
    exact registers _ _ nonzero
  cases x with
  | fixnum a =>
    cases y with
    | fixnum b =>
      have nonzeroWord : fix b ≠ 0 := by
        intro zero
        apply nonzero
        show b.toInt = 0
        rw [← toInt_fix, zero]
        rfl
      simp only [quotient, if_neg nonzeroWord]
      exact words a b nonzero fits
    | bignum b =>
      simp only [quotient, if_neg nonzero]
      exact onRegisters
  | bignum a =>
    simp only [quotient, if_neg nonzero]
    exact onRegisters

theorem floor2_divides (nonzero : y.value ≠ 0) (fits : ¬ LeastByMinusOne x.value y.value) :
    Divides FloorPart (floor2 x y) x.value y.value :=
  quotient_divides nonzero fits (fun _ _ => floorFix_divides) fdivQr_divides

theorem ceiling2_divides (nonzero : y.value ≠ 0) (fits : ¬ LeastByMinusOne x.value y.value) :
    Divides CeilingPart (ceiling2 x y) x.value y.value :=
  quotient_divides nonzero fits (fun _ _ => ceilingFix_divides) cdivQr_divides

end Integer

end Ecl.Number
