import Ecl.Number.Integer

/- The integer operations are exact and their results canonical. -/
namespace Ecl.Number

open Nat Int

theorem mostPositiveFixnum_eq : mostPositiveFixnum = 2305843009213693951 := by decide

theorem mostNegativeFixnum_eq : mostNegativeFixnum = -2305843009213693952 := by decide

theorem toInt_fix (n : BitVec 62) : (fix n).toInt = n.toInt :=
  BitVec.toInt_signExtend_of_le (by decide)

theorem fixnum_range (n : BitVec 62) :
    mostNegativeFixnum ≤ n.toInt ∧ n.toInt ≤ mostPositiveFixnum := by
  have below := BitVec.le_toInt n
  have above := BitVec.toInt_lt (x := n)
  rw [mostNegativeFixnum_eq, mostPositiveFixnum_eq]
  norm_num at below above
  omega

theorem makeFixnum_is {w : BitVec 64} (low : mostNegativeFixnum ≤ w.toInt)
    (high : w.toInt ≤ mostPositiveFixnum) : (makeFixnum w).Is w.toInt := by
  refine ⟨trivial, ?_⟩
  rw [mostNegativeFixnum_eq] at low
  rw [mostPositiveFixnum_eq] at high
  show (w.setWidth 62).toInt = w.toInt
  have word := BitVec.toInt_eq_toNat_bmod w
  rw [BitVec.toInt_setWidth, ← bmod_bmod_of_dvd (n := 2 ^ 62) (m := 2 ^ 64) (by decide), ← word]
  apply bmod_eq_of_le <;> omega

theorem makeInteger_is (l : BitVec 64) : (makeInteger l).Is l.toInt := by
  unfold makeInteger
  split
  · rename_i outside
    exact ⟨outside.symm, rfl⟩
  · rename_i inside
    exact makeFixnum_is (by omega) (by omega)

theorem bigSize_zero : bigSize 0 = 0 := by simp only [bigSize, if_true]

variable {v : Int}

theorem bigSize_pos (positive : 0 < v) : bigSize v = (Nat.log2 v.natAbs / 64 + 1 : Nat) := by
  rw [bigSize, if_neg (by omega), sign_eq_one_of_pos positive, one_mul]

theorem bigSize_neg (negative : v < 0) : bigSize v = -(Nat.log2 v.natAbs / 64 + 1 : Nat) := by
  rw [bigSize, if_neg (by omega), sign_eq_neg_one_of_neg negative, neg_one_mul]

theorem lt_of_one_limb {n : Nat} (nonzero : n ≠ 0) (one : Nat.log2 n / 64 + 1 = 1) :
    n < 2 ^ 64 := by
  have small : Nat.log2 n < 64 := by omega
  exact (log2_lt nonzero).mp small

theorem one_limb_of_lt {n : Nat} (nonzero : n ≠ 0) (small : n < 2 ^ 64) :
    Nat.log2 n / 64 + 1 = 1 := by
  have low : Nat.log2 n < 64 := (log2_lt nonzero).mpr small
  omega

theorem bigSize_neg_iff (v : Int) : bigSize v < 0 ↔ v < 0 := by
  rcases lt_trichotomy v 0 with negative | rfl | positive
  · rw [bigSize_neg negative]
    omega
  · rw [bigSize_zero]
  · rw [bigSize_pos positive]
    omega

theorem bigSize_pos_iff (v : Int) : 0 < bigSize v ↔ 0 < v := by
  rcases lt_trichotomy v 0 with negative | rfl | positive
  · rw [bigSize_neg negative]
    omega
  · rw [bigSize_zero]
  · rw [bigSize_pos positive]
    omega

theorem toNat_bigLimb (small : v.natAbs < 2 ^ 64) : (bigLimb v).toNat = v.natAbs := by
  rw [bigLimb, BitVec.toNat_ofNat]
  exact mod_eq_of_lt small

theorem bignum_is (outside : v < mostNegativeFixnum ∨ mostPositiveFixnum < v) :
    (Integer.bignum v).Is v :=
  ⟨outside, rfl⟩

theorem bigRegisterNormalize_pos (positive : 0 < v) : (bigRegisterNormalize v).Is v := by
  have range := mostPositiveFixnum_eq
  have size := bigSize_pos positive
  rw [bigRegisterNormalize, if_neg (by omega)]
  split
  · rename_i one
    have small : v.natAbs < 2 ^ 64 := lt_of_one_limb (by omega) (by omega)
    have limb := toNat_bigLimb small
    split
    · rename_i fits
      have word : (bigLimb v).toInt = v := by
        rw [BitVec.toInt_eq_toNat_of_lt (by omega), limb]
        omega
      have made := makeFixnum_is (w := bigLimb v) (by rw [word, mostNegativeFixnum_eq]; omega)
        (by omega)
      rwa [word] at made
    · exact bignum_is (.inr (by omega))
  · rename_i several
    rw [if_neg (by omega)]
    refine bignum_is (.inr ?_)
    by_contra within
    exact several (by rw [size, one_limb_of_lt (by omega) (by omega)]; rfl)

theorem bigRegisterNormalize_neg (negative : v < 0) : (bigRegisterNormalize v).Is v := by
  have range := mostNegativeFixnum_eq
  have size := bigSize_neg negative
  rw [bigRegisterNormalize, if_neg (by omega), if_neg (by omega)]
  split
  · rename_i one
    have small : v.natAbs < 2 ^ 64 := lt_of_one_limb (by omega) (by omega)
    have limb := toNat_bigLimb small
    split
    · rename_i fits
      have word : (-bigLimb v).toInt = v := by
        rw [BitVec.toInt_neg, BitVec.toInt_eq_toNat_of_lt (by omega), limb]
        rw [bmod_eq_of_le] <;> omega
      have made := makeFixnum_is (w := -bigLimb v) (by omega)
        (by rw [word, mostPositiveFixnum_eq]; omega)
      rwa [word] at made
    · exact bignum_is (.inl (by omega))
  · rename_i several
    refine bignum_is (.inl ?_)
    by_contra within
    exact several (by rw [size, one_limb_of_lt (by omega) (by omega)]; rfl)

theorem bigRegisterNormalize_is (v : Int) : (bigRegisterNormalize v).Is v := by
  rcases lt_trichotomy v 0 with negative | rfl | positive
  · exact bigRegisterNormalize_neg negative
  · exact ⟨trivial, by decide⟩
  · exact bigRegisterNormalize_pos positive

namespace Integer

theorem minusp_iff (x : Integer) : x.minusp = true ↔ x.value < 0 := by
  cases x with
  | fixnum n =>
    rw [minusp, decide_eq_true_iff, toInt_fix]
    rfl
  | bignum v =>
    rw [minusp, decide_eq_true_iff, bigSize_neg_iff]
    rfl

theorem plusp_iff (x : Integer) : x.plusp = true ↔ 0 < x.value := by
  cases x with
  | fixnum n =>
    rw [plusp, decide_eq_true_iff, toInt_fix]
    rfl
  | bignum v =>
    rw [plusp, decide_eq_true_iff, bigSize_pos_iff]
    rfl

variable {x y : Integer}

theorem Is.unique {n : Int} (first : x.Is n) (second : y.Is n) : x = y := by
  obtain ⟨canonicalX, rfl⟩ := first
  obtain ⟨canonicalY, same⟩ := second
  cases x with
  | fixnum a =>
    have range := fixnum_range a
    cases y with
    | fixnum b => exact congrArg fixnum (BitVec.eq_of_toInt_eq same.symm)
    | bignum b =>
      simp only [value] at same
      simp only [Canonical] at canonicalY
      omega
  | bignum a =>
    cases y with
    | fixnum b =>
      have range := fixnum_range b
      simp only [value] at same
      simp only [Canonical] at canonicalX
      omega
    | bignum b => exact congrArg bignum same.symm

theorem Is.of_eq {n m : Int} (is : x.Is n) (same : n = m) : x.Is m := same ▸ is

theorem is_value (canonical : x.Canonical) : x.Is x.value := ⟨canonical, rfl⟩

variable {i : BitVec 64}

theorem bigTimesFix_is {b : Int} (canonical : (bignum b).Canonical) :
    (bigTimesFix b i).Is (b * i.toInt) := by
  unfold bigTimesFix
  split
  · rename_i one
    rw [one]
    exact ⟨canonical, (mul_one b).symm⟩
  · split
    · rename_i minus
      rw [minus]
      exact (bigRegisterNormalize_is (-b)).of_eq (mul_neg_one b).symm
    · exact bigRegisterNormalize_is _

theorem times_is (canonicalX : x.Canonical) (canonicalY : y.Canonical) :
    (x.times y).Is (x.value * y.value) := by
  cases x with
  | fixnum a =>
    cases y with
    | fixnum b =>
      apply (bigRegisterNormalize_is ((fix a).toInt * (fix b).toInt)).of_eq
      rw [toInt_fix, toInt_fix]
      rfl
    | bignum b =>
      have made := bigTimesFix_is canonicalY (i := fix a)
      rwa [toInt_fix, mul_comm] at made
  | bignum a =>
    cases y with
    | fixnum b =>
      have made := bigTimesFix_is canonicalX (i := fix b)
      rwa [toInt_fix] at made
    | bignum b => exact bigRegisterNormalize_is _

theorem toNat_neg_of_neg (negative : i.toInt ≤ 0) : ((-i).toNat : Int) = -i.toInt := by
  have below := i.isLt
  rw [BitVec.toNat_neg]
  rw [BitVec.toInt_eq_toNat_cond] at negative ⊢
  split at negative <;> omega

theorem toNat_of_nonneg (positive : 0 ≤ i.toInt) : (i.toNat : Int) = i.toInt := by
  have below := i.isLt
  rw [BitVec.toInt_eq_toNat_cond] at positive ⊢
  split at positive <;> omega

theorem bigPlusFix_is {b : Int} (canonical : (bignum b).Canonical) :
    (bigPlusFix b i).Is (b + i.toInt) := by
  unfold bigPlusFix
  split
  · rename_i zero
    rw [zero]
    exact ⟨canonical, (add_zero b).symm⟩
  · split
    · rename_i positive
      rw [← toNat_of_nonneg positive.le]
      exact bigRegisterNormalize_is _
    · rename_i negative
      have magnitude := toNat_neg_of_neg (not_lt.mp negative)
      apply (bigRegisterNormalize_is (b - (-i).toNat)).of_eq
      omega

theorem toInt_add_fix (a b : BitVec 62) : (fix a + fix b).toInt = a.toInt + b.toInt := by
  have rangeA := fixnum_range a
  have rangeB := fixnum_range b
  rw [mostNegativeFixnum_eq, mostPositiveFixnum_eq] at rangeA rangeB
  rw [BitVec.toInt_add, toInt_fix, toInt_fix]
  apply bmod_eq_of_le <;> omega

theorem toInt_sub_fix (a b : BitVec 62) : (fix a - fix b).toInt = a.toInt - b.toInt := by
  have rangeA := fixnum_range a
  have rangeB := fixnum_range b
  rw [mostNegativeFixnum_eq, mostPositiveFixnum_eq] at rangeA rangeB
  rw [BitVec.toInt_sub, toInt_fix, toInt_fix]
  apply bmod_eq_of_le <;> omega

theorem toInt_neg_fix (a : BitVec 62) : (-fix a).toInt = -a.toInt := by
  have range := fixnum_range a
  rw [mostNegativeFixnum_eq, mostPositiveFixnum_eq] at range
  rw [BitVec.toInt_neg, toInt_fix]
  apply bmod_eq_of_le <;> omega

theorem plus_is (canonicalX : x.Canonical) (canonicalY : y.Canonical) :
    (x.plus y).Is (x.value + y.value) := by
  cases x with
  | fixnum a =>
    cases y with
    | fixnum b => exact (makeInteger_is _).of_eq (toInt_add_fix a b)
    | bignum b =>
      have made := bigPlusFix_is canonicalY (i := fix a)
      rwa [toInt_fix, add_comm] at made
  | bignum a =>
    cases y with
    | fixnum b =>
      have made := bigPlusFix_is canonicalX (i := fix b)
      rwa [toInt_fix] at made
    | bignum b => exact bigRegisterNormalize_is _

theorem fixnum_minus_bignum (a : BitVec 62) (b : Int) :
    ((fixnum a).minus (bignum b)).Is (a.toInt - b) := by
  apply (bigRegisterNormalize_is _).of_eq
  have word := toInt_fix a
  split
  · rename_i positive
    have magnitude := toNat_of_nonneg positive.le
    omega
  · rename_i negative
    have magnitude := toNat_neg_of_neg (not_lt.mp negative)
    omega

theorem bignum_minus_fixnum {a : Int} (canonical : (bignum a).Canonical) (b : BitVec 62) :
    ((bignum a).minus (fixnum b)).Is (a - b.toInt) := by
  have word := toInt_fix b
  simp only [minus]
  split
  · rename_i zero
    have none : b.toInt = 0 := by rw [← word, zero]; rfl
    exact ⟨canonical, by rw [none, sub_zero]; rfl⟩
  · split
    · rename_i positive
      have magnitude := toNat_of_nonneg positive.le
      exact (bigRegisterNormalize_is _).of_eq (by omega)
    · rename_i negative
      have magnitude := toNat_neg_of_neg (not_lt.mp negative)
      exact (bigRegisterNormalize_is _).of_eq (by omega)

theorem minus_is (canonicalX : x.Canonical) (_canonicalY : y.Canonical) :
    (x.minus y).Is (x.value - y.value) := by
  cases x with
  | fixnum a =>
    cases y with
    | fixnum b => exact (makeInteger_is _).of_eq (toInt_sub_fix a b)
    | bignum b => exact fixnum_minus_bignum a b
  | bignum a =>
    cases y with
    | fixnum b => exact bignum_minus_fixnum canonicalX b
    | bignum b => exact bigRegisterNormalize_is _

theorem negate_is (x : Integer) : x.negate.Is (-x.value) := by
  cases x with
  | fixnum a => exact (makeInteger_is _).of_eq (toInt_neg_fix a)
  | bignum a => exact bigRegisterNormalize_is _

theorem makeFixnum_one : (makeFixnum 1).Is 1 := ⟨trivial, by decide⟩

theorem makeFixnum_zero : (makeFixnum 0).Is 0 := ⟨trivial, by decide⟩

theorem onePlus_is (canonical : x.Canonical) : x.onePlus.Is (x.value + 1) := by
  cases x with
  | fixnum a =>
    simp only [onePlus]
    split
    · rename_i last
      exact ⟨by decide, by rw [last]; decide⟩
    · rename_i inside
      refine ⟨trivial, ?_⟩
      have range := fixnum_range a
      rw [mostNegativeFixnum_eq, mostPositiveFixnum_eq] at range
      have below : a.toInt ≠ 2305843009213693951 := by
        intro last
        exact inside (congrArg fixnum (BitVec.eq_of_toInt_eq (by rw [last]; decide)))
      show (a + 1).toInt = a.toInt + 1
      rw [BitVec.toInt_add, show (1 : BitVec 62).toInt = 1 from by decide]
      apply bmod_eq_of_le <;> omega
  | bignum a =>
    have made := plus_is canonical makeFixnum_one.canonical
    rwa [makeFixnum_one.value_eq] at made

theorem oneMinus_is (canonical : x.Canonical) : x.oneMinus.Is (x.value - 1) := by
  cases x with
  | fixnum a =>
    simp only [oneMinus]
    split
    · rename_i first
      exact ⟨by decide, by rw [first]; decide⟩
    · rename_i inside
      refine ⟨trivial, ?_⟩
      have range := fixnum_range a
      rw [mostNegativeFixnum_eq, mostPositiveFixnum_eq] at range
      have above : a.toInt ≠ -2305843009213693952 := by
        intro first
        exact inside (congrArg fixnum (BitVec.eq_of_toInt_eq (by rw [first]; decide)))
      show (a - 1).toInt = a.toInt - 1
      rw [BitVec.toInt_sub, show (1 : BitVec 62).toInt = 1 from by decide]
      apply bmod_eq_of_le <;> omega
  | bignum a =>
    have made := minus_is canonical makeFixnum_one.canonical
    rwa [makeFixnum_one.value_eq] at made

theorem gcd_is (x y : Integer) : (x.gcd y).Is (Int.gcd x.value y.value) :=
  bigRegisterNormalize_is _

theorem eq_zero_iff (canonical : x.Canonical) : x = makeFixnum 0 ↔ x.value = 0 := by
  constructor
  · rintro rfl
    exact makeFixnum_zero.value_eq
  · intro zero
    exact ((is_value canonical).of_eq zero).unique makeFixnum_zero

theorem eq_one_iff (canonical : x.Canonical) : x = makeFixnum 1 ↔ x.value = 1 := by
  constructor
  · rintro rfl
    exact makeFixnum_one.value_eq
  · intro one
    exact ((is_value canonical).of_eq one).unique makeFixnum_one

end Integer

/-- A quotient of two fixnums is a fixnum, but for that of the least one by minus one. -/
theorem tdiv_range {a b : Int} (low : mostNegativeFixnum ≤ a) (high : a ≤ mostPositiveFixnum)
    (fits : ¬ (a = mostNegativeFixnum ∧ b = -1)) :
    mostNegativeFixnum ≤ a.tdiv b ∧ a.tdiv b ≤ mostPositiveFixnum := by
  rw [mostNegativeFixnum_eq] at *
  rw [mostPositiveFixnum_eq] at *
  have size : (a.tdiv b).natAbs = a.natAbs / b.natAbs := natAbs_tdiv a b
  by_cases least : a = -2305843009213693952
  · by_cases minus : b = -1
    · exact absurd ⟨least, minus⟩ fits
    · by_cases positive : 0 ≤ b
      · have sign : 0 ≤ (-a).tdiv b := Int.tdiv_nonneg (by omega) positive
        rw [Int.neg_tdiv] at sign
        have le := div_le_self a.natAbs b.natAbs
        omega
      · have half : a.natAbs / b.natAbs ≤ a.natAbs / 2 := div_le_div_left (by omega) (by omega)
        omega
  · have le := div_le_self a.natAbs b.natAbs
    omega

theorem fix_sdiv_is {a b : BitVec 62} (fits : ¬ (a.toInt = mostNegativeFixnum ∧ b.toInt = -1)) :
    (makeFixnum ((fix a).sdiv (fix b))).Is (a.toInt.tdiv b.toInt) := by
  have range := fixnum_range a
  have quotient := tdiv_range range.1 range.2 fits
  have word : ((fix a).sdiv (fix b)).toInt = a.toInt.tdiv b.toInt := by
    rw [BitVec.toInt_sdiv, toInt_fix, toInt_fix]
    rw [mostNegativeFixnum_eq, mostPositiveFixnum_eq] at quotient
    apply bmod_eq_of_le <;> omega
  exact (makeFixnum_is (by omega) (by omega)).of_eq word

theorem fixnum_tdiv_bignum {a : BitVec 62} {b : Int} (canonical : (Integer.bignum b).Canonical) :
    a.toInt.tdiv b = if b = -a.toInt then -1 else 0 := by
  have range := fixnum_range a
  simp only [Integer.Canonical] at canonical
  rw [mostNegativeFixnum_eq] at *
  rw [mostPositiveFixnum_eq] at *
  split
  · rename_i opposite
    rw [opposite, Int.tdiv_neg, Int.tdiv_self (by omega)]
  · rename_i differ
    have size : (a.toInt.tdiv b).natAbs = a.toInt.natAbs / b.natAbs := natAbs_tdiv _ _
    rw [div_eq_of_lt (by omega)] at size
    omega

theorem bignum_tdiv_fixnum {b : BitVec 62} (a : Int) (nonzero : b.toInt ≠ 0) :
    ∃ z, integerDivide (.bignum a) (.fixnum b) = .ok z ∧ z.Is (a.tdiv b.toInt) := by
  have word := toInt_fix b
  have nonzeroWord : fix b ≠ 0 := by
    intro zero
    apply nonzero
    rw [← word, zero]
    rfl
  simp only [integerDivide]
  by_cases negative : (fix b).toInt < 0
  · have magnitude := Integer.toNat_neg_of_neg negative.le
    have negated : -fix b ≠ 0 := fun zero => nonzeroWord (BitVec.neg_eq_zero_iff.mp zero)
    simp only [if_pos negative]
    refine ⟨_, if_neg negated, (bigRegisterNormalize_is _).of_eq ?_⟩
    rw [magnitude, word, Int.tdiv_neg, neg_neg]
  · have magnitude := Integer.toNat_of_nonneg (not_lt.mp negative)
    simp only [if_neg negative]
    refine ⟨_, if_neg nonzeroWord, (bigRegisterNormalize_is _).of_eq ?_⟩
    rw [magnitude, word]

theorem integerDivide_is {x y : Integer} (canonicalY : y.Canonical) (nonzero : y.value ≠ 0)
    (fits : ¬ (x.value = mostNegativeFixnum ∧ y.value = -1)) :
    ∃ z, integerDivide x y = .ok z ∧ z.Is (x.value.tdiv y.value) := by
  cases x with
  | fixnum a =>
    cases y with
    | fixnum b =>
      have other : Integer.fixnum b ≠ makeFixnum 0 :=
        fun zero => nonzero ((Integer.eq_zero_iff canonicalY).mp zero)
      exact ⟨_, if_neg other, fix_sdiv_is fits⟩
    | bignum b =>
      have quotient := fixnum_tdiv_bignum (a := a) canonicalY
      have asymmetric : mostPositiveFixnum < -mostNegativeFixnum := by decide
      simp only [integerDivide, if_pos asymmetric, Integer.toInt_neg_fix, ne_eq, ite_not]
      split
      · rename_i opposite
        rw [if_pos opposite] at quotient
        exact ⟨_, rfl, ⟨trivial, quotient.symm⟩⟩
      · rename_i differ
        rw [if_neg differ] at quotient
        exact ⟨_, rfl, ⟨trivial, quotient.symm⟩⟩
  | bignum a =>
    cases y with
    | fixnum b => exact bignum_tdiv_fixnum a nonzero
    | bignum b => exact ⟨_, if_neg nonzero, bigRegisterNormalize_is _⟩

end Ecl.Number
