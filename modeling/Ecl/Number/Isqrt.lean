import Ecl.Number.Compare
import Ecl.Number.Boole

/- INTEGER-LENGTH and ISQRT. -/
namespace Ecl.Number

open Nat

namespace Integer

/-- The loop of ecl_fixnum_bit_length, after the rounds that FIXNUM_BITS leaves. -/
def fixnumBitLengthLoop : Nat → BitVec 64 → Nat → Nat
  | 0, _, count => count
  | left + 1, i, count =>
    if i = 0 then count else fixnumBitLengthLoop left (i.sshiftRight 1) (count + 1)

def fixnumBitLength (i : BitVec 64) : Nat :=
  fixnumBitLengthLoop 64 (if i.toInt < 0 then ~~~i else i) 0

/-- The function mpz_sizeinbase for base two. -/
def mpzSizeinbase2 (v : Int) : Nat := if v = 0 then 1 else v.natAbs.size

/-- The function ecl_integer_length. Its count is an int. -/
def integerLength (x : Integer) : BitVec 64 :=
  let count : BitVec 32 :=
    match x with
    | .fixnum n => BitVec.ofNat 32 (fixnumBitLength (fix n))
    | .bignum v =>
      let x := if bigSize v < 0 then lognot x else x
      BitVec.ofNat 32 (mpzSizeinbase2 x.value)
  count.signExtend 64

def clIntegerLength (x : Integer) : Integer := makeFixnum (integerLength x)

/-- The loop of ISQRT. Its rounds are counted, and nothing is returned after the last. -/
def isqrtLoop : Nat → Integer → Integer → Except ArithmeticError (Option Integer)
  | 0, _, _ => .ok none
  | rounds + 1, i, x => do
      let (y, _) ← floor2 i x
      if 0 ≤ numberCompare y x then .ok (some x)
      else
        let (x, _) ← floor2 (plus x y) (makeFixnum 2)
        isqrtLoop rounds i x

/-- What keeps ISQRT from returning; the argument may not be negative. -/
inductive IsqrtError where
  | typeError
  | shift (error : ShiftError)
  | arithmetic (error : ArithmeticError)
  deriving DecidableEq

def isqrt (rounds : Nat) (i : Integer) : Except IsqrtError (Option Integer) :=
  if 0 < numberCompare (makeFixnum 0) i then .error .typeError
  else if i = makeFixnum 0 then .ok (some (makeFixnum 0))
  else do
    let n := clIntegerLength i
    let (half, _) ← (ceiling2 n (makeFixnum 2)).mapError .arithmetic
    let x ← (clAsh (makeFixnum 1) half).mapError .shift
    (isqrtLoop rounds i x).mapError .arithmetic

theorem fixnumBitLengthLoop_eq {left : Nat} {i : BitVec 64} (nonneg : 0 ≤ i.toInt)
    (enough : i.toNat.size ≤ left) (count : Nat) :
    fixnumBitLengthLoop left i count = count + i.toNat.size := by
  induction left generalizing i count with
  | zero => rw [fixnumBitLengthLoop, le_zero.mp enough, add_zero]
  | succ left ih =>
    rw [fixnumBitLengthLoop]
    split
    · rename_i none
      rw [none]
      rfl
    · rename_i other
      have value := toNat_of_nonneg nonneg
      have half : (i.sshiftRight 1).toInt = i.toInt / 2 := by
        rw [BitVec.toInt_sshiftRight, Int.shiftRight_eq_div_pow]
        rfl
      have halfNat := toNat_of_nonneg (i := i.sshiftRight 1) (by omega)
      have size : i.toNat.size = (i.sshiftRight 1).toNat.size + 1 := by
        have nonzero : i.toNat ≠ 0 := fun zero => other (BitVec.eq_of_toNat_eq zero)
        have bits := bit_bodd_div2 i.toNat
        rw [← bits, size_bit (by rw [bits]; exact nonzero), div2_val]
        congr 2
        omega
      rw [ih (by omega) (by omega), size]
      omega

variable {x : Integer}

theorem integerLength_eq (canonical : x.Canonical) (nonneg : 0 ≤ x.value) :
    integerLength x = (BitVec.ofNat 32 x.value.toNat.size).signExtend 64 := by
  cases x with
  | fixnum n =>
    have range := fixnum_range n
    have high := mostPositiveFixnum_eq
    have value : (fixnum n).value = n.toInt := rfl
    have word := toNat_of_nonneg (i := fix n) (by rw [toInt_fix]; omega)
    rw [toInt_fix] at word
    have same : (fix n).toNat = (fixnum n).value.toNat := by omega
    have size : (fix n).toNat.size ≤ 64 := size_le.mpr (fix n).isLt
    simp only [integerLength, fixnumBitLength]
    rw [if_neg (by rw [toInt_fix]; omega),
      fixnumBitLengthLoop_eq (by rw [toInt_fix]; omega) size, zero_add, same]
  | bignum v =>
    have outside : v < mostNegativeFixnum ∨ mostPositiveFixnum < v := canonical
    have low := mostNegativeFixnum_eq
    have high := mostPositiveFixnum_eq
    have positive : 0 < v := by
      rw [show (bignum v).value = v from rfl] at nonneg
      omega
    have notMinus := mt (bigSize_neg_iff v).mp (by omega)
    have size : v.natAbs = v.toNat := by omega
    simp only [integerLength, if_neg notMinus, value, mpzSizeinbase2]
    rw [if_neg positive.ne', size]

variable {y : Integer}

theorem floor2_is (positive : 0 < y.value) :
    ∃ q r, floor2 x y = .ok (q, r) ∧ q.Is (x.value / y.value) := by
  obtain ⟨q, r, run, canonicalQ, _, splits⟩ := floor2_divides (x := x) (y := y) positive.ne'
    (fun least => absurd least.2 (by omega))
  have positiveQ : (0 : ℚ) < y.value := Int.cast_pos.mpr positive
  have low : 0 ≤ r.value := by
    have part := (le_div_iff₀ positiveQ).mp splits.part.1
    rw [zero_mul] at part
    exact Int.cast_nonneg_iff.mp part
  have high : r.value < y.value := Int.cast_lt.mp ((div_lt_one positiveQ).mp splits.part.2)
  have whole : x.value = q.value * y.value + r.value := by exact_mod_cast splits.whole
  refine ⟨q, r, run, canonicalQ, ?_⟩
  exact ((Int.ediv_emod_unique positive).mpr ⟨by rw [whole]; ring, low, high⟩).1.symm

theorem ceiling2_two_is (x : Integer) :
    ∃ q r, ceiling2 x (makeFixnum 2) = .ok (q, r) ∧ q.Is ((x.value + 1) / 2) := by
  have two : (makeFixnum 2).value = 2 := by decide
  obtain ⟨q, r, run, canonicalQ, _, splits⟩ := ceiling2_divides (x := x) (y := makeFixnum 2)
    (by decide) (fun least => absurd least.2 (by decide))
  rw [two] at splits
  have positive : (0 : ℚ) < ((2 : Int) : ℚ) := by norm_num
  have low : -1 * 2 < r.value := by
    have part := (lt_div_iff₀ positive).mp splits.part.1
    exact_mod_cast part
  have high : r.value ≤ 0 * 2 := by
    have part := (div_le_iff₀ positive).mp splits.part.2
    exact_mod_cast part
  have whole : x.value = q.value * 2 + r.value := by exact_mod_cast splits.whole
  exact ⟨q, r, run, canonicalQ, by omega⟩

theorem numberCompare_nonneg_iff (canonicalX : x.Canonical)
    (canonicalY : y.Canonical) : 0 ≤ numberCompare x y ↔ y.value ≤ x.value := by
  have compares := Rational.numberCompare_nonneg_iff (x := .integer x) (y := .integer y) canonicalX
    canonicalY
  exact compares.trans Int.cast_le

/-- The integer square root of a number. -/
structure IsRoot (i r : Int) : Prop where
  nonneg : 0 ≤ r
  below : r * r ≤ i
  above : i < (r + 1) * (r + 1)

theorem IsRoot.unique {i r s : Int} (left : IsRoot i r) (right : IsRoot i s) : r = s := by
  have belowR := left.below
  have aboveR := left.above
  have belowS := right.below
  have aboveS := right.above
  have nonnegR := left.nonneg
  have nonnegS := right.nonneg
  by_contra differ
  rcases lt_or_gt_of_ne differ with less | greater
  · nlinarith
  · nlinarith

theorem newton_above {i x : Int} (nonneg : 0 ≤ i) (positive : 0 < x) :
    i < ((x + i / x) / 2 + 1) * ((x + i / x) / 2 + 1) := by
  have next : i < (i / x + 1) * x := Int.lt_ediv_add_one_mul_self i positive
  have quotient : 0 ≤ i / x := Int.ediv_nonneg nonneg positive.le
  generalize i / x = q at next quotient
  have half : x + q + 1 ≤ 2 * ((x + q) / 2 + 1) := by omega
  generalize (x + q) / 2 + 1 = m at half
  have mean : 4 * ((q + 1) * x) ≤ (x + q + 1) * (x + q + 1) := by
    have square := mul_self_nonneg (x - (q + 1))
    linarith
  have squares : (x + q + 1) * (x + q + 1) ≤ 2 * m * (2 * m) :=
    mul_self_le_mul_self (by omega) half
  linarith

variable {i : Integer}

theorem isqrtLoop_round {rest : Integer} (run : floor2 i x = .ok (y, rest)) (rounds : Nat) :
    isqrtLoop (rounds + 1) i x =
      if 0 ≤ numberCompare y x then .ok (some x)
      else floor2 (plus x y) (makeFixnum 2) >>= fun next => isqrtLoop rounds i next.1 := by
  rw [isqrtLoop, run]
  rfl

theorem isqrtLoop_spec (canonicalX : x.Canonical) (positiveI : 0 < i.value)
    (positiveX : 0 < x.value)
    (above : i.value < (x.value + 1) * (x.value + 1)) (rounds : Nat)
    (enough : x.value ≤ rounds) :
    ∃ r : Integer, isqrtLoop rounds i x = .ok (some r) ∧ r.Canonical ∧
      IsRoot i.value r.value := by
  induction rounds generalizing x with
  | zero => omega
  | succ rounds ih =>
    obtain ⟨y, rest, run, isY⟩ := floor2_is (x := i) positiveX
    have compares := numberCompare_nonneg_iff isY.canonical canonicalX
    rw [isY.value_eq] at compares
    rw [isqrtLoop_round run]
    by_cases done : x.value ≤ i.value / x.value
    · rw [if_pos (compares.mpr done)]
      refine ⟨x, rfl, canonicalX, positiveX.le, ?_, above⟩
      exact (Int.le_ediv_iff_mul_le positiveX).mp done
    · have sum := plus_is canonicalX isY.canonical
      obtain ⟨next, rest', runNext, isNext⟩ := floor2_is (x := plus x y) (y := makeFixnum 2)
        (by decide)
      have value : next.value = (x.value + i.value / x.value) / 2 := by
        rw [isNext.value_eq, sum.value_eq, isY.value_eq]
        rfl
      have quotient : 0 ≤ i.value / x.value := Int.ediv_nonneg positiveI.le positiveX.le
      have notOne : x.value ≠ 1 := by
        intro one
        rw [one, Int.ediv_one] at done
        omega
      rw [if_neg (mt compares.mp done), runNext]
      apply ih isNext.canonical
      · omega
      · rw [value]
        exact newton_above positiveI.le positiveX
      · omega

theorem isqrtLoop_low (canonicalX : x.Canonical) (positiveX : 0 < x.value)
    (low : x.value * x.value ≤ i.value) (rounds : Nat) :
    isqrtLoop (rounds + 1) i x = .ok (some x) := by
  obtain ⟨y, rest, run, isY⟩ := floor2_is (x := i) positiveX
  have compares := numberCompare_nonneg_iff isY.canonical canonicalX
  rw [isY.value_eq, Int.le_ediv_iff_mul_le positiveX] at compares
  rw [isqrtLoop_round run, if_pos (compares.mpr low)]

theorem isqrtLoop_zero (zero : x.value = 0) (rounds : Nat) :
    isqrtLoop (rounds + 1) i x = .error .trap := by
  have trap : floor2 i x = .error .trap := by
    cases i with
    | fixnum a =>
      cases x with
      | fixnum b =>
        have none : fix b = 0 := by
          apply BitVec.eq_of_toInt_eq
          rw [toInt_fix]
          exact zero
        simp only [floor2, quotient, none, if_true]
      | bignum b => simp only [floor2, quotient, zero, if_true]
    | bignum a => simp only [floor2, quotient, zero, if_true]
  rw [isqrtLoop, trap]
  rfl

theorem guess_is (canonical : i.Canonical) (nonneg : 0 ≤ i.value) :
    ∃ half rest x, ceiling2 (clIntegerLength i) (makeFixnum 2) = .ok (half, rest) ∧
      clAsh (makeFixnum 1) half = .ok x ∧
      x.Is (Lib.shift 1 (((BitVec.ofNat 32 i.value.toNat.size).toInt + 1) / 2)) := by
  have low := mostNegativeFixnum_eq
  have high := mostPositiveFixnum_eq
  have below := BitVec.le_toInt (BitVec.ofNat 32 i.value.toNat.size)
  have above := BitVec.toInt_lt (x := BitVec.ofNat 32 i.value.toNat.size)
  have wide : (integerLength i).toInt = (BitVec.ofNat 32 i.value.toNat.size).toInt := by
    rw [integerLength_eq canonical nonneg]
    exact BitVec.toInt_signExtend_of_le (by decide)
  have length := makeFixnum_is (w := integerLength i) (by rw [wide]; omega) (by rw [wide]; omega)
  obtain ⟨half, rest, run, isHalf⟩ := ceiling2_two_is (clIntegerLength i)
  rw [show (clIntegerLength i).value = _ from length.value_eq, wide] at isHalf
  cases half with
  | fixnum c =>
    obtain ⟨x, runX, isX⟩ := clAsh_fixnum (x := makeFixnum 1) trivial c
    rw [show c.toInt = _ from isHalf.value_eq, makeFixnum_one.value_eq] at isX
    exact ⟨.fixnum c, rest, x, run, runX, isX⟩
  | bignum v =>
    have outside : v < mostNegativeFixnum ∨ mostPositiveFixnum < v := isHalf.canonical
    rw [show v = _ from isHalf.value_eq] at outside
    omega

theorem isqrt_eq (canonical : i.Canonical) (positive : 0 < i.value) :
    ∃ x : Integer, x.Is (Lib.shift 1 (((BitVec.ofNat 32 i.value.toNat.size).toInt + 1) / 2)) ∧
      ∀ rounds, isqrt rounds i = (isqrtLoop rounds i x).mapError .arithmetic := by
  obtain ⟨half, rest, x, runHalf, runX, isX⟩ := guess_is canonical positive.le
  refine ⟨x, isX, ?_⟩
  intro rounds
  have unsigned : ¬ 0 < numberCompare (makeFixnum 0) i := by
    have compares := Rational.numberCompare_pos_iff (x := .integer (makeFixnum 0))
      (y := .integer i) trivial canonical
    rw [show ¬ 0 < numberCompare (makeFixnum 0) i ↔ ¬ i.value < (makeFixnum 0).value from
      not_congr (compares.trans Int.cast_lt), makeFixnum_zero.value_eq]
    omega
  have nonzero := mt (eq_zero_iff canonical).mp positive.ne'
  rw [isqrt, if_neg unsigned, if_neg nonzero]
  show ((ceiling2 (clIntegerLength i) (makeFixnum 2)).mapError IsqrtError.arithmetic >>= _) = _
  rw [runHalf]
  show ((clAsh (makeFixnum 1) half).mapError IsqrtError.shift >>= _) = _
  rw [runX]
  rfl

end Integer

/-- ISQRT returns the root of an integer, whatever number of rounds above some it is given. -/
def Roots (i : Integer) : Prop :=
  ∃ r : Integer, r.Canonical ∧ Integer.IsRoot i.value r.value ∧
    ∃ enough, ∀ rounds, enough ≤ rounds → Integer.isqrt rounds i = .ok (some r)

section Length

variable {i : Integer} (canonical : i.Canonical) (positive : 0 < i.value)

include canonical positive in
theorem roots_of_short (short : i.value.toNat.size < 2 ^ 31) : Roots i := by
  obtain ⟨x, isX, run⟩ := Integer.isqrt_eq canonical positive
  have count : (BitVec.ofNat 32 i.value.toNat.size).toInt = i.value.toNat.size := by
    rw [BitVec.toInt_eq_toNat_cond, BitVec.toNat_ofNat]
    split <;> omega
  rw [count, Lib.shift_left (by omega), one_mul] at isX
  have digits := lt_size_self i.value.toNat
  have places : i.value.toNat.size ≤ 2 * (((i.value.toNat.size : Int) + 1) / 2).toNat := by omega
  generalize (((i.value.toNat.size : Int) + 1) / 2).toNat = half at isX places
  have positiveX : 0 < x.value := by
    rw [isX.value_eq]
    positivity
  have square : i.value < x.value * x.value := by
    have larger := lt_of_lt_of_le digits (Nat.pow_le_pow_right two_pos places)
    have value : i.value = (i.value.toNat : Int) := (Int.toNat_of_nonneg positive.le).symm
    rw [isX.value_eq, ← pow_add, ← two_mul, value]
    exact_mod_cast larger
  have above : i.value < (x.value + 1) * (x.value + 1) :=
    lt_trans square (by nlinarith)
  obtain ⟨r, _, canonicalR, root⟩ := Integer.isqrtLoop_spec isX.canonical positive positiveX above
    x.value.toNat (by omega)
  refine ⟨r, canonicalR, root, x.value.toNat, ?_⟩
  intro rounds enough
  obtain ⟨s, runS, canonicalS, rootS⟩ := Integer.isqrtLoop_spec isX.canonical positive positiveX
    above rounds (by omega)
  have same : s = r :=
    (Integer.is_value canonicalS).unique ⟨canonicalR, root.unique rootS⟩
  rw [run, runS, same]
  rfl

include canonical positive in
theorem not_roots_of_long (long : 2 ^ 31 ≤ i.value.toNat.size) : ¬ Roots i := by
  rintro ⟨r, _, root, enough, returns⟩
  obtain ⟨x, isX, run⟩ := Integer.isqrt_eq canonical positive
  have returned := returns (enough + 1) (by omega)
  rw [run] at returned
  by_cases right : ((BitVec.ofNat 32 i.value.toNat.size).toInt + 1) / 2 < 0
  · have zero : x.value = 0 := by
      rw [isX.value_eq, Lib.shift, if_pos right]
      apply Int.ediv_eq_zero_of_lt (by decide)
      exact one_lt_pow₀ (by decide) (by omega)
    rw [Integer.isqrtLoop_zero zero] at returned
    cases returned
  · -- The count is the length less some multiple of 2^32, which is not zero.
    have fewer : 2 * (((BitVec.ofNat 32 i.value.toNat.size).toInt + 1) / 2).toNat + 2 <
        i.value.toNat.size := by
      rw [BitVec.toInt_eq_toNat_cond, BitVec.toNat_ofNat] at right ⊢
      split at right <;> split <;> omega
    rw [Lib.shift_left (by omega), one_mul] at isX
    generalize (((BitVec.ofNat 32 i.value.toNat.size).toInt + 1) / 2).toNat = half at isX fewer
    have positiveX : 0 < x.value := by
      rw [isX.value_eq]
      positivity
    have digits : 2 * x.value * (2 * x.value) ≤ i.value := by
      have smaller := lt_size.mp fewer
      have value : i.value = (i.value.toNat : Int) := (Int.toNat_of_nonneg positive.le).symm
      have power : 2 * x.value * (2 * x.value) = ((2 ^ (2 * half + 2) : Nat) : Int) := by
        rw [isX.value_eq]
        push_cast
        ring
      rw [power, value]
      exact_mod_cast smaller
    rw [Integer.isqrtLoop_low isX.canonical positiveX (by nlinarith)] at returned
    have same : x = r := by
      injection returned with some
      exact Option.some.inj some
    have above := root.above
    rw [← same] at above
    nlinarith

end Length

/-- ISQRT is right for the integers whose length is an int, and for no others. -/
theorem isqrt_exact {i : Integer} (canonical : i.Canonical) (nonneg : 0 ≤ i.value) :
    Roots i ↔ i.value.toNat.size < 2 ^ 31 := by
  by_cases zero : i.value = 0
  · have none := (Integer.eq_zero_iff canonical).mpr zero
    rw [none]
    apply iff_of_true
    · exact ⟨makeFixnum 0, trivial, ⟨by decide, by decide, by decide⟩, 0, fun _ _ => rfl⟩
    · decide
  · have positive : 0 < i.value := by omega
    constructor
    · intro roots
      by_contra long
      exact not_roots_of_long canonical positive (by omega) roots
    · exact roots_of_short canonical positive

theorem isqrt_exact_ninety_nine : Roots (makeFixnum 99) :=
  (isqrt_exact (i := makeFixnum 99) trivial (by decide)).mpr (by decide +kernel)

theorem not_roots_of_power {k : Nat} (large : 2 ^ 31 ≤ k + 1) :
    (Integer.bignum (2 ^ k)).Canonical ∧ ¬ Roots (.bignum (2 ^ k)) := by
  have power : ((2 : Int) ^ k).toNat = 2 ^ k := by
    rw [← Int.toNat_natCast (2 ^ k), cast_pow, cast_ofNat]
  have size : ((2 : Int) ^ k).toNat.size = k + 1 := by rw [power, size_pow]
  have canonical : (Integer.bignum (2 ^ k)).Canonical := by
    have larger : (2 : Int) ^ 61 ≤ 2 ^ k := pow_le_pow_right₀ (by decide) (by omega)
    have high := mostPositiveFixnum_eq
    apply Or.inr
    omega
  refine ⟨canonical, ?_⟩
  have positive : 0 < (Integer.bignum (2 ^ k)).value := by
    show (0 : Int) < 2 ^ k
    positivity
  apply not_roots_of_long canonical positive
  show 2 ^ 31 ≤ ((2 : Int) ^ k).toNat.size
  rw [size]
  exact large

/-- ISQRT has no root for the least integer of 2^31 bits. -/
theorem isqrt_wrong_length :
    ¬ ∀ i : Integer, i.Canonical → 0 ≤ i.value → Roots i := by
  intro all
  have wrong := not_roots_of_power (k := 2147483647) (by omega)
  have nonneg : 0 ≤ (Integer.bignum (2 ^ 2147483647)).value := by
    show (0 : Int) ≤ 2 ^ 2147483647
    exact pow_nonneg (by omega) _
  exact wrong.2 (all _ wrong.1 nonneg)

end Ecl.Number
