import Ecl.Number.Narrow

/- The conversions between 64 bit words and integers in number.d, where words have 32 bits. -/
namespace Ecl.Number.Narrow

open BitVec

/-- A cl_object, as the conversions look at it; ratios and floats have a sign. -/
inductive Object where
  | integer (n : Integer)
  | real (minus : Bool)
  | other
  deriving DecidableEq

/-- The errors of a conversion: the one of ecl_minusp, and ecl_type_error with the bounds of
the integers expected, after which the conversion starts over with another object. -/
inductive ConversionError where
  | notReal
  | typeError (low high : Integer)
  deriving DecidableEq

namespace Integer

/-- The function ecl_one_minus. -/
def oneMinus : Integer → Integer
  | .fixnum x =>
    if Integer.fixnum x = makeFixnum (BitVec.ofInt 32 mostNegativeFixnum) then
      makeInteger (BitVec.ofInt 32 (mostNegativeFixnum - 1))
    else .fixnum (x - 1)
  | .bignum x => bigRegisterNormalize (x - 1)

/-- The function ecl_negate. -/
def negate : Integer → Integer
  | .fixnum x => makeInteger (-fix x)
  | .bignum x => bigRegisterNormalize (-x)

end Integer

open Ecl.Number.Narrow.Integer

def mpzFitsUlong (v : Int) : Prop := 0 ≤ v ∧ v < 2 ^ 32

def mpzFitsSlong (v : Int) : Prop := -2 ^ 31 ≤ v ∧ v < 2 ^ 31

instance (v : Int) : Decidable (mpzFitsUlong v) := inferInstanceAs (Decidable (_ ∧ _))

instance (v : Int) : Decidable (mpzFitsSlong v) := inferInstanceAs (Decidable (_ ∧ _))

/-- The lower word of the absolute value. -/
def mpzGetUi (v : Int) : BitVec 32 := BitVec.ofNat 32 v.natAbs

/-- The word of a number that fits one. -/
def mpzGetSi (v : Int) : BitVec 32 := BitVec.ofInt 32 v

def notUint64 : ConversionError :=
  .typeError (makeFixnum 0) (oneMinus (ash (makeFixnum 1) 64))

def notInt64 : ConversionError :=
  .typeError (negate (ash (makeFixnum 1) 63)) (oneMinus (ash (makeFixnum 1) 63))

/-- The function ecl_to_uint64_t. -/
def toUint64 : Object → Except ConversionError (BitVec 64)
  | .other => .error .notReal
  | .real _ => .error notUint64
  | .integer x =>
    if x.minusp then .error notUint64
    else
      match x with
      | .fixnum n => .ok ((fix n).signExtend 64)
      | .bignum v =>
        if mpzFitsUlong v then .ok ((mpzGetUi v).setWidth 64)
        else
          let copy := v / 2 ^ 32
          if mpzFitsUlong copy then
            let output := (mpzGetUi copy).setWidth 64
            .ok ((output <<< 32) + (mpzGetUi v).setWidth 64)
          else .error notUint64

/-- The function ecl_to_int64_t. -/
def toInt64 : Object → Except ConversionError (BitVec 64)
  | .integer (.fixnum n) => .ok ((fix n).signExtend 64)
  | .integer (.bignum v) =>
    if mpzFitsSlong v then .ok ((mpzGetSi v).signExtend 64)
    else
      let copy := v / 2 ^ 32
      if mpzFitsSlong copy then
        let output := (mpzGetSi copy).signExtend 64
        let copy := v % 2 ^ 32
        .ok ((output <<< 32) + (mpzGetUi copy).setWidth 64)
      else .error notInt64
  | _ => .error notInt64

/-- The function ecl_make_uint64_t. -/
def makeUint64 (i : BitVec 64) : Integer :=
  if (i.toNat : Int) ≤ mostPositiveFixnum then makeFixnum (i.setWidth 32)
  else if i.toNat ≤ (~~~(0 : BitVec 32)).toNat then makeUnsignedInteger (i.setWidth 32)
  else
    let aux := makeUnsignedInteger ((i >>> 32).setWidth 32)
    logior (ash aux 32) (makeUnsignedInteger (i.setWidth 32))

/-- The function ecl_make_int64_t. -/
def makeInt64 (i : BitVec 64) : Integer :=
  if mostNegativeFixnum ≤ i.toInt ∧ i.toInt ≤ mostPositiveFixnum then makeFixnum (i.setWidth 32)
  else
    let aux := makeInteger ((i.sshiftRight 32).setWidth 32)
    logior (ash aux 32) (makeUnsignedInteger (i.setWidth 32))

namespace Integer

theorem ash_word_is (x : Integer) : (ash x 32).Is (x.value * 2 ^ 32) := by
  have shifted : ash x 32 = bigRegisterNormalize (x.value * 2 ^ 32) := by
    cases x with
    | fixnum n =>
      rw [value, ← toInt_fix]
      rfl
    | bignum v => rfl
  rw [shifted]
  exact bigRegisterNormalize_is _

theorem logior_is (x y : Integer) : (logior x y).Is (Int.lor x.value y.value) := by
  have either (a b : Int) : bignumOperations .ior a b = Int.lor a b := rfl
  cases x with
  | fixnum a =>
    cases y with
    | fixnum b =>
      refine ⟨trivial, ?_⟩
      rw [← either, bignumOperations_eq]
      exact toInt_fixnumOperations (by decide) (by decide) .ior a b
    | bignum b =>
      rw [value, ← toInt_fix]
      exact bigRegisterNormalize_is _
  | bignum a =>
    cases y with
    | fixnum b =>
      rw [value, value, ← toInt_fix]
      exact bigRegisterNormalize_is _
    | bignum b => exact bigRegisterNormalize_is _

end Integer

theorem halves_is {high : Integer} {h : Int} (isHigh : high.Is h) (low : BitVec 32) :
    (logior (ash high 32) (makeUnsignedInteger low)).Is (h * 2 ^ 32 + low.toNat) := by
  have range := low.isLt
  apply (logior_is _ _).of_eq
  rw [(ash_word_is high).value_eq, isHigh.value_eq, (makeUnsignedInteger_is low).value_eq]
  exact Lib.lor_mul_two_pow h (by omega) (by omega)

theorem makeUint64_is (i : BitVec 64) : (makeUint64 i).Is i.toNat := by
  have high := mostPositiveFixnum_eq
  have range := i.isLt
  have low : (i.setWidth 32).toNat = i.toNat % 2 ^ 32 := toNat_setWidth ..
  unfold makeUint64
  split
  · have word : (i.setWidth 32).toInt = i.toNat := by
      rw [toInt_eq_toNat_of_lt (by omega), low]
      omega
    have made := makeFixnum_is (w := i.setWidth 32) (by omega) (by omega)
    rwa [word] at made
  · have ones : (~~~(0 : BitVec 32)).toNat = 4294967295 := by decide
    split
    · exact (makeUnsignedInteger_is _).of_eq (by omega)
    · have upper : ((i >>> 32).setWidth 32).toNat = i.toNat / 2 ^ 32 := by
        rw [toNat_setWidth, toNat_ushiftRight, Nat.shiftRight_eq_div_pow]
        omega
      exact (halves_is (makeUnsignedInteger_is _) (i.setWidth 32)).of_eq (by omega)

theorem makeInt64_is (i : BitVec 64) : (makeInt64 i).Is i.toInt := by
  have least := mostNegativeFixnum_eq
  have high := mostPositiveFixnum_eq
  have range := i.isLt
  have low : (i.setWidth 32).toNat = i.toNat % 2 ^ 32 := toNat_setWidth ..
  have word := toInt_eq_toNat_cond i
  unfold makeInt64
  split
  · have same : (i.setWidth 32).toInt = i.toInt := by
      rw [toInt_eq_toNat_cond, low]
      split at word <;> split <;> omega
    have made := makeFixnum_is (w := i.setWidth 32) (by omega) (by omega)
    rwa [same] at made
  · have shifted : (i.sshiftRight 32).toInt = i.toInt / 2 ^ 32 := by
      rw [toInt_sshiftRight, Int.shiftRight_eq_div_pow]
      rfl
    have upper : ((i.sshiftRight 32).setWidth 32).toInt = i.toInt / 2 ^ 32 := by
      have wide := toInt_eq_toNat_cond (i.sshiftRight 32)
      rw [toInt_eq_toNat_cond, toNat_setWidth]
      split at word <;> split at wide <;> split <;> omega
    apply (halves_is (makeInteger_is _) (i.setWidth 32)).of_eq
    rw [upper]
    split at word <;> omega

theorem toInt_halves (high : BitVec 64) (low : BitVec 32) {h : Int} (value : high.toInt = h)
    (below : -2 ^ 31 ≤ h) (above : h < 2 ^ 31) :
    ((high <<< 32) + low.setWidth 64).toInt = h * 2 ^ 32 + low.toNat := by
  have rangeLow := low.isLt
  have rangeHigh := high.isLt
  rw [toInt_eq_toNat_cond] at value
  rw [toInt_eq_toNat_cond, toNat_add, toNat_shiftLeft, toNat_setWidth,
    Nat.shiftLeft_eq]
  split at value <;> split <;> omega

theorem toNat_halves (high low : BitVec 32) :
    ((high.setWidth 64 <<< 32) + low.setWidth 64).toNat = high.toNat * 2 ^ 32 + low.toNat := by
  have rangeLow := low.isLt
  have rangeHigh := high.isLt
  rw [toNat_add, toNat_shiftLeft, toNat_setWidth, toNat_setWidth,
    Nat.shiftLeft_eq]
  omega

theorem toInt_mpzGetSi {v : Int} (fits : mpzFitsSlong v) : (mpzGetSi v).toInt = v := by
  rw [mpzGetSi, toInt_ofInt]
  exact Int.bmod_eq_of_le (by have := fits.1; omega) (by have := fits.2; omega)

theorem toNat_mpzGetUi {v : Int} (nonneg : 0 ≤ v) : ((mpzGetUi v).toNat : Int) = v % 2 ^ 32 := by
  rw [mpzGetUi, toNat_ofNat]
  omega

theorem toInt64_spec (n : Integer) :
    (-2 ^ 63 ≤ n.value ∧ n.value < 2 ^ 63 →
      ∃ w, toInt64 (.integer n) = .ok w ∧ w.toInt = n.value) ∧
    (¬ (-2 ^ 63 ≤ n.value ∧ n.value < 2 ^ 63) → toInt64 (.integer n) = .error notInt64) := by
  cases n with
  | fixnum n =>
    have range := fixnum_range n
    have word : ((fix n).signExtend 64).toInt = n.toInt := by
      rw [toInt_signExtend_of_le (by decide), toInt_fix]
    constructor
    · intro _
      exact ⟨_, rfl, word⟩
    · intro outside
      exact absurd (show -2 ^ 63 ≤ n.toInt ∧ n.toInt < 2 ^ 63 by omega) outside
  | bignum v =>
    show (-2 ^ 63 ≤ v ∧ v < 2 ^ 63 → _) ∧ (¬ (-2 ^ 63 ≤ v ∧ v < 2 ^ 63) → _)
    by_cases one : mpzFitsSlong v
    · have word : ((mpzGetSi v).signExtend 64).toInt = v := by
        rw [toInt_signExtend_of_le (by decide), toInt_mpzGetSi one]
      obtain ⟨low, high⟩ := one
      simp only [toInt64, show mpzFitsSlong v from ⟨low, high⟩, if_true]
      constructor
      · intro _
        exact ⟨_, rfl, word⟩
      · omega
    · have within : mpzFitsSlong (v / 2 ^ 32) ↔ -2 ^ 63 ≤ v ∧ v < 2 ^ 63 := by
        unfold mpzFitsSlong
        omega
      simp only [toInt64, one, if_false, within]
      constructor
      · intro inside
        have fits := within.mpr inside
        have upper : ((mpzGetSi (v / 2 ^ 32)).signExtend 64).toInt = v / 2 ^ 32 := by
          rw [toInt_signExtend_of_le (by decide), toInt_mpzGetSi fits]
        have lower := toNat_mpzGetUi (v := v % 2 ^ 32) (by omega)
        refine ⟨_, if_pos inside, ?_⟩
        rw [toInt_halves _ _ upper fits.1 fits.2, lower, value]
        omega
      · intro outside
        exact if_neg outside

theorem toUint64_spec (n : Integer) :
    (0 ≤ n.value ∧ n.value < 2 ^ 64 →
      ∃ w, toUint64 (.integer n) = .ok w ∧ w.toNat = n.value) ∧
    (¬ (0 ≤ n.value ∧ n.value < 2 ^ 64) → toUint64 (.integer n) = .error notUint64) := by
  have sign := n.minusp_iff
  by_cases minus : n.minusp = true
  · have negative := sign.mp minus
    simp only [toUint64, minus, if_true]
    exact ⟨by omega, fun _ => trivial⟩
  · have nonneg := mt sign.mpr minus
    simp only [toUint64, minus, if_false, Bool.false_eq_true]
    cases n with
    | fixnum n =>
      have range := fixnum_range n
      have nonneg : 0 ≤ n.toInt := not_lt.mp nonneg
      have word : ((fix n).signExtend 64).toNat = n.toInt := by
        have same : ((fix n).signExtend 64).toInt = n.toInt := by
          rw [toInt_signExtend_of_le (by decide), toInt_fix]
        rw [toInt_eq_toNat_cond] at same
        split at same <;> omega
      show (0 ≤ n.toInt ∧ n.toInt < 2 ^ 64 → _) ∧ (¬ (0 ≤ n.toInt ∧ n.toInt < 2 ^ 64) → _)
      constructor
      · intro _
        exact ⟨_, rfl, word⟩
      · omega
    | bignum v =>
      have nonneg : 0 ≤ v := not_lt.mp nonneg
      show (0 ≤ v ∧ v < 2 ^ 64 → _) ∧ (¬ (0 ≤ v ∧ v < 2 ^ 64) → _)
      by_cases one : mpzFitsUlong v
      · have lower := toNat_mpzGetUi nonneg
        obtain ⟨low, high⟩ := one
        simp only [show mpzFitsUlong v from ⟨low, high⟩, if_true]
        constructor
        · intro _
          refine ⟨_, rfl, ?_⟩
          rw [toNat_setWidth, value]
          omega
        · omega
      · have within : mpzFitsUlong (v / 2 ^ 32) ↔ 0 ≤ v ∧ v < 2 ^ 64 := by
          unfold mpzFitsUlong
          omega
        simp only [one, if_false, within]
        constructor
        · intro inside
          have upper := toNat_mpzGetUi (v := v / 2 ^ 32) (by omega)
          have lower := toNat_mpzGetUi nonneg
          refine ⟨_, if_pos inside, ?_⟩
          rw [toNat_halves, value]
          omega
        · intro outside
          exact if_neg outside

theorem toInt64_eq_ok_iff (n : Integer) (i : BitVec 64) :
    toInt64 (.integer n) = .ok i ↔ i.toInt = n.value := by
  obtain ⟨accepts, rejects⟩ := toInt64_spec n
  have low := i.le_toInt
  have high := i.toInt_lt
  constructor
  · intro run
    by_cases inside : -2 ^ 63 ≤ n.value ∧ n.value < 2 ^ 63
    · obtain ⟨w, runW, value⟩ := accepts inside
      rw [runW] at run
      rw [← Except.ok.inj run, value]
    · rw [rejects inside] at run
      cases run
  · intro value
    obtain ⟨w, run, valueW⟩ := accepts (by omega)
    rw [run, eq_of_toInt_eq (valueW.trans value.symm)]

theorem toUint64_eq_ok_iff (n : Integer) (i : BitVec 64) :
    toUint64 (.integer n) = .ok i ↔ i.toNat = n.value := by
  obtain ⟨accepts, rejects⟩ := toUint64_spec n
  have high := i.isLt
  constructor
  · intro run
    by_cases inside : 0 ≤ n.value ∧ n.value < 2 ^ 64
    · obtain ⟨w, runW, value⟩ := accepts inside
      rw [runW] at run
      rw [← Except.ok.inj run, value]
    · rw [rejects inside] at run
      cases run
  · intro value
    obtain ⟨w, run, valueW⟩ := accepts (by omega)
    have same : w = i := eq_of_toNat_eq (by omega)
    rw [run, same]

/-- The conversions accept the integers that a word can hold, and are inverse to those that
make integers of words. -/
theorem int64_conversions {n : Integer} (canonical : n.Canonical) (w : BitVec 64) :
    ((∃ i, toInt64 (.integer n) = .ok i) ↔ -2 ^ 63 ≤ n.value ∧ n.value ≤ 2 ^ 63 - 1) ∧
    ((∃ i, toUint64 (.integer n) = .ok i) ↔ 0 ≤ n.value ∧ n.value ≤ 2 ^ 64 - 1) ∧
    (∀ x : Object, (∀ m, x ≠ .integer m) →
      (∀ i, toInt64 x ≠ .ok i) ∧ ∀ i, toUint64 x ≠ .ok i) ∧
    (∀ i, toInt64 (.integer n) = .ok i → makeInt64 i = n) ∧
    (∀ i, toUint64 (.integer n) = .ok i → makeUint64 i = n) ∧
    (makeInt64 w).Canonical ∧ (makeUint64 w).Canonical ∧
    toInt64 (.integer (makeInt64 w)) = .ok w ∧
    toUint64 (.integer (makeUint64 w)) = .ok w := by
  refine ⟨?_, ?_, ?_, ?_, ?_, (makeInt64_is w).canonical, (makeUint64_is w).canonical, ?_, ?_⟩
  · constructor
    · intro ⟨i, run⟩
      have value := (toInt64_eq_ok_iff n i).mp run
      have low := i.le_toInt
      have high := i.toInt_lt
      omega
    · intro inside
      obtain ⟨i, run, _⟩ := (toInt64_spec n).1 (by omega)
      exact ⟨i, run⟩
  · constructor
    · intro ⟨i, run⟩
      have value := (toUint64_eq_ok_iff n i).mp run
      have high := i.isLt
      omega
    · intro inside
      obtain ⟨i, run, _⟩ := (toUint64_spec n).1 (by omega)
      exact ⟨i, run⟩
  · intro x noInteger
    cases x with
    | integer m => exact absurd rfl (noInteger m)
    | real minus => exact ⟨nofun, nofun⟩
    | other => exact ⟨nofun, nofun⟩
  · intro i run
    exact ((makeInt64_is i).of_eq ((toInt64_eq_ok_iff n i).mp run)).unique ⟨canonical, rfl⟩
  · intro i run
    exact ((makeUint64_is i).of_eq ((toUint64_eq_ok_iff n i).mp run)).unique ⟨canonical, rfl⟩
  · exact (toInt64_eq_ok_iff _ w).mpr (makeInt64_is w).value_eq.symm
  · exact (toUint64_eq_ok_iff _ w).mpr (makeUint64_is w).value_eq.symm

theorem int64_conversions_least :
    ∃ i, toInt64 (.integer (.bignum (-2 ^ 63))) = .ok i :=
  (int64_conversions (n := .bignum (-2 ^ 63)) (by decide) 0).1.mpr (by decide)

end Ecl.Number.Narrow
