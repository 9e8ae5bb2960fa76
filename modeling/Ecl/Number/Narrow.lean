import Ecl.Number.Boole

/- Fixnums and bignums on a machine with words of 32 bits, which leave 30 to a fixnum: what
the conversions of 64 bit words use of them. -/
namespace Ecl.Number.Narrow

/-- A cl_object that holds an integer. -/
inductive Integer where
  | fixnum (n : BitVec 30)
  | bignum (value : Int)
  deriving DecidableEq

def mostPositiveFixnum : Int := 2 ^ 29 - 1

def mostNegativeFixnum : Int := -2 ^ 29

def makeFixnum (n : BitVec 32) : Integer := .fixnum (n.setWidth 30)

def fix (n : BitVec 30) : BitVec 32 := n.signExtend 32

namespace Integer

def value : Integer → Int
  | .fixnum n => n.toInt
  | .bignum value => value

/-- A bignum never holds a number that is a fixnum. -/
def Canonical : Integer → Prop
  | .fixnum _ => True
  | .bignum value => value < mostNegativeFixnum ∨ mostPositiveFixnum < value

instance : (x : Integer) → Decidable x.Canonical
  | .fixnum _ => inferInstanceAs (Decidable True)
  | .bignum v => inferInstanceAs (Decidable (v < mostNegativeFixnum ∨ mostPositiveFixnum < v))

/-- The object is the one that stands for a number. -/
structure Is (x : Integer) (n : Int) : Prop where
  canonical : x.Canonical
  value_eq : x.value = n

end Integer

/-- The function ecl_make_integer, also known as ecl_make_int32_t. -/
def makeInteger (l : BitVec 32) : Integer :=
  if mostPositiveFixnum < l.toInt ∨ l.toInt < mostNegativeFixnum then .bignum l.toInt
  else makeFixnum l

/-- The function ecl_make_unsigned_integer, also known as ecl_make_uint32_t. -/
def makeUnsignedInteger (l : BitVec 32) : Integer :=
  if mostPositiveFixnum < l.toNat then .bignum l.toNat else makeFixnum l

def bigSize (v : Int) : Int :=
  if v = 0 then 0 else v.sign * (Nat.log2 v.natAbs / 32 + 1 : Nat)

def bigLimb (v : Int) : BitVec 32 := BitVec.ofNat 32 v.natAbs

/-- The function _ecl_big_register_normalize. -/
def bigRegisterNormalize (v : Int) : Integer :=
  let s := bigSize v
  let y := bigLimb v
  if s = 0 then makeFixnum 0
  else if s = 1 then
    if (y.toNat : Int) ≤ mostPositiveFixnum then makeFixnum y else .bignum v
  else if s = -1 then
    if (y.toNat : Int) ≤ -mostNegativeFixnum then makeFixnum (-y) else .bignum v
  else .bignum v

namespace Integer

/-- The function ecl_ash. -/
def ash (x : Integer) (w : BitVec 32) : Integer :=
  if w = 0 then x
  else if w.toInt < 0 then
    let bits := (-w).toNat
    match x with
    | .fixnum n =>
      let y := fix n
      makeFixnum (if 32 ≤ bits then (if y.toInt < 0 then -1 else 0) else y.sshiftRight bits)
    | .bignum v => bigRegisterNormalize (v / 2 ^ bits)
  else
    match x with
    | .fixnum n => bigRegisterNormalize ((fix n).toInt * 2 ^ w.toNat)
    | .bignum v => bigRegisterNormalize (v * 2 ^ w.toNat)

/-- The function ecl_boole. -/
def boole (op : BitOperator) : Integer → Integer → Integer
  | .fixnum x, .fixnum y => makeFixnum (fixnumOperations op (fix x) (fix y))
  | .fixnum x, .bignum y => bigRegisterNormalize (bignumOperations op (fix x).toInt y)
  | .bignum x, .fixnum y => bigRegisterNormalize (bignumOperations op x (fix y).toInt)
  | .bignum x, .bignum y => bigRegisterNormalize (bignumOperations op x y)

/-- The function cl_logior on two arguments. -/
def logior (x y : Integer) : Integer := boole .ior x y

def minusp : Integer → Bool
  | .fixnum n => (fix n).toInt < 0
  | .bignum v => bigSize v < 0

end Integer

theorem mostPositiveFixnum_eq : mostPositiveFixnum = 536870911 := by decide

theorem mostNegativeFixnum_eq : mostNegativeFixnum = -536870912 := by decide

theorem toInt_fix (n : BitVec 30) : (fix n).toInt = n.toInt :=
  BitVec.toInt_signExtend_of_le (by decide)

theorem fixnum_range (n : BitVec 30) : -536870912 ≤ n.toInt ∧ n.toInt ≤ 536870911 := by
  have low := n.le_toInt
  have high := n.toInt_lt
  omega

theorem makeFixnum_is {w : BitVec 32} (low : -536870912 ≤ w.toInt)
    (high : w.toInt ≤ 536870911) : (makeFixnum w).Is w.toInt := by
  refine ⟨trivial, ?_⟩
  show (w.setWidth 30).toInt = w.toInt
  rw [BitVec.toInt_eq_toNat_cond] at low high ⊢
  rw [BitVec.toInt_eq_toNat_cond, BitVec.toNat_setWidth]
  have range := w.isLt
  split at low <;> split <;> omega

theorem makeInteger_is (l : BitVec 32) : (makeInteger l).Is l.toInt := by
  have low := mostNegativeFixnum_eq
  have high := mostPositiveFixnum_eq
  unfold makeInteger
  split
  · rename_i outside
    exact ⟨outside.symm, rfl⟩
  · exact makeFixnum_is (by omega) (by omega)

theorem makeUnsignedInteger_is (l : BitVec 32) : (makeUnsignedInteger l).Is l.toNat := by
  have high := mostPositiveFixnum_eq
  unfold makeUnsignedInteger
  split
  · rename_i outside
    exact ⟨.inr outside, rfl⟩
  · have word : l.toInt = l.toNat := BitVec.toInt_eq_toNat_of_lt (by omega)
    have made := makeFixnum_is (w := l) (by omega) (by omega)
    rwa [word] at made

theorem bigSize_one_iff (v : Int) :
    (bigSize v = 1 ↔ 0 < v ∧ v < 2 ^ 32) ∧ (bigSize v = -1 ↔ v < 0 ∧ -2 ^ 32 < v) ∧
      (bigSize v = 0 ↔ v = 0) ∧ (bigSize v < 0 ↔ v < 0) := by
  rcases lt_trichotomy v 0 with negative | rfl | positive
  · have limbs : Nat.log2 v.natAbs < 32 ↔ v.natAbs < 2 ^ 32 := Nat.log2_lt (by omega)
    rw [bigSize, if_neg (by omega), Int.sign_eq_neg_one_of_neg negative]
    omega
  · decide
  · have limbs : Nat.log2 v.natAbs < 32 ↔ v.natAbs < 2 ^ 32 := Nat.log2_lt (by omega)
    rw [bigSize, if_neg (by omega), Int.sign_eq_one_of_pos positive]
    omega

theorem bigRegisterNormalize_is (v : Int) : (bigRegisterNormalize v).Is v := by
  have low := mostNegativeFixnum_eq
  have high := mostPositiveFixnum_eq
  obtain ⟨one, minusOne, none, _⟩ := bigSize_one_iff v
  have limb : (bigLimb v).toNat = v.natAbs % 2 ^ 32 := BitVec.toNat_ofNat _ _
  unfold bigRegisterNormalize
  simp only [one, minusOne, none]
  split
  · rename_i zero
    exact ⟨trivial, zero.symm⟩
  · split
    · split
      · have word : (bigLimb v).toInt = v := by
          rw [BitVec.toInt_eq_toNat_of_lt (by omega), limb]
          omega
        have made := makeFixnum_is (w := bigLimb v) (by omega) (by omega)
        rwa [word] at made
      · exact ⟨.inr (by omega), rfl⟩
    · split
      · split
        · have word : (-bigLimb v).toInt = v := by
            rw [BitVec.toInt_eq_toNat_cond, BitVec.toNat_neg, limb]
            split <;> omega
          have made := makeFixnum_is (w := -bigLimb v) (by omega) (by omega)
          rwa [word] at made
        · exact ⟨.inl (by omega), rfl⟩
      · refine ⟨?_, rfl⟩
        show v < mostNegativeFixnum ∨ mostPositiveFixnum < v
        omega

namespace Integer

theorem Is.of_eq {x : Integer} {n m : Int} (is : x.Is n) (same : n = m) : x.Is m := same ▸ is

theorem Is.unique {x y : Integer} {n : Int} (first : x.Is n) (second : y.Is n) : x = y := by
  have low := mostNegativeFixnum_eq
  have high := mostPositiveFixnum_eq
  obtain ⟨canonicalX, rfl⟩ := first
  obtain ⟨canonicalY, same⟩ := second
  cases x with
  | fixnum a =>
    have range := fixnum_range a
    cases y with
    | fixnum b => exact congrArg fixnum (BitVec.eq_of_toInt_eq same.symm)
    | bignum b =>
      simp only [value] at same
      simp only [Canonical] at canonicalY
      omega
  | bignum a =>
    cases y with
    | fixnum b =>
      have range := fixnum_range b
      simp only [value] at same
      simp only [Canonical] at canonicalX
      omega
    | bignum b => exact congrArg bignum same.symm

theorem minusp_iff (x : Integer) : x.minusp = true ↔ x.value < 0 := by
  cases x with
  | fixnum n =>
    rw [minusp, decide_eq_true_iff, toInt_fix]
    rfl
  | bignum v =>
    rw [minusp, decide_eq_true_iff, (bigSize_one_iff v).2.2.2]
    rfl

end Integer

end Ecl.Number.Narrow
