import Mathlib.Tactic.Linarith
import Ecl.Lib.Bits
import Ecl.Number.IntegerLaw

/- The sixteen logical operations of num_log.d on words, on registers and on integers. -/
namespace Ecl.Number

open BitVec Int

/-- The codes ECL_BOOLCLR to ECL_BOOLSET, in the order of the tables of operations. -/
inductive BitOperator where
  | clr
  | and
  | andc2
  | b1
  | andc1
  | b2
  | xor
  | ior
  | nor
  | eqv
  | c2
  | orc2
  | c1
  | orc1
  | nand
  | set
  deriving DecidableEq

/-- The table fixnum_operations, for words of any width. -/
def fixnumOperations {w : Nat} : BitOperator → BitVec w → BitVec w → BitVec w
  | .clr, _, _ => 0
  | .and, i, j => i &&& j
  | .andc2, i, j => i &&& ~~~j
  | .b1, i, _ => i
  | .andc1, i, j => ~~~i &&& j
  | .b2, _, j => j
  | .xor, i, j => i ^^^ j
  | .ior, i, j => i ||| j
  | .nor, i, j => ~~~(i ||| j)
  | .eqv, i, j => ~~~(i ^^^ j)
  | .c2, _, j => ~~~j
  | .orc2, i, j => i ||| ~~~j
  | .c1, i, _ => ~~~i
  | .orc1, i, j => ~~~i ||| j
  | .nand, i, j => ~~~(i &&& j)
  | .set, _, _ => -1

def mpzOrc1 (i j : Int) : Int := Int.lor (Int.lnot i) j

def mpzAndc1 (i j : Int) : Int := Int.land (Int.lnot i) j

/-- The table bignum_operations. -/
def bignumOperations : BitOperator → Int → Int → Int
  | .clr, _, _ => 0
  | .and, i, j => Int.land i j
  | .andc2, i, j => Int.lnot (mpzOrc1 i j)
  | .b1, i, _ => i
  | .andc1, i, j => mpzAndc1 i j
  | .b2, _, j => j
  | .xor, i, j => Int.xor i j
  | .ior, i, j => Int.lor i j
  | .nor, i, j => Int.lnot (Int.lor i j)
  | .eqv, i, j => Int.lnot (Int.xor i j)
  | .c2, _, j => Int.lnot j
  | .orc2, i, j => Int.lnot (mpzAndc1 i j)
  | .c1, i, _ => Int.lnot i
  | .orc1, i, j => mpzOrc1 i j
  | .nand, i, j => Int.lnot (Int.land i j)
  | .set, _, _ => -1

namespace Integer

/-- The function ecl_boole. -/
def boole (op : BitOperator) : Integer → Integer → Integer
  | .fixnum x, .fixnum y => makeFixnum (fixnumOperations op (fix x) (fix y))
  | .fixnum x, .bignum y => bigRegisterNormalize (bignumOperations op (fix x).toInt y)
  | .bignum x, .fixnum y => bigRegisterNormalize (bignumOperations op x (fix y).toInt)
  | .bignum x, .bignum y => bigRegisterNormalize (bignumOperations op x y)

/-- The function log_op, on its first argument and the others. -/
def logOp (op : BitOperator) (x : Integer) (nums : List Integer) : Integer :=
  nums.foldl (boole op) x

def logandc2 (x y : Integer) : Integer := boole .andc2 x y

def lognot (x : Integer) : Integer := logOp .xor x [makeFixnum (-1)]

end Integer

/-- What an operation makes of two bits. -/
def BitOperator.truth : BitOperator → Bool → Bool → Bool
  | .clr, _, _ => false
  | .and, a, b => a && b
  | .andc2, a, b => a && !b
  | .b1, a, _ => a
  | .andc1, a, b => !a && b
  | .b2, _, b => b
  | .xor, a, b => a ^^ b
  | .ior, a, b => a || b
  | .nor, a, b => !(a || b)
  | .eqv, a, b => !(a ^^ b)
  | .c2, _, b => !b
  | .orc2, a, b => a || !b
  | .c1, a, _ => !a
  | .orc1, a, b => !a || b
  | .nand, a, b => !(a && b)
  | .set, _, _ => true

theorem getLsbD_fixnumOperations {w : Nat} (op : BitOperator) (x y : BitVec w) {j : Nat}
    (below : j < w) :
    (fixnumOperations op x y).getLsbD j = op.truth (x.getLsbD j) (y.getLsbD j) := by
  cases op <;> simp [fixnumOperations, BitOperator.truth, below, neg_one_eq_allOnes]

theorem bignumOperations_eq (op : BitOperator) (a b : Int) :
    bignumOperations op a b = Int.bitwise op.truth a b := by
  apply Lib.testBit_ext
  intro j
  rw [testBit_bitwise]
  cases op <;> simp [bignumOperations, mpzOrc1, mpzAndc1, BitOperator.truth, Lib.testBit_zero,
    Lib.testBit_neg_one]

theorem toInt_fixnumOperations {n w : Nat} (some : 0 < n) (le : n ≤ w) (op : BitOperator)
    (x y : BitVec n) :
    ((fixnumOperations op (x.signExtend w) (y.signExtend w)).setWidth n).toInt =
      Int.bitwise op.truth x.toInt y.toInt := by
  apply Lib.testBit_ext
  intro j
  have place {k : Nat} (below : k < n) :
      ((fixnumOperations op (x.signExtend w) (y.signExtend w)).setWidth n).getLsbD k =
        op.truth (x.getLsbD k) (y.getLsbD k) := by
    rw [getLsbD_setWidth, getLsbD_fixnumOperations op _ _ (by omega),
      getLsbD_signExtend, getLsbD_signExtend]
    simp only [below, show k < w by omega, decide_true, Bool.true_and, if_true]
  rw [testBit_bitwise, Lib.testBit_toInt, Lib.testBit_toInt, Lib.testBit_toInt]
  split
  · rename_i below
    exact place below
  · simp only [msb_eq_getLsbD_last]
    exact place (by omega)

namespace Integer

theorem boole_is (op : BitOperator) (x y : Integer) :
    (boole op x y).Is (Int.bitwise op.truth x.value y.value) := by
  rw [← bignumOperations_eq]
  cases x with
  | fixnum a =>
    cases y with
    | fixnum b =>
      refine ⟨trivial, ?_⟩
      rw [bignumOperations_eq]
      exact toInt_fixnumOperations (by decide) (by decide) op a b
    | bignum b =>
      rw [boole, toInt_fix]
      exact bigRegisterNormalize_is _
  | bignum a =>
    cases y with
    | fixnum b =>
      rw [boole, toInt_fix]
      exact bigRegisterNormalize_is _
    | bignum b => exact bigRegisterNormalize_is _

theorem logandc2_is (x y : Integer) : (logandc2 x y).Is (Int.ldiff x.value y.value) :=
  (boole_is .andc2 x y).of_eq (congrFun (congrFun bitwise_diff x.value) y.value)

theorem logxor_is (x y : Integer) : (boole .xor x y).Is (Int.xor x.value y.value) :=
  (boole_is .xor x y).of_eq (congrFun (congrFun bitwise_xor x.value) y.value)

end Integer

end Ecl.Number

/- ASH. -/
namespace Ecl.Lib

open Int

/-- A number shifted to the left, or for a negative count to the right, with all its signs. -/
def shift (a k : Int) : Int := if k < 0 then a / 2 ^ (-k).toNat else a * 2 ^ k.toNat

theorem shift_left {a k : Int} (nonneg : 0 ≤ k) : shift a k = a * 2 ^ k.toNat :=
  if_neg (by omega)

theorem shift_right {a : Int} (k : Nat) : shift a (-k) = a / 2 ^ k := by
  cases k with
  | zero => simp only [shift, Nat.cast_zero, neg_zero, lt_irrefl, if_false, toNat_zero,
      pow_zero, mul_one, ediv_one]
  | succ k => rw [shift, if_pos (by omega), neg_neg, toNat_natCast]

theorem div_two_pow_of_small {a : Int} {k : Nat} (low : -2 ^ k ≤ a) (high : a < 2 ^ k) :
    a / 2 ^ k = if a < 0 then -1 else 0 := by
  have positive : (0 : Int) < 2 ^ k := by positivity
  split
  · rename_i negative
    have split := emod_add_mul_ediv a (2 ^ k)
    rw [ediv_eq_neg_one_of_neg_of_le negative (by omega)]
  · exact ediv_eq_zero_of_lt (by omega) high

end Ecl.Lib

namespace Ecl.Number

/-- The error "Insufficient memory." of ASH. -/
inductive ShiftError where
  | insufficientMemory
  deriving DecidableEq

namespace Integer

/-- The function ecl_ash. -/
def ash (x : Integer) (w : BitVec 64) : Integer :=
  if w = 0 then x
  else if w.toInt < 0 then
    let bits := (-w).toNat
    match x with
    | .fixnum n =>
      let y := fix n
      makeFixnum (if 64 ≤ bits then (if y.toInt < 0 then -1 else 0) else y.sshiftRight bits)
    | .bignum v => bigRegisterNormalize (v / 2 ^ bits)
  else
    match x with
    | .fixnum n => bigRegisterNormalize ((fix n).toInt * 2 ^ w.toNat)
    | .bignum v => bigRegisterNormalize (v * 2 ^ w.toNat)

/-- The sign that cl_ash finds. -/
def signOf (x : Integer) : Int :=
  match x with
  | .fixnum n => if (fix n).toInt < 0 then -1 else if x = makeFixnum 0 then 0 else 1
  | .bignum v => bigSize v

/-- The function cl_ash. -/
def clAsh (x : Integer) : Integer → Except ShiftError Integer
  | .fixnum w => .ok (ash x (fix w))
  | .bignum y =>
    if bigSize y < 0 then .ok (if signOf x < 0 then makeFixnum (-1) else makeFixnum 0)
    else if signOf x = 0 then .ok x
    else .error .insufficientMemory

theorem signOf_neg_iff (x : Integer) : signOf x < 0 ↔ x.value < 0 := by
  cases x with
  | fixnum n =>
    rw [signOf, toInt_fix, value]
    split
    · omega
    · split <;> omega
  | bignum v => exact bigSize_neg_iff v

theorem signOf_eq_zero_iff {x : Integer} (canonical : x.Canonical) :
    signOf x = 0 ↔ x.value = 0 := by
  have zero := eq_zero_iff canonical
  cases x with
  | fixnum n =>
    have range := fixnum_range n
    rw [signOf, toInt_fix]
    split
    · rename_i negative
      show _ ↔ n.toInt = 0
      omega
    · split
      · rename_i none
        simp only [zero.mp none]
      · rename_i other
        simp only [mt zero.mpr other, one_ne_zero]
  | bignum v =>
    have neg := bigSize_neg_iff v
    have pos := bigSize_pos_iff v
    show bigSize v = 0 ↔ v = 0
    omega

theorem ash_fixnum_right (n : BitVec 62) (bits : Nat) :
    (makeFixnum (if 64 ≤ bits then (if (fix n).toInt < 0 then -1 else 0)
      else (fix n).sshiftRight bits)).Is (n.toInt / 2 ^ bits) := by
  have range := fixnum_range n
  rw [mostNegativeFixnum_eq, mostPositiveFixnum_eq] at range
  have positive : (0 : Int) < 2 ^ bits := by positivity
  by_cases long : 64 ≤ bits
  · have large : (2 : Int) ^ 64 ≤ 2 ^ bits := pow_le_pow_right₀ (by decide) long
    rw [if_pos long, toInt_fix, Lib.div_two_pow_of_small (by omega) (by omega)]
    split
    · exact ⟨trivial, by decide⟩
    · exact makeFixnum_zero
  · have value : ((fix n).sshiftRight bits).toInt = n.toInt / 2 ^ bits := by
      rw [BitVec.toInt_sshiftRight, toInt_fix, Int.shiftRight_eq_div_pow]
      push_cast
      rfl
    have low : -2305843009213693952 ≤ n.toInt / 2 ^ bits := by
      rw [Int.le_ediv_iff_mul_le positive]
      nlinarith
    have high : n.toInt / 2 ^ bits < 2305843009213693952 := by
      rw [Int.ediv_lt_iff_lt_mul positive]
      nlinarith
    rw [if_neg long, ← value]
    apply makeFixnum_is
    · rw [mostNegativeFixnum_eq, value]
      exact low
    · rw [mostPositiveFixnum_eq, value]
      omega

theorem ash_is {x : Integer} (canonical : x.Canonical) (w : BitVec 64) :
    (ash x w).Is (Lib.shift x.value w.toInt) := by
  by_cases none : w = 0
  · rw [ash.eq_def, if_pos none, none, Lib.shift_left (by decide)]
    exact (is_value canonical).of_eq (mul_one _).symm
  · rw [ash.eq_def, if_neg none]
    by_cases negative : w.toInt < 0
    · have bits : (-w.toInt).toNat = (-w).toNat := by
        have places := toNat_neg_of_neg (i := w) (by omega)
        omega
      rw [if_pos negative, Lib.shift, if_pos negative, bits]
      cases x with
      | fixnum n => exact ash_fixnum_right n _
      | bignum v => exact bigRegisterNormalize_is _
    · have places := toNat_of_nonneg (i := w) (by omega)
      have count : w.toInt.toNat = w.toNat := by omega
      rw [if_neg negative, Lib.shift, if_neg negative, count]
      cases x with
      | fixnum n =>
        show (bigRegisterNormalize ((fix n).toInt * 2 ^ w.toNat)).Is _
        rw [toInt_fix]
        exact bigRegisterNormalize_is _
      | bignum v => exact bigRegisterNormalize_is _

theorem clAsh_fixnum {x : Integer} (canonical : x.Canonical) (w : BitVec 62) :
    ∃ r, clAsh x (.fixnum w) = .ok r ∧ r.Is (Lib.shift x.value w.toInt) := by
  have shifted := ash_is canonical (fix w)
  rw [toInt_fix] at shifted
  exact ⟨_, rfl, shifted⟩

theorem clAsh_bignum_right {x : Integer} {y : Int} (negative : y < 0) :
    ∃ r, clAsh x (.bignum y) = .ok r ∧ r.Is (if x.value < 0 then -1 else 0) := by
  have right := (bigSize_neg_iff y).mpr negative
  simp only [clAsh, right, if_true, signOf_neg_iff]
  refine ⟨_, rfl, ?_⟩
  split
  · exact ⟨trivial, by decide⟩
  · exact makeFixnum_zero

theorem clAsh_bignum_left {x : Integer} (canonical : x.Canonical) {y : Int} (positive : 0 < y) :
    clAsh x (.bignum y) = if x.value = 0 then .ok x else .error .insufficientMemory := by
  have notRight := mt (bigSize_neg_iff y).mp (by omega)
  simp only [clAsh, notRight, if_false, signOf_eq_zero_iff canonical]

end Integer

end Ecl.Number
