import Mathlib.Data.Int.Log
import Mathlib.Tactic.Ring

/- Fixnums, bignums and the integer cases of num_arith.d, on a machine with 64 bit words
and 62 bit fixnums. A GMP integer is the number that it holds. -/
namespace Ecl.Number

/-- A cl_object that holds an integer. -/
inductive Integer where
  | fixnum (n : BitVec 62)
  | bignum (value : Int)
  deriving DecidableEq

def mostPositiveFixnum : Int := 2 ^ 61 - 1

def mostNegativeFixnum : Int := -2 ^ 61

/-- MAKE_FIXNUM: the tag pushes out the two upper bits. -/
def makeFixnum (n : BitVec 64) : Integer := .fixnum (n.setWidth 62)

/-- The macro fix(x). -/
def fix (n : BitVec 62) : BitVec 64 := n.signExtend 64

namespace Integer

def value : Integer → Int
  | .fixnum n => n.toInt
  | .bignum value => value

/-- A bignum never holds a number that is a fixnum. -/
def Canonical : Integer → Prop
  | .fixnum _ => True
  | .bignum value => value < mostNegativeFixnum ∨ mostPositiveFixnum < value

instance : (x : Integer) → Decidable x.Canonical
  | .fixnum _ => inferInstanceAs (Decidable True)
  | .bignum v => inferInstanceAs (Decidable (v < mostNegativeFixnum ∨ mostPositiveFixnum < v))

/-- The object is the one that stands for a number. -/
structure Is (x : Integer) (n : Int) : Prop where
  canonical : x.Canonical
  value_eq : x.value = n

end Integer

def makeInteger (l : BitVec 64) : Integer :=
  if mostPositiveFixnum < l.toInt ∨ l.toInt < mostNegativeFixnum then .bignum l.toInt
  else makeFixnum l

/-- The field big_size of a register: the number of limbs, with the sign of the number. -/
def bigSize (v : Int) : Int :=
  if v = 0 then 0 else v.sign * (Nat.log2 v.natAbs / 64 + 1 : Nat)

/-- The lowest limb of a register. -/
def bigLimb (v : Int) : BitVec 64 := BitVec.ofNat 64 v.natAbs

/-- The function _ecl_big_register_normalize. -/
def bigRegisterNormalize (v : Int) : Integer :=
  let s := bigSize v
  let y := bigLimb v
  if s = 0 then makeFixnum 0
  else if s = 1 then
    if (y.toNat : Int) ≤ mostPositiveFixnum then makeFixnum y else .bignum v
  else if s = -1 then
    if (y.toNat : Int) ≤ -mostNegativeFixnum then makeFixnum (-y) else .bignum v
  else .bignum v

namespace Integer

def minusp : Integer → Bool
  | .fixnum n => (fix n).toInt < 0
  | .bignum v => bigSize v < 0

def plusp : Integer → Bool
  | .fixnum n => 0 < (fix n).toInt
  | .bignum v => 0 < bigSize v

def oddp : Integer → Bool
  | .fixnum n => fix n &&& 1 != 0
  | .bignum v => bigLimb v &&& 1 != 0

def fixnumTimes (i j : BitVec 64) : Integer := bigRegisterNormalize (i.toInt * j.toInt)

/-- The function _ecl_big_times_fix. -/
def bigTimesFix (b : Int) (i : BitVec 64) : Integer :=
  if i = 1 then .bignum b
  else if i = -1 then bigRegisterNormalize (-b)
  else bigRegisterNormalize (b * i.toInt)

/-- The function _ecl_big_times_big. -/
def bigTimesBig (x y : Int) : Integer := bigRegisterNormalize (x * y)

/-- The cases of ecl_times for two integers. -/
def times : Integer → Integer → Integer
  | .fixnum x, .fixnum y => fixnumTimes (fix x) (fix y)
  | .fixnum x, .bignum y => bigTimesFix y (fix x)
  | .bignum x, .fixnum y => bigTimesFix x (fix y)
  | .bignum x, .bignum y => bigTimesBig x y

/-- The addition of a fixnum to a bignum; mpz_add_ui and mpz_sub_ui take unsigned words. -/
def bigPlusFix (b : Int) (i : BitVec 64) : Integer :=
  if i = 0 then .bignum b
  else if 0 < i.toInt then bigRegisterNormalize (b + i.toNat)
  else bigRegisterNormalize (b - (-i).toNat)

/-- The cases of ecl_plus for two integers. -/
def plus : Integer → Integer → Integer
  | .fixnum x, .fixnum y => makeInteger (fix x + fix y)
  | .fixnum x, .bignum y => bigPlusFix y (fix x)
  | .bignum x, .fixnum y => bigPlusFix x (fix y)
  | .bignum x, .bignum y => bigRegisterNormalize (x + y)

/-- The cases of ecl_minus for two integers. -/
def minus : Integer → Integer → Integer
  | .fixnum x, .fixnum y => makeInteger (fix x - fix y)
  | .fixnum x, .bignum y =>
    let i := fix x
    let z := if 0 < i.toInt then y - i.toNat else y + (-i).toNat
    bigRegisterNormalize (-z)
  | .bignum x, .fixnum y =>
    let j := fix y
    if j = 0 then .bignum x
    else if 0 < j.toInt then bigRegisterNormalize (x - j.toNat)
    else bigRegisterNormalize (x + (-j).toNat)
  | .bignum x, .bignum y => bigRegisterNormalize (x - y)

def negate : Integer → Integer
  | .fixnum x => makeInteger (-fix x)
  | .bignum x => bigRegisterNormalize (-x)

/-- The fixnum cases add and subtract one in the word above the tag. -/
def onePlus : Integer → Integer
  | .fixnum x =>
    if Integer.fixnum x = makeFixnum (BitVec.ofInt 64 mostPositiveFixnum) then
      makeInteger (BitVec.ofInt 64 (mostPositiveFixnum + 1))
    else .fixnum (x + 1)
  | .bignum x => plus (.bignum x) (makeFixnum 1)

def oneMinus : Integer → Integer
  | .fixnum x =>
    if Integer.fixnum x = makeFixnum (BitVec.ofInt 64 mostNegativeFixnum) then
      makeInteger (BitVec.ofInt 64 (mostNegativeFixnum - 1))
    else .fixnum (x - 1)
  | .bignum x => minus (.bignum x) (makeFixnum 1)

/-- The registers of ecl_gcd hold the numbers of the arguments. -/
def gcd (x y : Integer) : Integer := bigRegisterNormalize (Int.gcd x.value y.value)

end Integer

/-- What keeps an operation from returning: FEdivision_by_zero, FEtype_error_integer, or a
division by zero of the processor or of GMP. -/
inductive ArithmeticError where
  | divisionByZero
  | notInteger
  | trap
  deriving DecidableEq

/-- The function ecl_integer_divide. -/
def integerDivide : Integer → Integer → Except ArithmeticError Integer
  | .fixnum x, .fixnum y =>
    if Integer.fixnum y = makeFixnum 0 then .error .divisionByZero
    else .ok (makeFixnum ((fix x).sdiv (fix y)))
  | .fixnum x, .bignum y =>
    if mostPositiveFixnum < -mostNegativeFixnum then
      if y ≠ (-fix x).toInt then .ok (makeFixnum 0) else .ok (makeFixnum (-1))
    else .ok (makeFixnum 0)
  | .bignum x, .bignum y => if y = 0 then .error .trap else .ok (bigRegisterNormalize (x.tdiv y))
  | .bignum x, .fixnum y =>
    let j := fix y
    let labs : BitVec 64 := if j.toInt < 0 then -j else j
    if labs = 0 then .error .trap
    else
      let q := x.tdiv labs.toNat
      .ok (bigRegisterNormalize (if j.toInt < 0 then -q else q))

end Ecl.Number
