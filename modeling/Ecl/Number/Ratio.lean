import Mathlib.Algebra.Order.Field.Rat
import Mathlib.Tactic.FieldSimp
import Ecl.Number.IntegerLaw

/- Ratios, and the rational cases of num_arith.d and number.d. -/
namespace Ecl.Number

open Int

/-- A cl_object that holds a rational number. -/
inductive Rational where
  | integer (n : Integer)
  | ratio (num den : Integer)
  deriving DecidableEq

namespace Rational

def value : Rational → ℚ
  | .integer n => n.value
  | .ratio num den => num.value / den.value

/-- A ratio is in lowest terms and is not an integer. -/
def Canonical : Rational → Prop
  | .integer n => n.Canonical
  | .ratio num den =>
    num.Canonical ∧ den.Canonical ∧ 1 < den.value ∧ Int.gcd num.value den.value = 1

instance : (x : Rational) → Decidable x.Canonical
  | .integer n => inferInstanceAs (Decidable n.Canonical)
  | .ratio num den =>
    inferInstanceAs (Decidable (num.Canonical ∧ den.Canonical ∧ 1 < den.value ∧
      Int.gcd num.value den.value = 1))

end Rational

/-- The division of both terms of a fraction by their greatest common divisor. -/
def reduce (num den : Integer) : Except ArithmeticError (Integer × Integer) :=
  let g := num.gcd den
  if g ≠ makeFixnum 1 then do
    let num ← integerDivide num g
    let den ← integerDivide den g
    .ok (num, den)
  else .ok (num, den)

def makeRatio (num den : Integer) : Except ArithmeticError Rational :=
  if den = makeFixnum 0 then .error .divisionByZero
  else if num = makeFixnum 0 ∨ den = makeFixnum 1 then .ok (.integer num)
  else do
    let (num, den) ← if den.minusp then reduce num.negate den.negate else reduce num den
    if den = makeFixnum 1 then .ok (.integer num)
    else if den = makeFixnum (-1) then .ok (.integer num.negate)
    else .ok (.ratio num den)

namespace Rational

def times : Rational → Rational → Except ArithmeticError Rational
  | .integer x, .integer y => .ok (.integer (x.times y))
  | .integer x, .ratio num den => makeRatio (x.times num) den
  | .ratio num den, .integer y => makeRatio (num.times y) den
  | .ratio num den, .ratio num' den' => makeRatio (num.times num') (den.times den')

def plus : Rational → Rational → Except ArithmeticError Rational
  | .integer x, .integer y => .ok (.integer (x.plus y))
  | .integer x, .ratio num den => makeRatio ((x.times den).plus num) den
  | .ratio num den, .integer y => makeRatio (num.plus (den.times y)) den
  | .ratio num den, .ratio num' den' =>
    makeRatio ((num.times den').plus (den.times num')) (den.times den')

def minus : Rational → Rational → Except ArithmeticError Rational
  | .integer x, .integer y => .ok (.integer (x.minus y))
  | .integer x, .ratio num den => makeRatio ((x.times den).minus num) den
  | .ratio num den, .integer y => makeRatio (num.minus (den.times y)) den
  | .ratio num den, .ratio num' den' =>
    makeRatio ((num.times den').minus (den.times num')) (den.times den')

def negate : Rational → Rational
  | .integer x => .integer x.negate
  | .ratio num den => .ratio num.negate den

def onePlus : Rational → Except ArithmeticError Rational
  | .integer x => .ok (.integer x.onePlus)
  | .ratio num den => makeRatio (num.plus den) den

def oneMinus : Rational → Except ArithmeticError Rational
  | .integer x => .ok (.integer x.oneMinus)
  | .ratio num den => makeRatio (num.minus den) den

def divide : Rational → Rational → Except ArithmeticError Rational
  | .integer x, .integer y =>
    if y = makeFixnum 0 then .error .divisionByZero
    else if y.minusp then makeRatio x.negate y.negate
    else makeRatio x y
  | .integer x, .ratio num den => makeRatio (x.times den) num
  | .ratio num den, .integer y =>
    if y = makeFixnum 0 then .error .divisionByZero
    else makeRatio num (den.times y)
  | .ratio num den, .ratio num' den' => makeRatio (num.times den') (den.times num')

def minusp : Rational → Bool
  | .integer x => x.minusp
  | .ratio num _ => num.minusp

def gcd : Rational → Rational → Except ArithmeticError Rational
  | .integer x, .integer y => .ok (.integer (x.gcd y))
  | _, _ => .error .notInteger

/-- The loop of LCM over the arguments that are left. -/
def lcmLoop (lcm : Rational) : List Rational → Except ArithmeticError Rational
  | [] => .ok lcm
  | numi :: nums => do
      let t ← times lcm numi
      let g ← gcd numi lcm
      if g ≠ .integer (makeFixnum 0) then
        let lcm ← divide t g
        lcmLoop lcm nums
      else lcmLoop lcm nums

def lcm : List Rational → Except ArithmeticError Rational
  | [] => .ok (.integer (makeFixnum 1))
  | .ratio _ _ :: _ => .error .notInteger
  | .integer first :: nums => do
      let lcm ← lcmLoop (.integer first) nums
      .ok (if lcm.minusp then lcm.negate else lcm)

end Rational

/-- An operation returns, and with the canonical object for a number. -/
def Exact (result : Except ArithmeticError Rational) (q : ℚ) : Prop :=
  ∃ z : Rational, result = .ok z ∧ z.Canonical ∧ z.value = q

theorem Exact.of_eq {result : Except ArithmeticError Rational} {q r : ℚ} (exact : Exact result q)
    (same : q = r) : Exact result r :=
  same ▸ exact

theorem exact_integer {n : Integer} {v : Int} (is : n.Is v) : Exact (.ok (.integer n)) v :=
  ⟨_, rfl, is.canonical, congrArg Int.cast is.value_eq⟩

theorem reduce_spec {num den : Integer} (canonicalNum : num.Canonical)
    (canonicalDen : den.Canonical) (positive : 0 < den.value) :
    ∃ n d : Integer, reduce num den = .ok (n, d) ∧ n.Canonical ∧ d.Canonical ∧ 0 < d.value ∧
      Int.gcd n.value d.value = 1 ∧ num.value * d.value = n.value * den.value := by
  have common := Integer.gcd_is num den
  have divisible : 0 < Int.gcd num.value den.value := gcd_pos_of_ne_zero_right _ positive.ne'
  simp only [reduce]
  by_cases one : num.gcd den = makeFixnum 1
  · have unit : Int.gcd num.value den.value = 1 := by
      have value := common.value_eq
      rw [one, Integer.makeFixnum_one.value_eq] at value
      omega
    rw [if_neg (not_not_intro one)]
    exact ⟨num, den, rfl, canonicalNum, canonicalDen, positive, unit, rfl⟩
  · have nonzero : (num.gcd den).value ≠ 0 := by rw [common.value_eq]; omega
    have notMinus : (num.gcd den).value ≠ -1 := by rw [common.value_eq]; omega
    obtain ⟨n, runN, isN⟩ := integerDivide_is (x := num) common.canonical nonzero
      (fun both => notMinus both.2)
    obtain ⟨d, runD, isD⟩ := integerDivide_is (x := den) common.canonical nonzero
      (fun both => notMinus both.2)
    rw [common.value_eq] at isN isD
    have multipleN := Int.tdiv_mul_cancel (Int.gcd_dvd_left num.value den.value)
    have multipleD := Int.tdiv_mul_cancel (Int.gcd_dvd_right num.value den.value)
    rw [← isN.value_eq] at multipleN
    rw [← isD.value_eq] at multipleD
    rw [if_pos one, runN, runD]
    refine ⟨n, d, rfl, isN.canonical, isD.canonical, ?_, ?_, ?_⟩
    · rw [← multipleD] at positive
      exact (mul_pos_iff_of_pos_right (natCast_pos.mpr divisible)).mp positive
    · rw [isN.value_eq, isD.value_eq, tdiv_eq_ediv_of_dvd (Int.gcd_dvd_left _ _),
        tdiv_eq_ediv_of_dvd (Int.gcd_dvd_right _ _)]
      exact gcd_ediv_gcd_ediv_gcd divisible
    · calc
        num.value * d.value = n.value * Int.gcd num.value den.value * d.value := by rw [multipleN]
        _ = n.value * (d.value * Int.gcd num.value den.value) := by ring
        _ = n.value * den.value := by rw [multipleD]

theorem exact_reduced {n d : Integer} (canonicalN : n.Canonical) (canonicalD : d.Canonical)
    (positive : 0 < d.value) (coprime : Int.gcd n.value d.value = 1) :
    Exact (if d = makeFixnum 1 then .ok (.integer n)
      else if d = makeFixnum (-1) then .ok (.integer n.negate)
      else .ok (.ratio n d)) (n.value / d.value) := by
  have one := Integer.eq_one_iff canonicalD
  split
  · rename_i unit
    apply (exact_integer (Integer.is_value canonicalN)).of_eq
    rw [one.mp unit, cast_one, div_one]
  · rename_i several
    have notOne := mt one.mpr several
    have notMinus : d ≠ makeFixnum (-1) := by
      rintro rfl
      exact absurd positive (by decide)
    rw [if_neg notMinus]
    exact ⟨_, rfl, ⟨canonicalN, canonicalD, by omega, coprime⟩, rfl⟩

theorem makeRatio_positive {num den : Integer} (canonicalNum : num.Canonical)
    (canonicalDen : den.Canonical) (positive : 0 < den.value) :
    Exact (reduce num den >>= fun pair =>
      if pair.2 = makeFixnum 1 then .ok (.integer pair.1)
      else if pair.2 = makeFixnum (-1) then .ok (.integer pair.1.negate)
      else .ok (.ratio pair.1 pair.2)) (num.value / den.value) := by
  obtain ⟨n, d, run, canonicalN, canonicalD, positiveD, coprime, cross⟩ :=
    reduce_spec canonicalNum canonicalDen positive
  rw [run]
  apply (exact_reduced canonicalN canonicalD positiveD coprime).of_eq
  rw [div_eq_div_iff (cast_ne_zero.mpr positiveD.ne') (cast_ne_zero.mpr positive.ne')]
  exact_mod_cast cross.symm

theorem makeRatio_exact {num den : Integer} (canonicalNum : num.Canonical)
    (canonicalDen : den.Canonical) (nonzero : den.value ≠ 0) :
    Exact (makeRatio num den) (num.value / den.value) := by
  have zero := Integer.eq_zero_iff canonicalDen
  rw [makeRatio, if_neg (mt zero.mp nonzero)]
  split
  · rename_i trivialCase
    apply (exact_integer (Integer.is_value canonicalNum)).of_eq
    rcases trivialCase with noNum | unit
    · rw [(Integer.eq_zero_iff canonicalNum).mp noNum, cast_zero, zero_div]
    · rw [(Integer.eq_one_iff canonicalDen).mp unit, cast_one, div_one]
  · split
    · rename_i negative
      have isNum := Integer.negate_is num
      have isDen := Integer.negate_is den
      have below := (Integer.minusp_iff den).mp negative
      apply (makeRatio_positive isNum.canonical isDen.canonical
        (by rw [isDen.value_eq]; omega)).of_eq
      rw [isNum.value_eq, isDen.value_eq, cast_neg, cast_neg, neg_div_neg_eq]
    · rename_i notNegative
      have above := mt (Integer.minusp_iff den).mpr notNegative
      exact makeRatio_positive canonicalNum canonicalDen (by omega)

end Ecl.Number
