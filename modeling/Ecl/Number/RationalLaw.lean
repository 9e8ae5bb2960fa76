import Mathlib.Algebra.GCDMonoid.Nat
import Ecl.Number.Ratio

/- Addition, multiplication, division and their relatives on integers and ratios return
the canonical object for the exact result. -/
namespace Ecl.Number

open List Int

namespace Rational

structure Terms (n d : Integer) : Prop where
  num : n.Canonical
  den : d.Canonical
  positive : 0 < d.value
  nonzero : n.value ≠ 0

variable {num den : Integer}

theorem Canonical.terms (canonical : (ratio num den).Canonical) : Terms num den := by
  obtain ⟨canonicalNum, canonicalDen, above, coprime⟩ := canonical
  refine ⟨canonicalNum, canonicalDen, by omega, ?_⟩
  intro zero
  rw [zero, gcd_zero_left] at coprime
  omega

theorem Terms.den_ne_zero (terms : Terms num den) : (den.value : ℚ) ≠ 0 :=
  cast_ne_zero.mpr terms.positive.ne'

theorem makeRatio_of_is {n d : Int} (isNum : num.Is n) (isDen : den.Is d)
    (nonzero : d ≠ 0) : Exact (makeRatio num den) (n / d) := by
  have made :=
    makeRatio_exact isNum.canonical isDen.canonical (by rw [isDen.value_eq]; exact nonzero)
  rwa [isNum.value_eq, isDen.value_eq] at made

variable {x y : Rational}

theorem times_exact (canonicalX : x.Canonical) (canonicalY : y.Canonical) :
    Exact (x.times y) (x.value * y.value) := by
  cases x with
  | integer x =>
    cases y with
    | integer y =>
      apply (exact_integer (Integer.times_is canonicalX canonicalY)).of_eq
      exact cast_mul _ _
    | ratio num den =>
      have terms := canonicalY.terms
      apply (makeRatio_of_is (Integer.times_is canonicalX terms.num)
        (Integer.is_value terms.den) terms.positive.ne').of_eq
      simp only [value, cast_mul, mul_div_assoc]
  | ratio num den =>
    have terms := canonicalX.terms
    cases y with
    | integer y =>
      apply (makeRatio_of_is (Integer.times_is terms.num canonicalY)
        (Integer.is_value terms.den) terms.positive.ne').of_eq
      simp only [value, cast_mul, div_mul_eq_mul_div]
    | ratio num' den' =>
      have terms' := canonicalY.terms
      apply (makeRatio_of_is (Integer.times_is terms.num terms'.num)
        (Integer.times_is terms.den terms'.den)
        (mul_ne_zero terms.positive.ne' terms'.positive.ne')).of_eq
      simp only [value, cast_mul, div_mul_div_comm]

theorem plus_exact (canonicalX : x.Canonical) (canonicalY : y.Canonical) :
    Exact (x.plus y) (x.value + y.value) := by
  cases x with
  | integer x =>
    cases y with
    | integer y =>
      apply (exact_integer (Integer.plus_is canonicalX canonicalY)).of_eq
      exact cast_add _ _
    | ratio num den =>
      have terms := canonicalY.terms
      have product := Integer.times_is canonicalX terms.den
      have sum := Integer.plus_is product.canonical terms.num
      rw [product.value_eq] at sum
      apply (makeRatio_of_is sum (Integer.is_value terms.den) terms.positive.ne').of_eq
      have nonzero := terms.den_ne_zero
      simp only [value, cast_mul, cast_add]
      field_simp
  | ratio num den =>
    have terms := canonicalX.terms
    have nonzero := terms.den_ne_zero
    cases y with
    | integer y =>
      have product := Integer.times_is terms.den canonicalY
      have sum := Integer.plus_is terms.num product.canonical
      rw [product.value_eq] at sum
      apply (makeRatio_of_is sum (Integer.is_value terms.den) terms.positive.ne').of_eq
      simp only [value, cast_mul, cast_add]
      field_simp
    | ratio num' den' =>
      have terms' := canonicalY.terms
      have nonzero' := terms'.den_ne_zero
      have left := Integer.times_is terms.num terms'.den
      have right := Integer.times_is terms.den terms'.num
      have sum := Integer.plus_is left.canonical right.canonical
      rw [left.value_eq, right.value_eq] at sum
      apply (makeRatio_of_is sum (Integer.times_is terms.den terms'.den)
        (mul_ne_zero terms.positive.ne' terms'.positive.ne')).of_eq
      simp only [value, cast_mul, cast_add]
      field_simp

theorem minus_exact (canonicalX : x.Canonical) (canonicalY : y.Canonical) :
    Exact (x.minus y) (x.value - y.value) := by
  cases x with
  | integer x =>
    cases y with
    | integer y =>
      apply (exact_integer (Integer.minus_is canonicalX canonicalY)).of_eq
      exact cast_sub _ _
    | ratio num den =>
      have terms := canonicalY.terms
      have nonzero := terms.den_ne_zero
      have product := Integer.times_is canonicalX terms.den
      have difference := Integer.minus_is product.canonical terms.num
      rw [product.value_eq] at difference
      apply (makeRatio_of_is difference (Integer.is_value terms.den) terms.positive.ne').of_eq
      simp only [value, cast_mul, cast_sub]
      field_simp
  | ratio num den =>
    have terms := canonicalX.terms
    have nonzero := terms.den_ne_zero
    cases y with
    | integer y =>
      have product := Integer.times_is terms.den canonicalY
      have difference := Integer.minus_is terms.num product.canonical
      rw [product.value_eq] at difference
      apply (makeRatio_of_is difference (Integer.is_value terms.den) terms.positive.ne').of_eq
      simp only [value, cast_mul, cast_sub]
      field_simp
    | ratio num' den' =>
      have terms' := canonicalY.terms
      have nonzero' := terms'.den_ne_zero
      have left := Integer.times_is terms.num terms'.den
      have right := Integer.times_is terms.den terms'.num
      have difference := Integer.minus_is left.canonical right.canonical
      rw [left.value_eq, right.value_eq] at difference
      apply (makeRatio_of_is difference (Integer.times_is terms.den terms'.den)
        (mul_ne_zero terms.positive.ne' terms'.positive.ne')).of_eq
      simp only [value, cast_mul, cast_sub]
      field_simp

theorem negate_canonical (canonical : x.Canonical) : x.negate.Canonical := by
  cases x with
  | integer x => exact (Integer.negate_is x).canonical
  | ratio num den =>
    obtain ⟨_, canonicalDen, above, coprime⟩ := canonical
    have negated := Integer.negate_is num
    refine ⟨negated.canonical, canonicalDen, above, ?_⟩
    rw [negated.value_eq, neg_gcd, coprime]

theorem negate_value (x : Rational) : x.negate.value = -x.value := by
  cases x with
  | integer x =>
    simp only [negate, value, (Integer.negate_is x).value_eq, cast_neg]
  | ratio num den =>
    simp only [negate, value, (Integer.negate_is num).value_eq, cast_neg, neg_div]

theorem onePlus_exact (canonical : x.Canonical) : Exact x.onePlus (x.value + 1) := by
  cases x with
  | integer x =>
    apply (exact_integer (Integer.onePlus_is canonical)).of_eq
    simp only [value, cast_add, cast_one]
  | ratio num den =>
    have terms := canonical.terms
    have nonzero := terms.den_ne_zero
    apply (makeRatio_of_is (Integer.plus_is terms.num terms.den) (Integer.is_value terms.den)
      terms.positive.ne').of_eq
    simp only [value, cast_add]
    field_simp

theorem oneMinus_exact (canonical : x.Canonical) : Exact x.oneMinus (x.value - 1) := by
  cases x with
  | integer x =>
    apply (exact_integer (Integer.oneMinus_is canonical)).of_eq
    simp only [value, cast_sub, cast_one]
  | ratio num den =>
    have terms := canonical.terms
    have nonzero := terms.den_ne_zero
    apply (makeRatio_of_is (Integer.minus_is terms.num terms.den) (Integer.is_value terms.den)
      terms.positive.ne').of_eq
    simp only [value, cast_sub]
    field_simp

theorem integer_divide_exact {x y : Integer} (canonicalX : x.Canonical) (canonicalY : y.Canonical)
    (nonzero : y.value ≠ 0) : Exact (divide (.integer x) (.integer y)) (x.value / y.value) := by
  have notZero := mt (Integer.eq_zero_iff canonicalY).mp nonzero
  simp only [divide, if_neg notZero]
  split
  · have isX := Integer.negate_is x
    have isY := Integer.negate_is y
    apply (makeRatio_of_is isX isY (neg_ne_zero.mpr nonzero)).of_eq
    rw [cast_neg, cast_neg, neg_div_neg_eq]
  · exact makeRatio_exact canonicalX canonicalY nonzero

theorem divide_exact (canonicalX : x.Canonical) (canonicalY : y.Canonical)
    (nonzero : y.value ≠ 0) : Exact (x.divide y) (x.value / y.value) := by
  cases x with
  | integer x =>
    cases y with
    | integer y => exact integer_divide_exact canonicalX canonicalY (cast_ne_zero.mp nonzero)
    | ratio num den =>
      have terms := canonicalY.terms
      apply (makeRatio_of_is (Integer.times_is canonicalX terms.den)
        (Integer.is_value terms.num) terms.nonzero).of_eq
      simp only [value, cast_mul, div_div_eq_mul_div]
  | ratio num den =>
    have terms := canonicalX.terms
    cases y with
    | integer y =>
      have nonzero : y.value ≠ 0 := cast_ne_zero.mp nonzero
      have notZero := mt (Integer.eq_zero_iff canonicalY).mp nonzero
      simp only [divide, if_neg notZero]
      apply (makeRatio_of_is (Integer.is_value terms.num) (Integer.times_is terms.den canonicalY)
        (mul_ne_zero terms.positive.ne' nonzero)).of_eq
      simp only [value, cast_mul, div_div]
    | ratio num' den' =>
      have terms' := canonicalY.terms
      apply (makeRatio_of_is (Integer.times_is terms.num terms'.den)
        (Integer.times_is terms.den terms'.num)
        (mul_ne_zero terms.positive.ne' terms'.nonzero)).of_eq
      simp only [value, cast_mul, div_div_div_eq]

theorem gcd_exact (x y : Integer) :
    Exact (gcd (.integer x) (.integer y)) (Int.gcd x.value y.value : ℕ) :=
  (exact_integer (Integer.gcd_is x y)).of_eq (cast_natCast _)

theorem integer_of_value {z : Rational} {n : Int} (canonical : z.Canonical)
    (value : z.value = n) : ∃ m : Integer, z = .integer m ∧ m.Is n := by
  cases z with
  | integer m => exact ⟨m, rfl, canonical, cast_injective value⟩
  | ratio num den =>
    obtain ⟨_, _, above, coprime⟩ := canonical
    have nonzero : (den.value : ℚ) ≠ 0 := cast_ne_zero.mpr (by omega)
    have multiple : num.value = n * den.value := by
      simp only [Rational.value] at value
      rw [div_eq_iff nonzero] at value
      exact_mod_cast value
    rw [multiple, gcd_mul_left_left] at coprime
    omega

theorem lcm_round {x y : Integer} (canonicalX : x.Canonical) (canonicalY : y.Canonical)
    (rest : List Rational) :
    ∃ z : Integer, z.Canonical ∧ z.value.natAbs = Nat.lcm x.value.natAbs y.value.natAbs ∧
      lcmLoop (.integer x) (.integer y :: rest) = lcmLoop (.integer z) rest := by
  have product := Integer.times_is canonicalX canonicalY
  have divisor := Integer.gcd_is y x
  by_cases zero : y.gcd x = makeFixnum 0
  · refine ⟨x, canonicalX, ?_, ?_⟩
    · have none : Int.gcd y.value x.value = 0 := by
        have value := divisor.value_eq
        rw [zero, Integer.makeFixnum_zero.value_eq] at value
        omega
      rw [(gcd_eq_zero_iff.mp none).2, natAbs_zero, Nat.lcm_zero_left]
    · simp only [lcmLoop, times, gcd, bind, Except.bind, zero, ne_eq, not_true_eq_false, if_false]
  · have nonzero := mt (Integer.eq_zero_iff divisor.canonical).mpr zero
    obtain ⟨w, run, canonical, quotient⟩ :=
      integer_divide_exact product.canonical divisor.canonical nonzero
    have divides : (Int.gcd y.value x.value : Int) ∣ x.value * y.value :=
      (gcd_dvd_right _ _).mul_right _
    obtain ⟨k, multiple⟩ := divides
    rw [divisor.value_eq] at nonzero quotient
    rw [product.value_eq, multiple, cast_mul,
      mul_div_cancel_left₀ _ (cast_ne_zero.mpr nonzero)] at quotient
    obtain ⟨z, rfl, is⟩ := integer_of_value canonical quotient
    refine ⟨z, is.canonical, ?_, ?_⟩
    · have size := congrArg Int.natAbs multiple
      rw [natAbs_mul, natAbs_mul, natAbs_natCast] at size
      rw [is.value_eq, Nat.lcm_eq_mul_div, size, Nat.gcd_comm]
      exact (Nat.mul_div_cancel_left _ (Nat.pos_of_ne_zero (by simpa using nonzero))).symm
    · simp only [lcmLoop, times, gcd, bind, Except.bind, ne_eq, Rational.integer.injEq, zero,
        not_false_eq_true, if_true, run]

theorem lcmLoop_spec {nums : List Integer} (canonical : ∀ n ∈ nums, n.Canonical) {x : Integer}
    (canonicalX : x.Canonical) :
    ∃ z : Integer, z.Canonical ∧
      z.value.natAbs = Nat.lcm x.value.natAbs
        (nums.foldr (fun n multiple => Nat.lcm n.value.natAbs multiple) 1) ∧
      lcmLoop (.integer x) (nums.map .integer) = .ok (.integer z) := by
  induction nums generalizing x with
  | nil => exact ⟨x, canonicalX, (Nat.lcm_one_right _).symm, rfl⟩
  | cons y nums ih =>
    obtain ⟨z, canonicalZ, size, round⟩ :=
      lcm_round canonicalX (canonical y (mem_cons_self ..)) (nums.map .integer)
    obtain ⟨w, canonicalW, total, run⟩ :=
      ih (fun n member => canonical n (mem_cons_of_mem y member)) canonicalZ
    refine ⟨w, canonicalW, ?_, round.trans run⟩
    rw [total, size, foldr_cons, Nat.lcm_assoc]

theorem lcm_exact {nums : List Integer} (canonical : ∀ n ∈ nums, n.Canonical) :
    Exact (lcm (nums.map .integer))
      (nums.foldr (fun n multiple => Nat.lcm n.value.natAbs multiple) 1 : ℕ) := by
  cases nums with
  | nil =>
    apply (exact_integer Integer.makeFixnum_one).of_eq
    simp only [foldr_nil, cast_one, Nat.cast_one]
  | cons x nums =>
    obtain ⟨z, canonicalZ, size, run⟩ :=
      lcmLoop_spec (fun n member => canonical n (mem_cons_of_mem x member))
        (canonical x (mem_cons_self ..))
    simp only [map_cons, lcm, run, bind, Except.bind, foldr_cons, ← size]
    by_cases negative : z.minusp = true
    · have below := (Integer.minusp_iff z).mp negative
      simp only [minusp, negative, if_true]
      apply (exact_integer (Integer.negate_is z)).of_eq
      have flipped : -z.value = (z.value.natAbs : Int) := by omega
      rw [flipped, cast_natCast]
    · have above := mt (Integer.minusp_iff z).mpr negative
      simp only [minusp, negative, if_false, Bool.false_eq_true]
      apply (exact_integer (Integer.is_value canonicalZ)).of_eq
      have same : z.value = (z.value.natAbs : Int) := by omega
      rw [same, cast_natCast, natAbs_natCast]

end Rational

/-- The arithmetic of canonical rationals is exact and its results are canonical. -/
theorem canonical_arithmetic_exact {x y : Rational} (canonicalX : x.Canonical)
    (canonicalY : y.Canonical) :
    Exact (x.plus y) (x.value + y.value) ∧ Exact (x.minus y) (x.value - y.value) ∧
    Exact (x.times y) (x.value * y.value) ∧
    (y.value ≠ 0 → Exact (x.divide y) (x.value / y.value)) ∧
    Exact (.ok x.negate) (-x.value) ∧ Exact x.onePlus (x.value + 1) ∧
    Exact x.oneMinus (x.value - 1) ∧
    (∀ a b : Integer, x = .integer a → y = .integer b →
      Exact (x.gcd y) (Int.gcd a.value b.value : ℕ)) ∧
    (∀ nums : List Integer, (∀ n ∈ nums, n.Canonical) →
      Exact (Rational.lcm (nums.map .integer))
        (nums.foldr (fun n multiple => Nat.lcm n.value.natAbs multiple) 1 : ℕ)) := by
  refine ⟨Rational.plus_exact canonicalX canonicalY, Rational.minus_exact canonicalX canonicalY,
    Rational.times_exact canonicalX canonicalY, Rational.divide_exact canonicalX canonicalY,
    ⟨_, rfl, Rational.negate_canonical canonicalX, Rational.negate_value x⟩,
    Rational.onePlus_exact canonicalX, Rational.oneMinus_exact canonicalX, ?_, ?_⟩
  · rintro a b rfl rfl
    exact Rational.gcd_exact a b
  · intro nums canonical
    exact Rational.lcm_exact canonical

theorem canonical_arithmetic_least_by_third :
    (Rational.integer (.fixnum (BitVec.intMin 62))).Canonical ∧
    (Rational.ratio (makeFixnum 1) (makeFixnum 3)).Canonical ∧
    Exact ((Rational.integer (.fixnum (BitVec.intMin 62))).divide
      (.ratio (makeFixnum 1) (makeFixnum 3)))
      ((Rational.integer (.fixnum (BitVec.intMin 62))).value /
        (Rational.ratio (makeFixnum 1) (makeFixnum 3)).value) := by
  refine ⟨by decide, by decide +kernel, ?_⟩
  apply (canonical_arithmetic_exact (by decide) (by decide +kernel)).2.2.2.1
  show ((1 : Int) : ℚ) / ((3 : Int) : ℚ) ≠ 0
  norm_num

end Ecl.Number
