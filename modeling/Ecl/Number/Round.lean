import Ecl.Number.Floor

/- ROUND, and what the four divisions return for all rationals. -/
namespace Ecl.Number

namespace Integer

theorem oddp_iff (x : Integer) : x.oddp = true ↔ Odd x.value := by
  have lowBit (w : BitVec 64) : (w &&& 1 != 0) = true ↔ w.toNat % 2 = 1 := by
    rw [bne_iff_ne, ne_eq, ← BitVec.toNat_inj, BitVec.toNat_and]
    show ¬ w.toNat &&& 1 = 0 ↔ _
    rw [Nat.and_one_is_mod]
    omega
  cases x with
  | fixnum n =>
    rw [oddp, lowBit, value, Int.odd_iff, ← toInt_fix, BitVec.toInt_eq_toNat_cond]
    split <;> omega
  | bignum v =>
    rw [oddp, lowBit, value, Int.odd_iff, bigLimb, BitVec.toNat_ofNat]
    omega

/-- The sign of a comparison. -/
structure Compares (c : Int) (x y : ℚ) : Prop where
  pos : 0 < c ↔ y < x
  zero : c = 0 ↔ x = y

theorem compares_of_int {c a b : Int} (pos : 0 < c ↔ b < a) (zero : c = 0 ↔ a = b) :
    Compares c a b :=
  ⟨by rw [pos, Int.cast_lt], by rw [zero, Int.cast_inj]⟩

theorem numberCompare_compares {x y : Integer} (canonicalX : x.Canonical)
    (canonicalY : y.Canonical) : Compares (x.numberCompare y) x.value y.value := by
  cases x with
  | fixnum a =>
    cases y with
    | fixnum b =>
      have same : fix a = fix b ↔ a.toInt = b.toInt := by
        rw [← toInt_fix, ← toInt_fix b]
        exact ⟨congrArg _, BitVec.eq_of_toInt_eq⟩
      simp only [numberCompare, ne_eq, same, toInt_fix, value]
      apply compares_of_int
      · split
        · omega
        · split <;> omega
      · split
        · omega
        · split <;> omega
    | bignum b =>
      have range := fixnum_range a
      have sign := bigSize_neg_iff b
      simp only [Canonical] at canonicalY
      rw [mostNegativeFixnum_eq] at *
      rw [mostPositiveFixnum_eq] at *
      simp only [numberCompare, value, sign]
      apply compares_of_int <;> split <;> omega
  | bignum a =>
    cases y with
    | fixnum b =>
      have range := fixnum_range b
      have sign := bigSize_neg_iff a
      simp only [Canonical] at canonicalX
      rw [mostNegativeFixnum_eq] at *
      rw [mostPositiveFixnum_eq] at *
      simp only [numberCompare, value, sign]
      apply compares_of_int <;> split <;> omega
    | bignum b =>
      simp only [numberCompare, value]
      apply compares_of_int
      · rw [Int.sign_pos_iff]
        omega
      · rw [Int.sign_eq_zero_iff_zero]
        omega

end Integer

namespace Rational

open Integer (Compares)

theorem Compares.scale {c : Int} {x y k : ℚ} (positive : 0 < k)
    (compares : Compares c (x * k) (y * k)) : Compares c x y := by
  refine ⟨?_, ?_⟩
  · rw [compares.pos, mul_lt_mul_iff_left₀ positive]
  · rw [compares.zero, mul_left_inj' positive.ne']

variable {x y : Rational}

theorem numberCompare_compares (canonicalX : x.Canonical)
    (canonicalY : y.Canonical) : Compares (numberCompare x y) x.value y.value := by
  cases x with
  | integer x =>
    cases y with
    | integer y => exact Integer.numberCompare_compares canonicalX canonicalY
    | ratio num den =>
      have terms := canonicalY.terms
      have nonzero := terms.den_ne_zero
      have product := Integer.times_is canonicalX terms.den
      have compares := Integer.numberCompare_compares product.canonical terms.num
      apply Compares.scale (k := den.value) (Int.cast_pos.mpr terms.positive)
      rw [product.value_eq, Int.cast_mul] at compares
      simp only [value, div_mul_cancel₀ _ nonzero]
      exact compares
  | ratio num den =>
    have terms := canonicalX.terms
    have nonzero := terms.den_ne_zero
    have positive : (0 : ℚ) < den.value := Int.cast_pos.mpr terms.positive
    cases y with
    | integer y =>
      have product := Integer.times_is canonicalY terms.den
      have compares := Integer.numberCompare_compares terms.num product.canonical
      apply Compares.scale positive
      rw [product.value_eq, Int.cast_mul] at compares
      simp only [value, div_mul_cancel₀ _ nonzero]
      exact compares
    | ratio num' den' =>
      have terms' := canonicalY.terms
      have nonzero' := terms'.den_ne_zero
      have left := Integer.times_is terms.num terms'.den
      have right := Integer.times_is terms'.num terms.den
      have compares := Integer.numberCompare_compares left.canonical right.canonical
      apply Compares.scale (mul_pos positive (Int.cast_pos.mpr terms'.positive))
      rw [left.value_eq, right.value_eq, Int.cast_mul, Int.cast_mul] at compares
      have scaled : (num.value : ℚ) / den.value * (den.value * den'.value) =
          num.value * den'.value := by field_simp
      have scaled' : (num'.value : ℚ) / den'.value * (den.value * den'.value) =
          num'.value * den.value := by field_simp
      simp only [value, scaled, scaled']
      exact compares

theorem minusHalf_canonical : minusHalf.Canonical := by decide +kernel

theorem plusHalf_canonical : plusHalf.Canonical := by decide +kernel

theorem minusHalf_value : minusHalf.value = -(1 / 2) := by decide +kernel

theorem plusHalf_value : plusHalf.value = 1 / 2 := by decide +kernel

theorem minusp_iff (canonical : x.Canonical) : x.minusp = true ↔ x.value < 0 := by
  cases x with
  | integer n => rw [minusp, Integer.minusp_iff, value, Int.cast_lt_zero]
  | ratio num den =>
    have positive : (0 : ℚ) < den.value := Int.cast_pos.mpr canonical.terms.positive
    rw [minusp, Integer.minusp_iff, value, div_lt_iff₀ positive, zero_mul, Int.cast_lt_zero]

/-- The integer nearest to a number, the even one of two. -/
structure Nearest (t : ℚ) (n : Int) : Prop where
  near : |t - n| ≤ 1 / 2
  even : |t - n| = 1 / 2 → Even n

variable {num den : Integer}

theorem fraction_small (terms : Terms num den) :
    |(ratio num den).value - (num.value.tdiv den.value : Int)| < 1 := by
  have positive : (0 : ℚ) < den.value := Int.cast_pos.mpr terms.positive
  have nonzero := terms.den_ne_zero
  have whole := Int.tmod_add_mul_tdiv num.value den.value
  have small : (num.value.tmod den.value).natAbs < den.value.natAbs := by
    rw [Int.natAbs_tmod]
    exact Nat.mod_lt _ (Int.natAbs_pos.mpr terms.positive.ne')
  have fraction : (ratio num den).value - (num.value.tdiv den.value : Int) =
      (num.value.tmod den.value : Int) / den.value := by
    have cast : (num.value : ℚ) =
        (num.value.tmod den.value : Int) + den.value * (num.value.tdiv den.value : Int) := by
      exact_mod_cast whole.symm
    rw [value, sub_eq_iff_eq_add, div_add' _ _ _ nonzero]
    congr 1
    rw [cast]
    ring
  rw [fraction, abs_div, abs_of_pos positive, div_lt_one positive, ← Int.cast_abs, Int.cast_lt,
    Int.abs_eq_natAbs]
  have := terms.positive
  omega

variable {t : ℚ} {n : Int}

/-- The step away from zero, when the fraction is more than a half of one or the tie goes
that way. -/
theorem nearest_down (low : -1 < t - n) (high : t - n < 0)
    (moves : t - n < -(1 / 2) ∨ -(1 / 2) = t - n ∧ Odd n) : Nearest t (n - 1) := by
  rcases moves with far | ⟨tie, odd⟩
  · refine ⟨?_, ?_⟩
    · push_cast
      rw [abs_le]
      constructor <;> linarith
    · intro half
      push_cast at half
      rw [abs_of_pos (by linarith)] at half
      linarith
  · refine ⟨?_, fun _ => odd.sub_odd odd_one⟩
    push_cast
    rw [abs_le]
    constructor <;> linarith

theorem nearest_up (high : t - n < 1)
    (moves : 1 / 2 < t - n ∨ t - n = 1 / 2 ∧ Odd n) : Nearest t (n + 1) := by
  rcases moves with far | ⟨tie, odd⟩
  · refine ⟨?_, ?_⟩
    · push_cast
      rw [abs_le]
      constructor <;> linarith
    · intro half
      push_cast at half
      rw [abs_of_neg (by linarith)] at half
      linarith
  · refine ⟨?_, fun _ => odd.add_odd odd_one⟩
    push_cast
    rw [abs_le]
    constructor <;> linarith

theorem nearest_stay (near : |t - n| ≤ 1 / 2) (tie : |t - n| = 1 / 2 → ¬ Odd n) : Nearest t n :=
  ⟨near, fun half => Int.not_odd_iff_even.mp (tie half)⟩

theorem roundRatio_nearest (canonical : (ratio num den).Canonical) :
    ∃ q : Integer, roundRatio num den = .ok q ∧ q.Canonical ∧
      Nearest (ratio num den).value q.value := by
  have terms := canonical.terms
  have above : 1 < den.value := canonical.2.2.1
  obtain ⟨q1, runQ, isQ⟩ := integerDivide_is (x := num) terms.den terms.positive.ne'
    (fun both => by omega)
  obtain ⟨r, runR, canonicalR, valueR⟩ :=
    minus_exact canonical (y := .integer q1) isQ.canonical
  have small := fraction_small terms
  rw [← isQ.value_eq] at small
  have fraction : r.value = (ratio num den).value - q1.value := valueR
  rw [← fraction, abs_lt] at small
  have odd := Integer.oddp_iff q1
  have sign := minusp_iff canonicalR
  simp only [roundRatio, runQ, runR, bind, Except.bind]
  by_cases negative : r.minusp = true
  · have below := sign.mp negative
    have compares := numberCompare_compares minusHalf_canonical canonicalR
    rw [minusHalf_value] at compares
    simp only [negative, if_true]
    split
    · rename_i moves
      rw [compares.pos, compares.zero, odd] at moves
      have is := Integer.oneMinus_is isQ.canonical
      refine ⟨_, rfl, is.canonical, ?_⟩
      rw [is.value_eq]
      rw [fraction] at below small moves
      exact nearest_down small.1 below moves
    · rename_i stays
      rw [compares.pos, compares.zero, odd, not_or, not_lt, not_and] at stays
      refine ⟨_, rfl, isQ.canonical, nearest_stay ?_ ?_⟩
      · rw [← fraction, abs_of_neg below]
        linarith [stays.1]
      · intro half
        rw [← fraction, abs_of_neg below] at half
        exact stays.2 (by linarith)
  · have nonneg := not_lt.mp (mt sign.mpr negative)
    have compares := numberCompare_compares canonicalR plusHalf_canonical
    rw [plusHalf_value] at compares
    simp only [negative, if_false, Bool.false_eq_true]
    split
    · rename_i moves
      rw [compares.pos, compares.zero, odd] at moves
      have is := Integer.onePlus_is isQ.canonical
      refine ⟨_, rfl, is.canonical, ?_⟩
      rw [is.value_eq]
      rw [fraction] at small moves
      exact nearest_up small.2 moves
    · rename_i stays
      rw [compares.pos, compares.zero, odd, not_or, not_lt, not_and] at stays
      refine ⟨_, rfl, isQ.canonical, nearest_stay ?_ ?_⟩
      · rw [← fraction, abs_of_nonneg nonneg]
        exact stays.1
      · intro half
        rw [← fraction, abs_of_nonneg nonneg] at half
        exact stays.2 half

theorem numberRemainder_exact {q : Integer} (canonicalX : x.Canonical)
    (canonicalY : y.Canonical) (canonicalQ : q.Canonical) :
    Exact (numberRemainder x y (.integer q)) (x.value - q.value * y.value) := by
  obtain ⟨z, run, canonical, product⟩ := times_exact (x := .integer q) canonicalQ canonicalY
  simp only [numberRemainder, run, bind, Except.bind]
  have made := minus_exact canonicalX canonical
  rw [product] at made
  exact made

/-- The remainder of ROUND: at most half of the divisor, and the quotient is even when it
is just that. -/
structure RoundRest (y r : ℚ) (q : Int) : Prop where
  small : |r| ≤ |y| / 2
  even : |r| = |y| / 2 → Even q

theorem roundRest_of_nearest {x y r : ℚ} {q : Int} (nonzero : y ≠ 0) (whole : x = q * y + r)
    (nearest : Nearest (x / y) q) : RoundRest y r q := by
  have positive := abs_pos.mpr nonzero
  have size : |r| = |x / y - q| * |y| := by
    rw [← abs_mul, sub_mul, div_mul_cancel₀ _ nonzero, whole, add_sub_cancel_left]
  refine ⟨?_, ?_⟩
  · rw [size]
    have := mul_le_mul_of_nonneg_right nearest.near positive.le
    linarith
  · intro half
    apply nearest.even
    rw [size] at half
    have : (|x / y - q| - 1 / 2) * |y| = 0 := by linarith
    have := (mul_eq_zero.mp this).resolve_right positive.ne'
    linarith

theorem nearest_self (n : Int) : Nearest n n := by
  refine ⟨?_, ?_⟩
  · rw [sub_self, abs_zero]
    norm_num
  · intro half
    rw [sub_self, abs_zero] at half
    norm_num at half

theorem round2_divides (canonicalX : x.Canonical) (canonicalY : y.Canonical)
    (nonzero : y.value ≠ 0) :
    ∃ (q : Integer) (r : Rational), round2 x y = .ok (q, r) ∧ q.Canonical ∧ r.Canonical ∧
      x.value = q.value * y.value + r.value ∧ RoundRest y.value r.value q.value := by
  obtain ⟨t, run, canonicalT, quotient⟩ := divide_exact canonicalX canonicalY nonzero
  simp only [round2, run, bind, Except.bind]
  cases t with
  | integer v0 =>
    have zero : (integer (makeFixnum 0)).value = 0 := by
      rw [value, Integer.makeFixnum_zero.value_eq, Int.cast_zero]
    have whole : x.value = v0.value * y.value + (integer (makeFixnum 0)).value := by
      rw [zero, add_zero]
      exact ((eq_div_iff nonzero).mp quotient).symm
    refine ⟨v0, _, rfl, canonicalT, trivial, whole, ?_⟩
    apply roundRest_of_nearest nonzero whole
    rw [← quotient]
    exact nearest_self v0.value
  | ratio num den =>
    obtain ⟨q1, runQ, canonicalQ, nearest⟩ := roundRatio_nearest canonicalT
    obtain ⟨v1, runV, canonicalV, remainder⟩ :=
      numberRemainder_exact canonicalX canonicalY canonicalQ
    have whole : x.value = q1.value * y.value + v1.value := by
      rw [remainder]
      ring
    simp only [runQ, runV]
    refine ⟨q1, v1, rfl, canonicalQ, canonicalV, whole, ?_⟩
    rw [quotient] at nearest
    exact roundRest_of_nearest nonzero whole nearest

theorem divide_one (canonical : x.Canonical) : divide x one = .ok x := by
  have nonzero : one.value ≠ 0 := by
    rw [one_value]
    exact one_ne_zero
  obtain ⟨z, run, canonicalZ, quotient⟩ := divide_exact canonical one_canonical nonzero
  rw [one_value, div_one] at quotient
  rw [run, eq_of_value canonicalZ canonical quotient]

theorem divide_terms (canonical : (ratio num den).Canonical) :
    divide (.integer num) (.integer den) = .ok (.ratio num den) := by
  have terms := canonical.terms
  obtain ⟨z, run, canonicalZ, quotient⟩ :=
    integer_divide_exact terms.num terms.den terms.positive.ne'
  rw [run, eq_of_value canonicalZ canonical quotient]

theorem round1_eq (canonical : x.Canonical) : round1 x = round2 x one := by
  cases x with
  | integer x =>
    simp only [round2, divide_one canonical, bind, Except.bind]
    rfl
  | ratio num den =>
    have terms := canonical.terms
    have nonzero := terms.den_ne_zero
    obtain ⟨q1, runQ, canonicalQ, _⟩ := roundRatio_nearest canonical
    obtain ⟨r, runR, canonicalR, remainder⟩ :=
      numberRemainder_exact (x := .integer num) (y := .integer den) terms.num terms.den canonicalQ
    have whole : r.value = (num.value - q1.value * den.value : Int) := by
      rw [remainder, Int.cast_sub, Int.cast_mul]
      rfl
    obtain ⟨m, rfl, is⟩ := integer_of_value canonicalR whole
    obtain ⟨v1, runV, canonicalV, fraction⟩ :=
      makeRatio_exact is.canonical terms.den terms.positive.ne'
    obtain ⟨v1', runV', canonicalV', remainder'⟩ :=
      numberRemainder_exact canonical one_canonical canonicalQ
    have same : v1 = v1' := by
      apply eq_of_value canonicalV canonicalV'
      rw [fraction, remainder', one_value, is.value_eq, value, Int.cast_sub, Int.cast_mul]
      field_simp
    simp only [round1, quotient1, round2, divide_terms canonical, divide_one canonical, bind,
      Except.bind, runQ, runR, runV, runV', same]

end Rational

/-- What FLOOR, CEILING, TRUNCATE and ROUND return for two rationals, and for one. -/
structure DivisionLaws (x y : Rational) : Prop where
  floor : Rational.Divides FloorPart (Rational.floor2 x y) x.value y.value
  ceiling : Rational.Divides CeilingPart (Rational.ceiling2 x y) x.value y.value
  truncate : ∃ (q : Integer) (r : Rational), Rational.truncate2 x y = .ok (q, r) ∧
    q.Canonical ∧ r.Canonical ∧ x.value = q.value * y.value + r.value ∧
    Rational.TruncateRest x.value y.value r.value
  round : ∃ (q : Integer) (r : Rational), Rational.round2 x y = .ok (q, r) ∧
    q.Canonical ∧ r.Canonical ∧ x.value = q.value * y.value + r.value ∧
    Rational.RoundRest y.value r.value q.value
  oneArgument : Rational.floor1 x = Rational.floor2 x Rational.one ∧
    Rational.ceiling1 x = Rational.ceiling2 x Rational.one ∧
    Rational.truncate1 x = Rational.truncate2 x Rational.one ∧
    Rational.round1 x = Rational.round2 x Rational.one

/-- The laws hold unless the least fixnum is divided by minus one. -/
theorem division_laws_iff {x y : Rational} (canonicalX : x.Canonical) (canonicalY : y.Canonical)
    (nonzero : y.value ≠ 0) : DivisionLaws x y ↔ ¬ Overflows x y := by
  constructor
  · intro laws overflows
    exact Rational.not_divides_of_overflows canonicalX canonicalY overflows laws.floor
  · intro fits
    exact {
      floor := Rational.floor2_divides canonicalX canonicalY nonzero fits
      ceiling := Rational.ceiling2_divides canonicalX canonicalY nonzero fits
      truncate := Rational.truncate2_divides canonicalX canonicalY nonzero fits
      round := Rational.round2_divides canonicalX canonicalY nonzero
      oneArgument := ⟨Rational.floor1_eq canonicalX, Rational.ceiling1_eq canonicalX,
        Rational.truncate1_eq canonicalX, Rational.round1_eq canonicalX⟩ }

theorem division_laws_seven_halves :
    DivisionLaws (.ratio (makeFixnum 7) (makeFixnum 2)) (.integer (makeFixnum (-1))) :=
  (division_laws_iff (by decide +kernel) (by decide) (by decide +kernel)).mpr id

/-- (FLOOR MOST-NEGATIVE-FIXNUM -1) is MOST-NEGATIVE-FIXNUM. -/
theorem floor_least_fixnum_wrong :
    Rational.floor2 (.integer (.fixnum (BitVec.intMin 62))) (.integer (makeFixnum (-1))) =
        .ok (.fixnum (BitVec.intMin 62), .integer (makeFixnum 0)) ∧
      ¬ DivisionLaws (.integer (.fixnum (BitVec.intMin 62))) (.integer (makeFixnum (-1))) := by
  refine ⟨by decide +kernel, ?_⟩
  intro laws
  obtain ⟨q, r, run, _, _, splits⟩ := laws.floor
  have whole := splits.whole
  have returned : Rational.floor2 (.integer (.fixnum (BitVec.intMin 62)))
      (.integer (makeFixnum (-1))) =
      .ok (.fixnum (BitVec.intMin 62), .integer (makeFixnum 0)) := by decide +kernel
  rw [returned, Except.ok.injEq, Prod.mk.injEq] at run
  obtain ⟨rfl, rfl⟩ := run
  revert whole
  decide +kernel

end Ecl.Number
