import Ecl.Number.Division

/- FLOOR, CEILING and TRUNCATE on integers and ratios. -/
namespace Ecl.Number

open Int Prod

/-- The arguments for which FLOOR, CEILING and TRUNCATE divide the least fixnum by minus
one: the divisor is a negative unit fraction, or minus one, and the dividend is an integer. -/
def Overflows : Rational → Rational → Prop
  | .integer x, .integer y => LeastByMinusOne x.value y.value
  | .integer x, .ratio num den => LeastByMinusOne (x.value * den.value) num.value
  | .ratio _ _, _ => False

theorem Splits.scale {part : ℚ → Prop} {x y q r c : ℚ} (nonzero : c ≠ 0)
    (splits : Splits part (x * c) (y * c) q r) : Splits part x y q (r / c) := by
  refine ⟨?_, ?_⟩
  · have whole := splits.whole
    field_simp
    linarith
  · have rest := splits.part
    rwa [mul_comm, ← div_div] at rest

namespace Rational

/-- A division that returns a canonical integer and a canonical rational, of which the
second is a given part of the divisor. -/
def Divides (part : ℚ → Prop) (result : Values) (x y : ℚ) : Prop :=
  ∃ (q : Integer) (r : Rational), result = .ok (q, r) ∧ q.Canonical ∧ r.Canonical ∧
    Splits part x y q.value r.value

/-- A division of integers that splits all it can. -/
def DividesIntegers (part : ℚ → Prop)
    (onIntegers : Integer → Integer → Except ArithmeticError (Integer × Integer)) : Prop :=
  ∀ a b : Integer, b.value ≠ 0 → ¬ LeastByMinusOne a.value b.value →
    Integer.Divides part (onIntegers a b) a.value b.value

variable {part : ℚ → Prop}

theorem divides_of_integers {a b : Int} {result : Except ArithmeticError (Integer × Integer)}
    (divides : Integer.Divides part result a b) (back : Integer → Except ArithmeticError Rational)
    {x y c : ℚ} (nonzero : c ≠ 0)
    (scaledX : (a : ℚ) = x * c) (scaledY : (b : ℚ) = y * c)
    (exact : ∀ r : Integer, r.Canonical → Exact (back r) (r.value / c)) :
    Divides part (result >>= fun values => back values.2 >>= fun v1 => .ok (values.1, v1)) x y := by
  obtain ⟨q, r, run, canonicalQ, canonicalR, splits⟩ := divides
  obtain ⟨v1, runBack, canonical, value⟩ := exact r canonicalR
  refine ⟨q, v1, ?_, canonicalQ, canonical, ?_⟩
  · rw [run]
    show (back r >>= fun v1 => .ok (q, v1)) = .ok (q, v1)
    rw [runBack]
    rfl
  · rw [value]
    rw [scaledX, scaledY] at splits
    exact splits.scale nonzero

theorem mul_ne_minus_one {d n : Int} (above : 1 < d) : d * n ≠ -1 := by
  intro minus
  have divides : d ∣ 1 := dvd_neg.mp ⟨n, minus.symm⟩
  have := le_of_dvd one_pos divides
  omega

variable {x y : Rational}

theorem quotient_divides
    {onIntegers : Integer → Integer → Except ArithmeticError (Integer × Integer)}
    (integers : DividesIntegers part onIntegers) (canonicalX : x.Canonical)
    (canonicalY : y.Canonical) (nonzero : y.value ≠ 0) (fits : ¬ Overflows x y) :
    Divides part (quotient onIntegers x y) x.value y.value := by
  cases x with
  | integer x =>
    cases y with
    | integer y =>
      apply divides_of_integers (integers x y (cast_ne_zero.mp nonzero) fits)
        (fun r => .ok (.integer r)) one_ne_zero (mul_one _).symm (mul_one _).symm
      intro r canonical
      rw [div_one]
      exact exact_integer (Integer.is_value canonical)
    | ratio num den =>
      have terms := canonicalY.terms
      have nonzeroDen := terms.den_ne_zero
      have product := Integer.times_is canonicalX terms.den
      have divides := integers (x.times den) num terms.nonzero
        (by rw [product.value_eq]; exact fits)
      apply divides_of_integers divides (makeRatio · den) nonzeroDen
      · rw [product.value_eq, cast_mul]
        rfl
      · exact (div_mul_cancel₀ _ nonzeroDen).symm
      · intro r canonical
        exact makeRatio_exact canonical terms.den terms.positive.ne'
  | ratio num den =>
    have terms := canonicalX.terms
    have nonzeroDen := terms.den_ne_zero
    have above : 1 < den.value := canonicalX.2.2.1
    cases y with
    | integer y =>
      have nonzeroY : y.value ≠ 0 := cast_ne_zero.mp nonzero
      have product := Integer.times_is terms.den canonicalY
      have divides := integers num (den.times y)
        (by rw [product.value_eq]; exact mul_ne_zero terms.positive.ne' nonzeroY)
        (by rw [product.value_eq]; exact fun both => mul_ne_minus_one above both.2)
      apply divides_of_integers divides (fun r => divide (.integer r) (.integer den)) nonzeroDen
      · exact (div_mul_cancel₀ _ nonzeroDen).symm
      · rw [product.value_eq, cast_mul, mul_comm]
        rfl
      · intro r canonical
        exact integer_divide_exact canonical terms.den terms.positive.ne'
    | ratio num' den' =>
      have terms' := canonicalY.terms
      have nonzeroDen' := terms'.den_ne_zero
      have productX := Integer.times_is terms.num terms'.den
      have productY := Integer.times_is terms.den terms'.num
      have product := Integer.times_is terms.den terms'.den
      have divides := integers (num.times den') (den.times num')
        (by rw [productY.value_eq]; exact mul_ne_zero terms.positive.ne' terms'.nonzero)
        (by rw [productY.value_eq]; exact fun both => mul_ne_minus_one above both.2)
      apply divides_of_integers divides (makeRatio · (den.times den'))
        (mul_ne_zero nonzeroDen nonzeroDen')
      · rw [productX.value_eq, cast_mul]
        simp only [value]
        field_simp
      · rw [productY.value_eq, cast_mul]
        simp only [value]
        field_simp
      · intro r canonical
        have made := makeRatio_of_is (Integer.is_value canonical) product
          (mul_ne_zero terms.positive.ne' terms'.positive.ne')
        rwa [cast_mul] at made

theorem floor2_divides (canonicalX : x.Canonical) (canonicalY : y.Canonical)
    (nonzero : y.value ≠ 0) (fits : ¬ Overflows x y) :
    Divides FloorPart (floor2 x y) x.value y.value :=
  quotient_divides (fun _ _ => Integer.floor2_divides) canonicalX canonicalY nonzero fits

theorem ceiling2_divides (canonicalX : x.Canonical) (canonicalY : y.Canonical)
    (nonzero : y.value ≠ 0) (fits : ¬ Overflows x y) :
    Divides CeilingPart (ceiling2 x y) x.value y.value :=
  quotient_divides (fun _ _ => Integer.ceiling2_divides) canonicalX canonicalY nonzero fits

theorem leastByMinusOne_objects {x y : Integer} (canonicalX : x.Canonical)
    (canonicalY : y.Canonical) (least : LeastByMinusOne x.value y.value) :
    x = .fixnum (BitVec.intMin 62) ∧ y = .fixnum (-1) := by
  constructor
  · exact ((Integer.is_value canonicalX).of_eq least.1).unique ⟨trivial, by decide⟩
  · exact ((Integer.is_value canonicalY).of_eq least.2).unique ⟨trivial, by decide⟩

theorem floor2_least : Integer.floor2 (.fixnum (BitVec.intMin 62)) (.fixnum (-1)) =
    .ok (.fixnum (BitVec.intMin 62), makeFixnum 0) := by
  decide +kernel

theorem not_divides_of_overflows (canonicalX : x.Canonical)
    (canonicalY : y.Canonical) (overflows : Overflows x y) :
    ¬ Divides FloorPart (floor2 x y) x.value y.value := by
  rintro ⟨q, r, run, _, _, splits⟩
  have whole := splits.whole
  cases x with
  | integer x =>
    cases y with
    | integer y =>
      obtain ⟨rfl, rfl⟩ := leastByMinusOne_objects canonicalX canonicalY overflows
      simp only [floor2, quotient, floor2_least, bind, Except.bind, Except.ok.injEq,
        mk.injEq] at run
      obtain ⟨rfl, rfl⟩ := run
      revert whole
      decide +kernel
    | ratio num den =>
      have terms := canonicalY.terms
      have product := Integer.times_is canonicalX terms.den
      have least : LeastByMinusOne (x.times den).value num.value := by
        rw [product.value_eq]
        exact overflows
      obtain ⟨sameX, rfl⟩ := leastByMinusOne_objects product.canonical terms.num least
      have zero : makeRatio (makeFixnum 0) den = .ok (.integer (makeFixnum 0)) := by
        rw [makeRatio, if_neg (mt (Integer.eq_zero_iff terms.den).mp terms.positive.ne')]
        exact if_pos (.inl rfl)
      simp only [floor2, quotient, sameX, floor2_least, zero, bind, Except.bind,
        Except.ok.injEq, mk.injEq] at run
      obtain ⟨rfl, rfl⟩ := run
      have nonzero := terms.den_ne_zero
      have dividend : (x.value : ℚ) * den.value = -2305843009213693952 := by
        have value := overflows.1
        rw [mostNegativeFixnum_eq] at value
        exact_mod_cast value
      have minus : (Integer.fixnum (-1)).value = -1 := by decide
      have quotientValue : (Integer.fixnum (BitVec.intMin 62)).value = -2305843009213693952 := by
        decide
      simp only [value, minus, quotientValue, Integer.makeFixnum_zero.value_eq] at whole
      field_simp at whole
      push_cast at whole
      linarith
  | ratio num den => exact overflows

theorem plusp_iff (canonical : x.Canonical) : x.plusp = true ↔ 0 < x.value := by
  cases x with
  | integer n =>
    rw [plusp, Integer.plusp_iff, value, cast_pos]
  | ratio num den =>
    have positive : (0 : ℚ) < den.value := cast_pos.mpr canonical.terms.positive
    rw [plusp, Integer.plusp_iff, value, div_pos_iff_of_pos_right positive, cast_pos]

/-- The remainder of TRUNCATE: less than the divisor, and zero or of the sign of the
dividend. -/
structure TruncateRest (x y r : ℚ) : Prop where
  small : |r| < |y|
  sign : r = 0 ∨ 0 < r ∧ 0 < x ∨ r < 0 ∧ x < 0

variable {r : ℚ}

theorem rest_eq_zero {y : ℚ} {q : Int} (whole : 0 = q * y + r) (small : |r| < |y|) : r = 0 := by
  have rest : r = -q * y := by linarith
  rw [rest, abs_mul, abs_neg] at small
  have less : |(q : ℚ)| < 1 := by
    by_contra large
    have := mul_le_mul_of_nonneg_right (not_lt.mp large) (abs_nonneg y)
    linarith
  have none : q = 0 := by
    rw [← cast_abs] at less
    exact abs_lt_one_iff.mp (by exact_mod_cast less)
  rw [rest, none, cast_zero, neg_zero, zero_mul]

theorem truncateRest_of_signs {x y : ℚ} {q : Int} (whole : x = q * y + r) (small : |r| < |y|)
    (positive : 0 < r → 0 < x) (negative : r < 0 → x ≤ 0) :
    TruncateRest x y r := by
  refine ⟨small, ?_⟩
  rcases lt_trichotomy r 0 with below | zero | above
  · rcases lt_or_eq_of_le (negative below) with less | rfl
    · exact .inr (.inr ⟨below, less⟩)
    · exact .inl (rest_eq_zero whole small)
  · exact .inl zero
  · exact .inr (.inl ⟨above, positive above⟩)

theorem FloorPart.small {y : ℚ} (nonzero : y ≠ 0) (part : FloorPart (r / y)) : |r| < |y| := by
  have size : |r / y| < 1 := by
    rw [abs_of_nonneg part.1]
    exact part.2
  rwa [abs_div, div_lt_one (abs_pos.mpr nonzero)] at size

theorem CeilingPart.small {y : ℚ} (nonzero : y ≠ 0) (part : CeilingPart (r / y)) :
    |r| < |y| := by
  have flipped := (Integer.ceilingPart_iff _).mp part
  rw [← neg_div] at flipped
  have size := FloorPart.small nonzero flipped
  rwa [abs_neg] at size

theorem truncate2_divides (canonicalX : x.Canonical) (canonicalY : y.Canonical)
    (nonzero : y.value ≠ 0) (fits : ¬ Overflows x y) :
    ∃ (q : Integer) (r : Rational), truncate2 x y = .ok (q, r) ∧ q.Canonical ∧ r.Canonical ∧
      x.value = q.value * y.value + r.value ∧ TruncateRest x.value y.value r.value := by
  have signX := plusp_iff canonicalX
  have signY := plusp_iff canonicalY
  unfold truncate2
  by_cases differ : x.plusp ≠ y.plusp
  · rw [if_pos differ]
    obtain ⟨q, r, run, canonicalQ, canonicalR, splits⟩ :=
      ceiling2_divides canonicalX canonicalY nonzero fits
    refine ⟨q, r, run, canonicalQ, canonicalR, splits.whole, ?_⟩
    have part := splits.part
    apply truncateRest_of_signs splits.whole (CeilingPart.small nonzero part)
    · intro above
      have below : y.value < 0 := by
        by_contra positive
        have := div_pos above (lt_of_le_of_ne (not_lt.mp positive) nonzero.symm)
        linarith [part.2]
      have notPlus : ¬ y.plusp = true := fun plus => by linarith [signY.mp plus]
      exact signX.mp (by simpa [notPlus] using differ)
    · intro below
      have above : 0 < y.value := by
        by_contra negative
        have := div_pos_of_neg_of_neg below (lt_of_le_of_ne (not_lt.mp negative) nonzero)
        linarith [part.2]
      have plus := signY.mpr above
      exact not_lt.mp (fun positive => differ (by rw [signX.mpr positive, plus]))
  · rw [if_neg differ]
    have same := not_not.mp differ
    obtain ⟨q, r, run, canonicalQ, canonicalR, splits⟩ :=
      floor2_divides canonicalX canonicalY nonzero fits
    refine ⟨q, r, run, canonicalQ, canonicalR, splits.whole, ?_⟩
    have part := splits.part
    apply truncateRest_of_signs splits.whole (FloorPart.small nonzero part)
    · intro above
      have positive : 0 < y.value := by
        by_contra negative
        have := div_neg_of_pos_of_neg above (lt_of_le_of_ne (not_lt.mp negative) nonzero)
        linarith [part.1]
      exact signX.mp (same.trans (signY.mpr positive))
    · intro below
      have negative : ¬ 0 < y.value := by
        intro positive
        have := div_neg_of_neg_of_pos below positive
        linarith [part.1]
      exact not_lt.mp (fun positive => negative (signY.mp (same.symm.trans (signX.mpr positive))))

theorem eq_of_value (canonicalX : x.Canonical) (canonicalY : y.Canonical)
    (same : x.value = y.value) : x = y := by
  cases x with
  | integer a =>
    obtain ⟨b, rfl, is⟩ := integer_of_value canonicalY same.symm
    rw [(Integer.is_value canonicalX).unique is]
  | ratio num den =>
    cases y with
    | integer b =>
      obtain ⟨a, made, _⟩ := integer_of_value canonicalX same
      cases made
    | ratio num' den' =>
      obtain ⟨canonicalNum, canonicalDen, above, coprime⟩ := canonicalX
      obtain ⟨canonicalNum', canonicalDen', above', coprime'⟩ := canonicalY
      obtain ⟨sameNum, sameDen⟩ := Rat.div_int_inj (by omega) (by omega) coprime coprime' same
      rw [(Integer.is_value canonicalNum).unique ⟨canonicalNum', sameNum.symm⟩,
        (Integer.is_value canonicalDen).unique ⟨canonicalDen', sameDen.symm⟩]

/-- The object 1. -/
def one : Rational := .integer (makeFixnum 1)

theorem one_canonical : one.Canonical := trivial

theorem one_value : one.value = 1 := by
  rw [one, value, Integer.makeFixnum_one.value_eq, cast_one]

theorem not_overflows_one (x : Rational) : ¬ Overflows x one := by
  cases x with
  | integer a =>
    rintro ⟨_, minus⟩
    exact absurd minus (by decide)
  | ratio num den => exact id

/-- Parts of a divisor that differ by an integer are the same part. -/
def Separates (part : ℚ → Prop) : Prop :=
  ∀ s t : ℚ, part s → part t → ∀ n : Int, s - t = n → n = 0

theorem floorPart_separates : Separates FloorPart := by
  rintro s t ⟨lowS, highS⟩ ⟨lowT, highT⟩ n difference
  have low : (-1 : ℚ) < n := by linarith
  have high : (n : ℚ) < 1 := by linarith
  have low' : -1 < n := by exact_mod_cast low
  have high' : n < 1 := by exact_mod_cast high
  omega

theorem ceilingPart_separates : Separates CeilingPart := by
  intro s t partS partT n difference
  exact floorPart_separates (-t) (-s) ((Integer.ceilingPart_iff t).mp partT)
    ((Integer.ceilingPart_iff s).mp partS) n (by linarith)

theorem Divides.unique (separates : Separates part) {a b : Values} {x : ℚ}
    (first : Divides part a x 1) (second : Divides part b x 1) : a = b := by
  obtain ⟨q, r, rfl, canonicalQ, canonicalR, splits⟩ := first
  obtain ⟨q', r', rfl, canonicalQ', canonicalR', splits'⟩ := second
  have whole := splits.whole
  have whole' := splits'.whole
  have rest := splits.part
  have rest' := splits'.part
  rw [div_one] at rest rest'
  rw [mul_one] at whole whole'
  have none := separates _ _ rest rest' (q'.value - q.value) (by push_cast; linarith)
  have sameQ : q'.value = q.value := by omega
  have sameR : r.value = r'.value := by
    rw [sameQ] at whole'
    linarith
  rw [(Integer.is_value canonicalQ).unique ⟨canonicalQ', sameQ⟩,
    eq_of_value canonicalR canonicalR' sameR]

theorem quotient1_divides
    {onIntegers : Integer → Integer → Except ArithmeticError (Integer × Integer)}
    (integers : DividesIntegers part onIntegers) (zero : part 0)
    (canonical : x.Canonical) : Divides part (quotient1 (quotient onIntegers) x) x.value 1 := by
  cases x with
  | integer x =>
    refine ⟨x, _, rfl, canonical, trivial, ?_⟩
    have none : (integer (makeFixnum 0)).value = 0 := by
      rw [value, Integer.makeFixnum_zero.value_eq, cast_zero]
    rw [none]
    refine ⟨?_, ?_⟩
    · rw [mul_one, add_zero]
      rfl
    · rwa [zero_div]
  | ratio num den =>
    have terms := canonical.terms
    have nonzeroDen := terms.den_ne_zero
    have above : 1 < den.value := canonical.2.2.1
    have divides := integers num den terms.positive.ne'
      (by
        rintro ⟨_, minus⟩
        omega)
    have made := divides_of_integers divides (makeRatio · den) nonzeroDen
      (div_mul_cancel₀ _ nonzeroDen).symm (one_mul _).symm
      (fun r canonicalR => makeRatio_exact canonicalR terms.den terms.positive.ne')
    obtain ⟨q, r, run, _⟩ := divides
    simp only [quotient1, quotient, run, bind, Except.bind] at made ⊢
    exact made

theorem floor1_eq (canonical : x.Canonical) : floor1 x = floor2 x one := by
  apply Divides.unique floorPart_separates (x := x.value)
  · exact quotient1_divides (fun _ _ => Integer.floor2_divides) ⟨le_refl 0, one_pos⟩ canonical
  · rw [← one_value]
    exact floor2_divides canonical one_canonical (by rw [one_value]; exact one_ne_zero)
      (not_overflows_one x)

theorem ceiling1_eq (canonical : x.Canonical) : ceiling1 x = ceiling2 x one := by
  apply Divides.unique ceilingPart_separates (x := x.value)
  · exact quotient1_divides (fun _ _ => Integer.ceiling2_divides) ⟨by norm_num, le_refl 0⟩ canonical
  · rw [← one_value]
    exact ceiling2_divides canonical one_canonical (by rw [one_value]; exact one_ne_zero)
      (not_overflows_one x)

theorem truncate1_eq (canonical : x.Canonical) : truncate1 x = truncate2 x one := by
  have onePlus : one.plusp = true := by decide
  rw [truncate2, ← floor1_eq canonical, ← ceiling1_eq canonical, onePlus]
  cases x with
  | integer x => exact (ite_self _).symm
  | ratio num den =>
    have denPlus : den.plusp = true := (Integer.plusp_iff den).mpr canonical.terms.positive
    simp only [truncate1, quotient1, truncate2, plusp, denPlus]
    by_cases minus : num.plusp ≠ true
    · simp only [if_pos minus]
      exact (if_pos minus).symm
    · simp only [if_neg minus]
      exact (if_neg minus).symm

end Rational

end Ecl.Number
