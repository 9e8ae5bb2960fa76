import Ecl.Number.Round

/- EXPT of a rational to an integer power. -/
namespace Ecl.Number

open Int

def Integer.evenp : Integer → Bool
  | .fixnum n => ~~~fix n &&& 1 != 0
  | .bignum v => bigLimb v &&& 1 == 0

namespace Rational

/-- The loop of cl_expt. Its rounds are counted, and nothing is returned after the last. -/
def exptLoop : Nat → Rational → Integer → Rational → Except ArithmeticError (Option Rational)
  | 0, _, _, _ => .ok none
  | rounds + 1, z, y, x => do
      let z ← (if y.evenp then .ok z else times z x)
      let y ← integerDivide y (makeFixnum 2)
      if y = makeFixnum 0 then .ok (some z)
      else
        let x ← times x x
        exptLoop rounds z y x

/-- The function cl_expt. A call counts as a round. -/
def expt : Nat → Rational → Integer → Except ArithmeticError (Option Rational)
  | 0, _, _ => .ok none
  | rounds + 1, x, y =>
    if y = makeFixnum 0 then .ok (some one)
    else if x = .integer (makeFixnum 0) then do
      let z ← times x (.integer y)
      if y.plusp then .ok (some z)
      else
        let z ← divide one z
        .ok (some z)
    else if y.minusp then do
      match ← expt rounds x y.negate with
      | none => .ok none
      | some z =>
        let z ← divide one z
        .ok (some z)
    else exptLoop rounds one y x

end Rational

theorem Integer.evenp_iff (x : Integer) : x.evenp = true ↔ Even x.value := by
  have odd := x.oddp_iff
  have opposite : x.evenp = !x.oddp := by
    cases x with
    | bignum v => rw [evenp, oddp, bne, Bool.not_not]
    | fixnum n =>
      have lowBit (w : BitVec 64) : (w &&& 1 = 0) ↔ w.toNat % 2 = 0 := by
        rw [← BitVec.toNat_inj, BitVec.toNat_and]
        show w.toNat &&& 1 = 0 ↔ _
        rw [Nat.and_one_is_mod]
      have range := (fix n).isLt
      rw [evenp, oddp, Bool.eq_iff_iff, bne_iff_ne, bne, Bool.not_not, beq_iff_eq, ne_eq, lowBit,
        lowBit, BitVec.toNat_not]
      omega
  rw [opposite, Bool.not_eq_true', ← not_odd_iff_even, ← odd, Bool.not_eq_true]

namespace Rational

theorem pow_half (z x : ℚ) (k : Nat) :
    (if k % 2 = 0 then z else z * x) * (x * x) ^ (k / 2) = z * x ^ k := by
  have halves := Nat.div_add_mod k 2
  rw [← pow_two, ← pow_mul]
  split
  · rename_i even
    rw [show 2 * (k / 2) = k by omega]
  · rename_i odd
    rw [mul_assoc, ← pow_succ', show 2 * (k / 2) + 1 = k by omega]

theorem exptLoop_spec {rounds : Nat} {z x : Rational} {y : Integer} (canonicalZ : z.Canonical)
    (canonicalX : x.Canonical) (canonicalY : y.Canonical) (positive : 0 < y.value)
    (enough : y.value < 2 ^ rounds) :
    ∃ w : Rational, exptLoop rounds z y x = .ok (some w) ∧ w.Canonical ∧
      w.value = z.value * x.value ^ y.value.toNat := by
  induction rounds generalizing z x y with
  | zero => omega
  | succ rounds ih =>
    obtain ⟨half, runHalf, isHalf⟩ := integerDivide_is (x := y) (y := makeFixnum 2) trivial
      (by decide) (by rintro ⟨-, minus⟩; exact absurd minus (by decide))
    have halfValue : half.value = y.value / 2 := by
      rw [isHalf.value_eq, show (makeFixnum 2).value = 2 by decide,
        tdiv_eq_ediv_of_nonneg positive.le]
    have multiplied : Exact (if y.evenp then .ok z else times z x)
        (if y.value.toNat % 2 = 0 then z.value else z.value * x.value) := by
      have parity : y.evenp = true ↔ y.value.toNat % 2 = 0 := by
        rw [y.evenp_iff, even_iff]
        omega
      by_cases even : y.evenp = true
      · rw [if_pos even, if_pos (parity.mp even)]
        exact ⟨z, rfl, canonicalZ, rfl⟩
      · rw [if_neg even, if_neg (mt parity.mpr even)]
        exact times_exact canonicalZ canonicalX
    obtain ⟨z', runZ, canonicalZ', valueZ⟩ := multiplied
    have step := pow_half z.value x.value y.value.toNat
    have halfNat : half.value.toNat = y.value.toNat / 2 := by omega
    rw [exptLoop, runZ]
    show ∃ w : Rational, (integerDivide y (makeFixnum 2) >>= _) = _ ∧ _
    rw [runHalf, ← step, ← valueZ, ← halfNat]
    by_cases done : half = makeFixnum 0
    · rw [done]
      refine ⟨z', rfl, canonicalZ', ?_⟩
      rw [Integer.makeFixnum_zero.value_eq, toNat_zero, pow_zero, mul_one]
    · obtain ⟨x', runX, canonicalX', valueX⟩ := times_exact canonicalX canonicalX
      have nonzero := mt (Integer.eq_zero_iff isHalf.canonical).mpr done
      obtain ⟨w, run, canonical, value⟩ := ih canonicalZ' canonicalX' isHalf.canonical
        (by omega) (by rw [pow_succ] at enough; omega)
      refine ⟨w, ?_, canonical, ?_⟩
      · show (if half = makeFixnum 0 then _ else times x x >>= _) = _
        rw [if_neg done, runX]
        exact run
      · rw [value, valueX]

theorem expt_positive (rounds : Nat) {x : Rational} {y : Integer} (canonicalX : x.Canonical)
    (canonicalY : y.Canonical) (nonzero : x.value ≠ 0) (positive : 0 < y.value)
    (enough : y.value < 2 ^ rounds) :
    ∃ z : Rational, expt (rounds + 1) x y = .ok (some z) ∧ z.Canonical ∧
      z.value = x.value ^ y.value.toNat := by
  have notNone : y ≠ makeFixnum 0 := mt (Integer.eq_zero_iff canonicalY).mp positive.ne'
  have notZero : x ≠ .integer (makeFixnum 0) := by
    rintro rfl
    exact nonzero (by decide +kernel)
  have notMinus : ¬ y.minusp = true := by
    rw [Integer.minusp_iff]
    omega
  obtain ⟨z, run, canonical, value⟩ :=
    exptLoop_spec one_canonical canonicalX canonicalY positive enough
  rw [one_value, one_mul] at value
  rw [expt, if_neg notNone, if_neg notZero, if_neg notMinus]
  exact ⟨z, run, canonical, value⟩

theorem expt_spec {rounds : Nat} {x : Rational} {y : Integer} (canonicalX : x.Canonical)
    (canonicalY : y.Canonical) (defined : x.value ≠ 0 ∨ 0 ≤ y.value)
    (enough : y.value.natAbs < 2 ^ rounds) :
    ∃ z : Rational, expt (rounds + 2) x y = .ok (some z) ∧ z.Canonical ∧
      z.value = x.value ^ y.value := by
  have zeroY := Integer.eq_zero_iff canonicalY
  by_cases none : y = makeFixnum 0
  · refine ⟨_, by rw [expt, if_pos none], one_canonical, ?_⟩
    rw [one_value, zeroY.mp none, zpow_zero]
  by_cases zero : x = .integer (makeFixnum 0)
  · have noBase : x.value = 0 := by rw [zero]; decide +kernel
    have positive : 0 < y.value := by
      have nonzero := mt zeroY.mpr none
      have above := defined.resolve_left (not_not_intro noBase)
      omega
    obtain ⟨z, run, canonical, value⟩ := times_exact (y := .integer y) canonicalX canonicalY
    refine ⟨z, ?_, canonical, ?_⟩
    · rw [expt, if_neg none, if_pos zero, run]
      show (if y.plusp = true then _ else _) = _
      rw [if_pos ((Integer.plusp_iff y).mpr positive)]
    · rw [value, noBase, zero_mul, zero_zpow _ positive.ne']
  · have nonzero : x.value ≠ 0 := fun noBase =>
      zero (eq_of_value canonicalX trivial (by rw [noBase]; decide +kernel))
    by_cases minus : y.minusp = true
    · have negative := (Integer.minusp_iff y).mp minus
      have negated := Integer.negate_is y
      have large : (2 : Int) ^ rounds = ((2 ^ rounds : Nat) : Int) := by push_cast; rfl
      obtain ⟨w, run, canonicalW, valueW⟩ := expt_positive rounds canonicalX
        negated.canonical nonzero (by rw [negated.value_eq]; omega)
        (by rw [negated.value_eq, large]; omega)
      have power : w.value = (x.value ^ y.value)⁻¹ := by
        rw [valueW, ← zpow_natCast, negated.value_eq, toNat_of_nonneg (by omega), zpow_neg]
      obtain ⟨z, runDivide, canonical, value⟩ := divide_exact one_canonical canonicalW
        (by rw [power]; exact inv_ne_zero (zpow_ne_zero _ nonzero))
      refine ⟨z, ?_, canonical, ?_⟩
      · rw [expt, if_neg none, if_neg zero, if_pos minus, run]
        show (divide _ w >>= fun z => .ok (some z)) = _
        rw [runDivide]
        rfl
      · rw [value, one_value, power, one_div, inv_inv]
    · have positive : 0 < y.value := by
        have notNegative := mt (Integer.minusp_iff y).mpr minus
        have other := mt zeroY.mpr none
        omega
      have large : (2 : Int) ^ rounds = ((2 ^ rounds : Nat) : Int) := by push_cast; rfl
      obtain ⟨z, run, canonical, value⟩ := expt_positive (rounds + 1) canonicalX
        canonicalY nonzero positive (by rw [pow_succ, large]; omega)
      refine ⟨z, run, canonical, ?_⟩
      rw [value, ← zpow_natCast, toNat_of_nonneg positive.le]

end Rational

/-- EXPT returns the power, in at most two rounds more than the exponent has bits. -/
theorem expt_exact {b : Rational} {e : Integer} (canonicalB : b.Canonical)
    (canonicalE : e.Canonical) (defined : b.value ≠ 0 ∨ 0 ≤ e.value) :
    ∃ z : Rational, z.Canonical ∧ z.value = b.value ^ e.value ∧
      ∀ bits, e.value.natAbs < 2 ^ bits → Rational.expt (bits + 2) b e = .ok (some z) := by
  obtain ⟨z, _, canonical, value⟩ :=
    Rational.expt_spec canonicalB canonicalE defined e.value.natAbs.lt_two_pow_self
  refine ⟨z, canonical, value, ?_⟩
  intro bits enough
  obtain ⟨w, run, canonicalW, valueW⟩ :=
    Rational.expt_spec canonicalB canonicalE defined enough
  rw [run, Rational.eq_of_value canonicalW canonical (valueW.trans value.symm)]

theorem expt_exact_third :
    ∃ z : Rational, z.Canonical ∧
      z.value = (Rational.ratio (makeFixnum 1) (makeFixnum 3)).value ^ (makeFixnum (-2)).value ∧
      ∀ bits, (makeFixnum (-2)).value.natAbs < 2 ^ bits →
        Rational.expt (bits + 2) (.ratio (makeFixnum 1) (makeFixnum 3)) (makeFixnum (-2)) =
          .ok (some z) :=
  expt_exact (by decide +kernel) trivial (.inl (by decide +kernel))

end Ecl.Number
