import Mathlib.Data.Int.Log
import Mathlib.Data.Rat.Floor
import Mathlib.Tactic.Positivity

/- Rounding of positive rationals to 53 significant bits, without bounds on the
exponent. -/
namespace Double

open Int

/-- The weight of the last of 53 bits. -/
def ulp (q : ℚ) : ℚ := 2 ^ (Int.log 2 q - 52)

/-- The nearest integer, the even one of two. -/
def nearest (q : ℚ) : ℤ :=
  if q - ⌊q⌋ < 1 / 2 then ⌊q⌋
  else if 1 / 2 < q - ⌊q⌋ then ⌊q⌋ + 1
  else if ⌊q⌋ % 2 = 0 then ⌊q⌋
  else ⌊q⌋ + 1

def round (q : ℚ) : ℚ := nearest (q / ulp q) * ulp q

theorem ulp_pos (q : ℚ) : 0 < ulp q := zpow_pos (by norm_num) _

theorem floor_le_nearest (q : ℚ) : ⌊q⌋ ≤ nearest q := by
  unfold nearest
  split_ifs <;> omega

theorem sub_half_le_nearest (q : ℚ) : q - 1 / 2 ≤ nearest q := by
  have above := lt_floor_add_one q
  unfold nearest
  split_ifs
  · linarith
  · push_cast
    linarith
  · linarith
  · push_cast
    linarith

variable {q : ℚ} {m : ℤ}

theorem le_round (le : m * ulp q ≤ q) : m * ulp q ≤ round q := by
  have bound : m ≤ nearest (q / ulp q) := by
    refine le_trans (le_floor.mpr ?_) (floor_le_nearest _)
    exact (le_div_iff₀ (ulp_pos q)).mpr le
  have cast : (m : ℚ) ≤ nearest (q / ulp q) := by exact_mod_cast bound
  exact mul_le_mul_of_nonneg_right cast (ulp_pos q).le

theorem zpow_log_eq (q : ℚ) : (2 : ℚ) ^ Int.log 2 q = ((2 ^ 52 : ℤ) : ℚ) * ulp q := by
  unfold ulp
  rw [zpow_sub₀ (by norm_num)]
  norm_num
  ring

theorem zpow_log_le_round (positive : 0 < q) : (2 : ℚ) ^ Int.log 2 q ≤ round q := by
  rw [zpow_log_eq]
  refine le_round ?_
  rw [← zpow_log_eq]
  exact_mod_cast zpow_log_le_self (b := 2) (by norm_num) positive

theorem sub_half_ulp_le_round (q : ℚ) : q - ulp q / 2 ≤ round q := by
  have near := sub_half_le_nearest (q / ulp q)
  have scaled := mul_le_mul_of_nonneg_right near (ulp_pos q).le
  have cancel : q / ulp q * ulp q = q := div_mul_cancel₀ q (ulp_pos q).ne'
  unfold round
  linarith [sub_mul (q / ulp q) (1 / 2) (ulp q)]

theorem nearest_intCast (m : ℤ) : nearest m = m := by
  unfold nearest
  simp

theorem nearest_le (less : q < m) : nearest q ≤ m := by
  have floor : ⌊q⌋ < m := floor_lt.mpr less
  unfold nearest
  split_ifs <;> omega

theorem round_of_multiple (multiple : q = m * ulp q) : round q = q := by
  have quotient : q / ulp q = m := (div_eq_iff (ulp_pos q).ne').mpr multiple
  unfold round
  rw [quotient, nearest_intCast]
  exact multiple.symm

theorem round_le_zpow_succ (q : ℚ) :
    nearest (q / ulp q) ≤ 2 ^ 53 ∧ round q ≤ (2 : ℚ) ^ (Int.log 2 q + 1) := by
  have next : q < (2 : ℚ) ^ (Int.log 2 q + 1) := by
    exact_mod_cast lt_zpow_succ_log_self (b := 2) (by norm_num) q
  have power : (2 : ℚ) ^ (Int.log 2 q + 1) = ((2 ^ 53 : ℤ) : ℚ) * ulp q := by
    rw [zpow_add_one₀ (by norm_num), zpow_log_eq]
    push_cast
    ring
  have bound : nearest (q / ulp q) ≤ 2 ^ 53 := by
    refine nearest_le ?_
    rw [div_lt_iff₀ (ulp_pos q), ← power]
    exact next
  refine ⟨bound, ?_⟩
  rw [power]
  have cast : (nearest (q / ulp q) : ℚ) ≤ ((2 ^ 53 : ℤ) : ℚ) := by exact_mod_cast bound
  exact mul_le_mul_of_nonneg_right cast (ulp_pos q).le

theorem round_round (positive : 0 < q) : round (round q) = round q := by
  obtain ⟨-, upper⟩ := round_le_zpow_succ q
  have lower := zpow_log_le_round positive
  have roundPos : 0 < round q := lt_of_lt_of_le (zpow_pos (by norm_num) _) lower
  rcases eq_or_lt_of_le upper with top | inside
  · -- the rounding reached the next power of two
    have exponent : Int.log 2 (round q) = Int.log 2 q + 1 := by
      rw [top]
      exact_mod_cast log_zpow (R := ℚ) (b := 2) (by norm_num) (Int.log 2 q + 1)
    refine round_of_multiple (m := 2 ^ 52) ?_
    rw [← zpow_log_eq, exponent, top]
  · have exponent : Int.log 2 (round q) = Int.log 2 q := by
      have above : Int.log 2 q ≤ Int.log 2 (round q) := by
        refine (zpow_le_iff_le_log (b := 2) (by norm_num) roundPos).mp ?_
        exact_mod_cast lower
      have below : Int.log 2 (round q) < Int.log 2 q + 1 := by
        refine (lt_zpow_iff_log_lt (b := 2) (by norm_num) roundPos).mp ?_
        exact_mod_cast inside
      omega
    refine round_of_multiple (m := nearest (q / ulp q)) ?_
    rw [show ulp (round q) = ulp q by unfold ulp; rw [exponent]]
    rfl

theorem one_le_round (le : 1 ≤ q) : 1 ≤ round q := by
  have positive : 0 < q := by linarith
  have exponent : 0 ≤ Int.log 2 q := by
    refine (zpow_le_iff_le_log (b := 2) (by norm_num) positive).mp ?_
    simpa using le
  have power : (1 : ℚ) ≤ (2 : ℚ) ^ Int.log 2 q := one_le_zpow₀ (by norm_num) exponent
  exact le_trans power (zpow_log_le_round positive)

theorem one_add_le {r : ℚ} (isDouble : round r = r) (above : 1 < r) :
    1 + (2 : ℚ) ^ (-52 : ℤ) ≤ r := by
  have positive : 0 < r := by linarith
  by_cases two : 2 ≤ r
  · have small : (2 : ℚ) ^ (-52 : ℤ) ≤ 1 := by norm_num
    linarith
  · have zero : Int.log 2 r = 0 := by
      have upper : Int.log 2 r < 1 := by
        refine (lt_zpow_iff_log_lt (b := 2) (by norm_num) positive).mp ?_
        norm_num
        linarith
      have lower : 0 ≤ Int.log 2 r := by
        refine (zpow_le_iff_le_log (b := 2) (by norm_num) positive).mp ?_
        norm_num
        linarith
      omega
    have unit : ulp r = (2 : ℚ) ^ (-52 : ℤ) := by
      unfold ulp
      rw [zero]
      norm_num
    have value : (nearest (r / ulp r) : ℚ) * (2 : ℚ) ^ (-52 : ℤ) = r := by
      rw [← unit]
      exact isDouble
    have many : (2 ^ 52 : ℤ) < nearest (r / ulp r) := by
      have scaled : (2 ^ 52 : ℚ) < nearest (r / ulp r) := by
        by_contra few
        have small := mul_le_mul_of_nonneg_right (not_lt.mp few)
          (show (0 : ℚ) ≤ (2 : ℚ) ^ (-52 : ℤ) by positivity)
        rw [value] at small
        norm_num at small
        linarith
      exact_mod_cast scaled
    have cast : ((2 ^ 52 + 1 : ℤ) : ℚ) ≤ nearest (r / ulp r) := by exact_mod_cast many
    have scaled := mul_le_mul_of_nonneg_right cast
      (show (0 : ℚ) ≤ (2 : ℚ) ^ (-52 : ℤ) by positivity)
    rw [value] at scaled
    norm_num at scaled ⊢
    linarith

/-- Multiplication by a double above one enlarges every positive number, in
spite of the two roundings. -/
theorem lt_round_mul {r : ℚ} (isDouble : round r = r) (above : 1 < r) (positive : 0 < q) :
    q < round (r * round q) := by
  have factor := one_add_le isDouble above
  have power : (2 : ℚ) ^ Int.log 2 q ≤ round q := zpow_log_le_round positive
  have powerPos : (0 : ℚ) < (2 : ℚ) ^ Int.log 2 q := zpow_pos (by norm_num) _
  have unit : (2 : ℚ) ^ Int.log 2 q * (2 : ℚ) ^ (-52 : ℤ) = ulp q := by
    unfold ulp
    rw [← zpow_add₀ (by norm_num)]
    rfl
  -- the exact product is at least one last bit above the rounded number
  have product : round q + ulp q ≤ r * round q := by
    have step := mul_le_mul_of_nonneg_right factor (le_trans powerPos.le power)
    have bit := mul_le_mul_of_nonneg_right power
      (show (0 : ℚ) ≤ (2 : ℚ) ^ (-52 : ℤ) by positivity)
    rw [unit] at bit
    linarith
  have below := sub_half_ulp_le_round q
  have bit := ulp_pos q
  have productPos : 0 < r * round q := by linarith
  have exponent : Int.log 2 q ≤ Int.log 2 (r * round q) := by
    refine (zpow_le_iff_le_log (b := 2) (by norm_num) productPos).mp ?_
    push_cast
    linarith
  rcases eq_or_lt_of_le exponent with same | higher
  · have sameUnit : ulp (r * round q) = ulp q := by
      unfold ulp
      rw [same]
    have multiple : ((nearest (q / ulp q) + 1 : ℤ) : ℚ) * ulp (r * round q) ≤ r * round q := by
      rw [sameUnit]
      push_cast
      have known : (nearest (q / ulp q) : ℚ) * ulp q = round q := rfl
      linarith
    have rounded := le_round multiple
    rw [sameUnit] at rounded
    push_cast at rounded
    have known : (nearest (q / ulp q) : ℚ) * ulp q = round q := rfl
    linarith
  · have next : q < (2 : ℚ) ^ (Int.log 2 q + 1) := by
      exact_mod_cast lt_zpow_succ_log_self (b := 2) (by norm_num) q
    have grow : (2 : ℚ) ^ (Int.log 2 q + 1) ≤ (2 : ℚ) ^ Int.log 2 (r * round q) :=
      zpow_le_zpow_right₀ (by norm_num) (by omega)
    have last := zpow_log_le_round productPos
    linarith

end Double
