import Mathlib.Data.Int.Bitwise
import Mathlib.Tactic.Positivity
import Mathlib.Tactic.Ring

/- Integers as sets of bits, where a negative integer has all but finitely many. -/
namespace Ecl.Lib

open Int Function

theorem testBit_ldiff_iff (a b : Int) (j : Nat) :
    (Int.ldiff a b).testBit j = true ↔ a.testBit j = true ∧ b.testBit j = false := by
  rw [testBit_ldiff, Bool.and_eq_true, Bool.not_eq_true']

theorem testBit_zero (j : Nat) : (0 : Int).testBit j = false := Nat.zero_testBit j

theorem testBit_neg_one (j : Nat) : (-1 : Int).testBit j = true := by
  show (!(0 : Nat).testBit j) = true
  rw [Nat.zero_testBit]
  rfl

theorem testBit_two_pow (n j : Nat) : ((2 : Int) ^ n).testBit j = decide (n = j) := by
  rw [← Nat.cast_two, ← Nat.cast_pow]
  exact Nat.testBit_two_pow

theorem eq_zero_iff (a : Int) : a = 0 ↔ ∀ j, a.testBit j = false := by
  constructor
  · rintro rfl
    exact testBit_zero
  · intro none
    cases a with
    | ofNat n => exact congrArg Int.ofNat (Nat.zero_of_testBit_eq_false none)
    | negSucc n =>
      have high : n.testBit n = false := Nat.testBit_lt_two_pow Nat.lt_two_pow_self
      have bit : (!n.testBit n) = false := none n
      rw [high] at bit
      cases bit

theorem ldiff_eq_zero_iff (a b : Int) :
    Int.ldiff a b = 0 ↔ ∀ j, a.testBit j = true → b.testBit j = true := by
  rw [eq_zero_iff]
  constructor
  · intro none j bit
    by_contra other
    have := (testBit_ldiff_iff a b j).mpr ⟨bit, Bool.eq_false_iff.mpr other⟩
    rw [none j] at this
    cases this
  · intro included j
    rw [Bool.eq_false_iff]
    intro both
    have ⟨bit, other⟩ := (testBit_ldiff_iff a b j).mp both
    rw [included j bit] at other
    cases other

theorem land_eq_zero_iff (a b : Int) :
    Int.land a b = 0 ↔ ∀ j, a.testBit j = true → b.testBit j = false := by
  rw [eq_zero_iff]
  simp only [testBit_land, Bool.and_eq_false_iff]
  constructor
  · intro none j bit
    exact (none j).resolve_left (by rw [bit]; exact Bool.noConfusion)
  · intro apart j
    cases bit : a.testBit j with
    | false => exact .inl rfl
    | true => exact .inr (apart j bit)

theorem testBit_ext {a b : Int} (same : ∀ j, a.testBit j = b.testBit j) : a = b := by
  -- Above its digits a number shows its sign.
  have mixed (n m : Nat) : ∃ j, n.testBit j = false ∧ m.testBit j = false := by
    have high {k : Nat} (le : k ≤ n + m) : k.testBit (n + m) = false :=
      Nat.testBit_lt_two_pow (lt_of_le_of_lt le Nat.lt_two_pow_self)
    exact ⟨n + m, high (by omega), high (by omega)⟩
  cases a with
  | ofNat n =>
    cases b with
    | ofNat m => exact congrArg Int.ofNat (Nat.eq_of_testBit_eq same)
    | negSucc m =>
      obtain ⟨j, left, right⟩ := mixed n m
      have bit : n.testBit j = !m.testBit j := same j
      rw [left, right] at bit
      cases bit
  | negSucc n =>
    cases b with
    | ofNat m =>
      obtain ⟨j, left, right⟩ := mixed n m
      have bit : (!n.testBit j) = m.testBit j := same j
      rw [left, right] at bit
      cases bit
    | negSucc m =>
      apply congrArg Int.negSucc
      apply Nat.eq_of_testBit_eq
      intro j
      have bit : (!n.testBit j) = !m.testBit j := same j
      exact Bool.not_inj bit

theorem testBit_iff (a : Int) (j : Nat) : a.testBit j = true ↔ a / 2 ^ j % 2 = 1 := by
  have power : (2 : Int) ^ j = ((2 ^ j : Nat) : Int) := by push_cast; rfl
  cases a with
  | ofNat n =>
    show n.testBit j = true ↔ (n : Int) / 2 ^ j % 2 = 1
    rw [Nat.testBit_eq_decide_div_mod_eq, decide_eq_true_iff, power, ← natCast_div]
    omega
  | negSucc n =>
    have positive : (0 : Int) < 2 ^ j := by positivity
    show (!n.testBit j) = true ↔ _
    rw [Nat.testBit_eq_decide_div_mod_eq, Bool.not_eq_true', decide_eq_false_iff_not,
      negSucc_ediv _ positive]
    show _ ↔ -((n : Int) / 2 ^ j + 1) % 2 = 1
    rw [power, ← natCast_div]
    omega

theorem testBit_mul_two_pow (a : Int) (k j : Nat) :
    (a * 2 ^ k).testBit j = (decide (k ≤ j) && a.testBit (j - k)) := by
  rw [Bool.eq_iff_iff, Bool.and_eq_true, decide_eq_true_iff, testBit_iff, testBit_iff]
  by_cases le : k ≤ j
  · have split : (2 : Int) ^ j = 2 ^ (j - k) * 2 ^ k := by
      rw [← pow_add, Nat.sub_add_cancel le]
    have positive : (0 : Int) < 2 ^ k := by positivity
    rw [split, mul_ediv_mul_of_pos_left _ _ positive]
    simp only [le, true_and]
  · have split : (2 : Int) ^ k = 2 * 2 ^ (k - j - 1) * 2 ^ j := by
      rw [← pow_succ', ← pow_add]
      congr 1
      omega
    have positive : (0 : Int) < 2 ^ j := by positivity
    rw [split, ← mul_assoc, mul_ediv_cancel _ positive.ne', mul_left_comm]
    simp only [le, false_and, iff_false]
    omega

theorem testBit_div_two_pow (a : Int) (k j : Nat) :
    (a / 2 ^ k).testBit j = a.testBit (j + k) := by
  rw [Bool.eq_iff_iff, testBit_iff, testBit_iff, ediv_ediv_of_nonneg (by positivity),
    ← pow_add, Nat.add_comm]

theorem testBit_neg_two_pow (s j : Nat) : (-(2 : Int) ^ s).testBit j = decide (s ≤ j) := by
  rw [← neg_one_mul, testBit_mul_two_pow, testBit_neg_one, Bool.and_true]

theorem testBit_mod_two_pow (a : Int) (s j : Nat) :
    (a % 2 ^ s).testBit j = (decide (j < s) && a.testBit j) := by
  rw [Bool.eq_iff_iff, Bool.and_eq_true, decide_eq_true_iff, testBit_iff, testBit_iff]
  have positive : (0 : Int) < 2 ^ j := by positivity
  by_cases below : j < s
  · have split : (2 : Int) ^ s = 2 * 2 ^ (s - j - 1) * 2 ^ j := by
      rw [← pow_succ', ← pow_add]
      congr 1
      omega
    have quotient : a / 2 ^ j = a % 2 ^ s / 2 ^ j + 2 * (2 ^ (s - j - 1) * (a / 2 ^ s)) := by
      have whole : a = a % 2 ^ s + 2 * (2 ^ (s - j - 1) * (a / 2 ^ s)) * 2 ^ j := by
        calc
          a = a % 2 ^ s + 2 ^ s * (a / 2 ^ s) := (emod_add_mul_ediv a _).symm
          _ = a % 2 ^ s + 2 * (2 ^ (s - j - 1) * (a / 2 ^ s)) * 2 ^ j := by
            nth_rewrite 2 [split]
            ring
      nth_rewrite 1 [whole]
      exact add_mul_ediv_right _ _ positive.ne'
    simp only [below, true_and]
    omega
  · have small : a % 2 ^ s < 2 ^ j :=
      lt_of_lt_of_le (emod_lt_of_pos _ (by positivity))
        (pow_le_pow_right₀ (by decide) (by omega))
    have none : a % 2 ^ s / 2 ^ j = 0 :=
      ediv_eq_zero_of_lt (emod_nonneg _ (by positivity)) small
    simp only [below, none, false_and, iff_false]
    omega

theorem ldiff_neg_two_pow (a : Int) (s : Nat) : Int.ldiff a (-(2 : Int) ^ s) = a % 2 ^ s := by
  apply testBit_ext
  intro j
  rw [testBit_mod_two_pow, Bool.eq_iff_iff, testBit_ldiff_iff, testBit_neg_two_pow,
    Bool.and_eq_true, decide_eq_true_iff, decide_eq_false_iff_not, Nat.not_le, and_comm]

theorem land_comm (a b : Int) : Int.land a b = Int.land b a := by
  apply testBit_ext
  intro j
  rw [testBit_land, testBit_land, Bool.and_comm]

theorem lor_comm (a b : Int) : Int.lor a b = Int.lor b a := by
  apply testBit_ext
  intro j
  rw [testBit_lor, testBit_lor, Bool.or_comm]

theorem land_ones (a : Int) (k : Nat) : Int.land a ((2 ^ k - 1 : Nat) : Int) = a % 2 ^ k := by
  apply testBit_ext
  intro j
  have ones : ((2 ^ k - 1 : Nat) : Int).testBit j = decide (j < k) :=
    Nat.testBit_two_pow_sub_one k j
  rw [testBit_land, ones, testBit_mod_two_pow, Bool.and_comm]

theorem testBit_mul_add (a : Int) {b : Int} {k : Nat} (low : 0 ≤ b) (high : b < 2 ^ k) (j : Nat) :
    (a * 2 ^ k + b).testBit j = if j < k then b.testBit j else a.testBit (j - k) := by
  have positive : (0 : Int) < 2 ^ k := by positivity
  split
  · rename_i below
    have rest : (a * 2 ^ k + b) % 2 ^ k = b := by
      rw [add_comm, add_mul_emod_self_right, emod_eq_of_lt low high]
    have bit := testBit_mod_two_pow (a * 2 ^ k + b) k j
    rw [rest] at bit
    simp only [bit, below, decide_true, Bool.true_and]
  · rename_i above
    have quotient : (a * 2 ^ k + b) / 2 ^ k = a := by
      rw [add_comm, add_mul_ediv_right _ _ positive.ne', ediv_eq_zero_of_lt low high,
        zero_add]
    have bit := testBit_div_two_pow (a * 2 ^ k + b) k (j - k)
    rw [quotient, Nat.sub_add_cancel (by omega)] at bit
    exact bit.symm

theorem lor_mul_two_pow (a : Int) {b : Int} {k : Nat} (low : 0 ≤ b) (high : b < 2 ^ k) :
    Int.lor (a * 2 ^ k) b = a * 2 ^ k + b := by
  apply testBit_ext
  intro j
  have part := testBit_mod_two_pow b k j
  rw [emod_eq_of_lt low high] at part
  rw [testBit_lor, testBit_mul_add a low high, testBit_mul_two_pow]
  split
  · rename_i below
    simp only [show ¬ k ≤ j by omega, decide_false, Bool.false_and, Bool.false_or]
  · rename_i above
    rw [part]
    simp only [show k ≤ j by omega, above, decide_true, decide_false, Bool.true_and,
      Bool.false_and, Bool.or_false]

theorem testBit_toInt {w : Nat} (x : BitVec w) (j : Nat) :
    x.toInt.testBit j = if j < w then x.getLsbD j else x.msb := by
  cases sign : x.msb with
  | false =>
    rw [BitVec.toInt_eq_toNat_of_msb sign]
    show x.toNat.testBit j = _
    split
    · rfl
    · exact BitVec.getLsbD_of_ge x j (by omega)
  | true =>
    have range := x.isLt
    have complement : x.toInt = Int.negSucc (~~~x).toNat := by
      have power : ((2 ^ w : Nat) : Int) = 2 ^ w := by push_cast; rfl
      rw [BitVec.toInt_eq_msb_cond, if_pos sign, BitVec.toNat_not, negSucc_eq]
      omega
    rw [complement]
    show (!(~~~x).getLsbD j) = _
    rw [BitVec.getLsbD_not]
    split
    · rename_i below
      simp only [below, decide_true, Bool.true_and, Bool.not_not]
    · rename_i above
      simp only [above, decide_false, Bool.false_and, Bool.not_false]

/- Memory of bytes as a row of bits, where the first bit of a byte is its highest. -/

/-- The byte at each address. -/
abbrev Memory : Type := Nat → BitVec 8

namespace Memory

def bit (m : Memory) (k : Nat) : Bool := (m (k / 8)).getLsbD (7 - k % 8)

def write (m : Memory) (address : Nat) (byte : BitVec 8) : Memory := Function.update m address byte

theorem bit_write (m : Memory) (address : Nat) (byte : BitVec 8) (k : Nat) :
    (m.write address byte).bit k =
      if k / 8 = address then byte.getLsbD (7 - k % 8) else m.bit k := by
  unfold bit write
  by_cases here : k / 8 = address
  · rw [if_pos here, here, update_self]
  · rw [if_neg here, update_of_ne here]

theorem ext_bit {m m' : Memory} (same : ∀ k, m.bit k = m'.bit k) : m = m' := by
  funext address
  apply BitVec.eq_of_getLsbD_eq
  intro j below
  have here := same (8 * address + (7 - j))
  unfold bit at here
  have quotient : (8 * address + (7 - j)) / 8 = address := by omega
  have remainder : 7 - (8 * address + (7 - j)) % 8 = j := by omega
  rwa [quotient, remainder] at here

/-- The first `n` bits from `start` on are those of `f`, and the others are as before. -/
def Written (m m' : Memory) (start : Nat) (f : Nat → Bool) (n : Nat) : Prop :=
  ∀ k, m'.bit k = if start ≤ k ∧ k < start + n then f (k - start) else m.bit k

namespace Written

variable {m m' : Memory} {start n : Nat} {f : Nat → Bool}

theorem none (m : Memory) (start : Nat) (f : Nat → Bool) : Written m m start f 0 := by
  intro k
  rw [if_neg (by omega)]

theorem inside (written : Written m m' start f n) {i : Nat} (below : i < n) :
    m'.bit (start + i) = f i := by
  rw [written (start + i), if_pos (by omega), Nat.add_sub_cancel_left]

theorem outside (written : Written m m' start f n) {k : Nat}
    (out : k < start ∨ start + n ≤ k) : m'.bit k = m.bit k := by
  rw [written k, if_neg (by omega)]

theorem append (written : Written m m' start f n) {m'' : Memory} {more : Nat}
    (next : Written m' m'' (start + n) (fun i => f (n + i)) more) :
    Written m m'' start f (n + more) := by
  intro k
  rw [next k]
  by_cases new : start + n ≤ k ∧ k < start + n + more
  · rw [if_pos new, if_pos (by omega)]
    show f (n + (k - (start + n))) = f (k - start)
    have index : n + (k - (start + n)) = k - start := by omega
    rw [index]
  · rw [if_neg new, written k]
    by_cases old : start ≤ k ∧ k < start + n
    · rw [if_pos old, if_pos (by omega)]
    · rw [if_neg old, if_neg (by omega)]

end Written

end Memory

/- Fields of bits in integers of any sign, after their size and position. -/

def field (a : Int) (s p : Nat) : Int := a / 2 ^ p % 2 ^ s

/-- A field moved back to its place. -/
def placed (v : Int) (s p : Nat) : Int := v % 2 ^ s * 2 ^ p

/-- A number of which one field is taken out and another put there. -/
def deposit (v : Int) (s p : Nat) (a : Int) : Int :=
  Int.xor (Int.xor a (placed (a / 2 ^ p) s p)) (placed v s p)

theorem testBit_field (a : Int) (s p j : Nat) :
    (field a s p).testBit j = (decide (j < s) && a.testBit (j + p)) := by
  rw [field, testBit_mod_two_pow, testBit_div_two_pow]

theorem testBit_placed (v : Int) (s p j : Nat) :
    (placed v s p).testBit j = (decide (p ≤ j ∧ j < p + s) && v.testBit (j - p)) := by
  rw [placed, testBit_mul_two_pow, testBit_mod_two_pow, ← Bool.and_assoc, ← Bool.decide_and]
  have bounds : (p ≤ j ∧ j - p < s) ↔ (p ≤ j ∧ j < p + s) := by omega
  simp only [bounds]

theorem testBit_deposit (v : Int) (s p : Nat) (a : Int) (j : Nat) :
    (deposit v s p a).testBit j =
      if p ≤ j ∧ j < p + s then v.testBit (j - p) else a.testBit j := by
  rw [deposit, testBit_lxor, testBit_lxor, testBit_placed, testBit_placed,
    testBit_div_two_pow]
  split
  · rename_i inside
    have place : j - p + p = j := by omega
    simp only [inside, and_self, decide_true, Bool.true_and, place, Bool.xor_self, Bool.false_xor]
  · rename_i outside
    simp only [outside, decide_false, Bool.false_and, Bool.xor_false]

theorem field_deposit (v : Int) (s p : Nat) (a : Int) :
    field (deposit v s p a) s p = v % 2 ^ s := by
  apply testBit_ext
  intro j
  rw [testBit_field, testBit_deposit, testBit_mod_two_pow]
  by_cases below : j < s
  · rw [if_pos (by omega), Nat.add_sub_cancel]
  · simp only [below, decide_false, Bool.false_and]

theorem deposit_field (s p : Nat) (a : Int) : deposit (field a s p) s p a = a := by
  apply testBit_ext
  intro j
  rw [testBit_deposit]
  split
  · rename_i inside
    have place : j - p + p = j := by omega
    have below : j - p < s := by omega
    rw [testBit_field, place]
    simp only [below, decide_true, Bool.true_and]
  · rfl

end Ecl.Lib
