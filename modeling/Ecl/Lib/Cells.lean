import Ecl.Lib.Bits

/- Sets of elements as sets of bits, one bit for each cell of a partition. The cells are
numbered, and all that is in none of the first cells is in one more. -/
namespace Ecl.Lib

open Int

variable {α : Type}

/-- The tag has the bits of the cells that the set is made of. -/
structure Denotes (n : Nat) (cell : α → Nat) (tag : Int) (p : α → Bool) : Prop where
  bit : ∀ x, tag.testBit (cell x) = p x
  beyond : ∀ j, n ≤ j → tag.testBit j = tag.testBit n

structure Cells (n : Nat) (cell : α → Nat) : Prop where
  le : ∀ x, cell x ≤ n
  inhabited : ∀ j, j ≤ n → ∃ x, cell x = j

namespace Denotes

variable {n : Nat} {cell : α → Nat} {tag tag1 tag2 : Int} {p p1 p2 : α → Bool}

theorem congr (denotes : Denotes n cell tag p1) (same : ∀ x, p1 x = p2 x) :
    Denotes n cell tag p2 where
  bit x := (denotes.bit x).trans (same x)
  beyond := denotes.beyond

theorem none (n : Nat) (cell : α → Nat) : Denotes n cell 0 fun _ => false where
  bit x := testBit_zero (cell x)
  beyond j _ := by rw [testBit_zero, testBit_zero]

theorem all (n : Nat) (cell : α → Nat) : Denotes n cell (-1) fun _ => true where
  bit x := testBit_neg_one (cell x)
  beyond j _ := by rw [testBit_neg_one, testBit_neg_one]

theorem land (left : Denotes n cell tag1 p1) (right : Denotes n cell tag2 p2) :
    Denotes n cell (Int.land tag1 tag2) fun x => p1 x && p2 x where
  bit x := by rw [testBit_land, left.bit, right.bit]
  beyond j far := by
    rw [testBit_land, testBit_land, left.beyond j far, right.beyond j far]

theorem lor (left : Denotes n cell tag1 p1) (right : Denotes n cell tag2 p2) :
    Denotes n cell (Int.lor tag1 tag2) fun x => p1 x || p2 x where
  bit x := by rw [testBit_lor, left.bit, right.bit]
  beyond j far := by
    rw [testBit_lor, testBit_lor, left.beyond j far, right.beyond j far]

theorem lnot (denotes : Denotes n cell tag p) : Denotes n cell (Int.lnot tag) fun x => !p x where
  bit x := by rw [testBit_lnot, denotes.bit]
  beyond j far := by rw [testBit_lnot, testBit_lnot, denotes.beyond j far]

theorem ldiff (left : Denotes n cell tag1 p1) (right : Denotes n cell tag2 p2) :
    Denotes n cell (Int.ldiff tag1 tag2) fun x => p1 x && !p2 x where
  bit x := by rw [testBit_ldiff, left.bit, right.bit]
  beyond j far := by
    rw [testBit_ldiff, testBit_ldiff, left.beyond j far, right.beyond j far]

end Denotes

section Inclusion

variable {n : Nat} {cell : α → Nat} {tag tag1 tag2 : Int} {p p1 p2 : α → Bool}

theorem Denotes.exists_bit (cells : Cells n cell) (denotes : Denotes n cell tag p) (j : Nat) :
    ∃ x, cell x = min j n ∧ tag.testBit j = p x := by
  obtain ⟨x, at_x⟩ := cells.inhabited (min j n) (Nat.min_le_right j n)
  refine ⟨x, at_x, ?_⟩
  have bit := denotes.bit x
  rw [at_x] at bit
  by_cases far : n ≤ j
  · rw [Nat.min_eq_right far] at bit
    rw [denotes.beyond j far, bit]
  · rw [Nat.min_eq_left (by omega)] at bit
    exact bit

theorem Denotes.ldiff_eq_zero_iff (cells : Cells n cell) (left : Denotes n cell tag1 p1)
    (right : Denotes n cell tag2 p2) :
    Int.ldiff tag1 tag2 = 0 ↔ ∀ x, p1 x = true → p2 x = true := by
  rw [Ecl.Lib.ldiff_eq_zero_iff]
  constructor
  · intro included x isIn
    rw [← left.bit] at isIn
    rw [← right.bit]
    exact included (cell x) isIn
  · intro included j bit
    obtain ⟨x, -, eq⟩ := (left.ldiff right).exists_bit cells j
    rw [testBit_ldiff, bit, Bool.true_and] at eq
    by_contra other
    rw [Bool.eq_false_iff.mpr other] at eq
    have both := eq.symm
    rw [Bool.not_false, Bool.and_eq_true, Bool.not_eq_true'] at both
    rw [included x both.1] at both
    cases both.2

theorem Denotes.land_eq_zero_iff (cells : Cells n cell) (left : Denotes n cell tag1 p1)
    (right : Denotes n cell tag2 p2) :
    Int.land tag1 tag2 = 0 ↔ ∀ x, p1 x = true → p2 x = false := by
  rw [Ecl.Lib.land_eq_zero_iff]
  constructor
  · intro apart x isIn
    rw [← left.bit] at isIn
    rw [← right.bit]
    exact apart (cell x) isIn
  · intro apart j bit
    obtain ⟨x, -, eq⟩ := (left.land right).exists_bit cells j
    rw [testBit_land, bit, Bool.true_and] at eq
    rw [eq, Bool.and_eq_false_iff]
    cases isIn : p1 x with
    | false => exact .inl rfl
    | true => exact .inr (apart x isIn)

end Inclusion

/-- The number n for the elements of the set, and the next number for what was in none of the
first cells. -/
def splitCell (n : Nat) (cell : α → Nat) (r : α → Bool) (x : α) : Nat :=
  if r x then n else if cell x = n then n + 1 else cell x

section Split

variable {n c : Nat} {cell : α → Nat} {r : α → Bool}

theorem splitCell_of_mem {x : α} (isIn : r x = true) : splitCell n cell r x = n := by
  rw [splitCell, if_pos isIn]

theorem splitCell_of_not_mem {x : α} (out : r x = false) :
    splitCell n cell r x = if cell x = n then n + 1 else cell x := by
  rw [splitCell, if_neg (by rw [out]; exact Bool.false_ne_true)]

theorem Cells.split (cells : Cells n cell) (within : ∀ x, r x = true → cell x = c)
    (some : ∃ x, r x = true) (rest : ∃ x, cell x = c ∧ r x = false) :
    Cells (n + 1) (splitCell n cell r) where
  le x := by
    have := cells.le x
    unfold splitCell
    split
    · omega
    · split <;> omega
  inhabited j below := by
    -- The cell j of old is not empty, and has an element out of the set.
    have old : ∀ k, k ≤ n → ∃ x, cell x = k ∧ r x = false := by
      intro k le
      by_cases this : k = c
      · exact this ▸ rest
      · obtain ⟨x, at_x⟩ := cells.inhabited k le
        refine ⟨x, at_x, ?_⟩
        by_contra isIn
        exact this (at_x.symm.trans (within x (Bool.not_eq_false _ ▸ isIn)))
    by_cases last : j = n + 1
    · obtain ⟨x, at_x, out⟩ := old n (Nat.le_refl n)
      exact ⟨x, by rw [splitCell_of_not_mem out, if_pos at_x, last]⟩
    · by_cases this : j = n
      · obtain ⟨x, isIn⟩ := some
        exact ⟨x, (splitCell_of_mem isIn).trans this.symm⟩
      · obtain ⟨x, at_x, out⟩ := old j (by omega)
        exact ⟨x, by rw [splitCell_of_not_mem out, if_neg (by omega), at_x]⟩

/-- The new tag of a set has the new bit when it has that of the cell that is split. -/
theorem Denotes.split {tag tag' : Int} {p : α → Bool} (denotes : Denotes n cell tag p)
    (within : ∀ x, r x = true → cell x = c) (new : tag'.testBit n = tag.testBit c)
    (same : ∀ j, j ≠ n → tag'.testBit j = tag.testBit j) :
    Denotes (n + 1) (splitCell n cell r) tag' p where
  bit x := by
    rw [← denotes.bit x]
    cases isIn : r x with
    | true => rw [splitCell_of_mem isIn, new, within x isIn]
    | false =>
      rw [splitCell_of_not_mem isIn]
      split
      next last => rw [same _ (by omega), denotes.beyond _ (by omega), last]
      next first => rw [same _ first]
  beyond j far := by
    rw [same j (by omega), same (n + 1) (by omega), denotes.beyond j (by omega),
      denotes.beyond (n + 1) (by omega)]

theorem Denotes.split_outside {tag : Int} {p : α → Bool} (denotes : Denotes n cell tag p)
    (within : ∀ x, r x = true → cell x = c) (some : ∃ x, r x = true)
    (outside : ∀ x, r x = true → p x = false) (last : tag.testBit n = false) :
    Denotes (n + 1) (splitCell n cell r) tag p := by
  refine denotes.split within ?_ fun _ _ => rfl
  obtain ⟨x, isIn⟩ := some
  rw [last, ← within x isIn, denotes.bit, outside x isIn]

theorem Denotes.two_pow :
    Denotes (n + 1) (splitCell n cell r) (2 ^ n) r where
  bit x := by
    rw [testBit_two_pow]
    cases isIn : r x with
    | true => rw [splitCell_of_mem isIn, decide_eq_true rfl]
    | false =>
      rw [splitCell_of_not_mem isIn]
      split
      · exact decide_eq_false (by omega)
      next first => exact decide_eq_false fun eq => first eq.symm
  beyond j far := by
    rw [testBit_two_pow, testBit_two_pow, decide_eq_false (by omega), decide_eq_false (by omega)]

end Split

end Ecl.Lib
