import Mathlib.Data.List.Basic

/- Names looked up in a list of bindings, where the place of what is found is counted in another
list, to which each binding contributes some entries. -/
namespace Ecl.Lib

open Option List

/-- What a binding is to somebody who looks for a name. -/
inductive Sight where
  | found
  | hidden
  | passed
  deriving DecidableEq

section

variable {α : Type}

/-- The place of the first binding that is found, unless a binding hides it. -/
def search (sight : α → Sight) (weight : α → Nat) : List α → Option Nat
  | [] => none
  | a :: as =>
    match sight a with
    | .found => some 0
    | .hidden => none
    | .passed => (search sight weight as).map (weight a + ·)

variable {sight sight' : α → Sight} {weight weight' : α → Nat} {a b : α} {as inner outer : List α}

theorem search_found (h : sight a = .found) : search sight weight (a :: as) = some 0 := by
  simp [search, h]

theorem search_hidden (h : sight a = .hidden) : search sight weight (a :: as) = none := by
  simp [search, h]

theorem search_passed (h : sight a = .passed) :
    search sight weight (a :: as) = (search sight weight as).map (weight a + ·) := by
  simp [search, h]

theorem sight_cases (sight : α → Sight) (as : List α) : (∀ a ∈ as, sight a = .passed) ∨
    ∃ inner b outer, as = inner ++ b :: outer ∧ (∀ a ∈ inner, sight a = .passed) ∧
      sight b ≠ .passed := by
  induction as with
  | nil => exact .inl (by simp)
  | cons a as ih =>
    by_cases h : sight a = .passed
    · rcases ih with all | ⟨inner, b, outer, rfl, passed, stops⟩
      · exact .inl (by simpa [h] using all)
      · exact .inr ⟨a :: inner, b, outer, rfl, by simpa [h] using passed, stops⟩
    · exact .inr ⟨[], a, as, rfl, by simp, h⟩

theorem search_none (passed : ∀ a ∈ as, sight a = .passed) : search sight weight as = none := by
  induction as with
  | nil => rfl
  | cons a as ih =>
    rw [search_passed (passed a (by simp)), ih fun b hb => passed b (by simp [hb])]
    rfl

theorem search_hidden_at (passed : ∀ a ∈ inner, sight a = .passed) (h : sight b = .hidden) :
    search sight weight (inner ++ b :: outer) = none := by
  induction inner with
  | nil => exact search_hidden h
  | cons a inner ih =>
    rw [cons_append, search_passed (passed a (by simp)), ih fun b hb => passed b (by simp [hb])]
    rfl

theorem search_eq_none_iff (shown : ∀ a, sight a ≠ .hidden) :
    search sight weight as = none ↔ ∀ a ∈ as, sight a ≠ .found := by
  induction as with
  | nil => simp [search]
  | cons a as ih =>
    cases h : sight a with
    | found => simp [search_found h, h]
    | hidden => exact absurd h (shown a)
    | passed => simp [search_passed h, h, ih]

theorem search_le (less : ∀ a, weight' a ≤ weight a) (shown : ∀ a, sight' a ≠ .hidden)
    (passed : ∀ a ∈ inner, sight a = .passed) (found : sight b = .found)
    (found' : sight' b = .found) : ∃ m n, search sight' weight' (inner ++ b :: outer) = some m ∧
      search sight weight (inner ++ b :: outer) = some n ∧ m ≤ n := by
  induction inner with
  | nil => exact ⟨0, 0, search_found found', search_found found, Nat.le_refl 0⟩
  | cons a inner ih =>
    obtain ⟨m, n, hm, hn, le⟩ := ih fun b hb => passed b (by simp [hb])
    have later : search sight weight (a :: inner ++ b :: outer) = some (weight a + n) := by
      rw [cons_append, search_passed (passed a (by simp)), hn]
      rfl
    cases h : sight' a with
    | found => exact ⟨0, _, search_found h, later, Nat.zero_le _⟩
    | hidden => exact absurd h (shown a)
    | passed =>
      refine ⟨weight' a + m, _, ?_, later, Nat.add_le_add (less a) le⟩
      rw [cons_append, search_passed h, hm]
      rfl

/-- It finds the same place only if it passes the same bindings and counts the same. -/
theorem search_eq_iff (less : ∀ a, weight' a ≤ weight a) (shown : ∀ a, sight' a ≠ .hidden)
    (counted : ∀ a ∈ inner, sight' a = .found → 0 < weight a)
    (passed : ∀ a ∈ inner, sight a = .passed) (found : sight b = .found)
    (found' : sight' b = .found) :
    search sight' weight' (inner ++ b :: outer) = search sight weight (inner ++ b :: outer) ↔
      ∀ a ∈ inner, sight' a = .passed ∧ weight' a = weight a := by
  induction inner with
  | nil => simp [search_found, found, found']
  | cons a inner ih =>
    have passed' : ∀ b ∈ inner, sight b = .passed := fun b hb => passed b (by simp [hb])
    have ih := ih (fun b hb => counted b (by simp [hb])) passed'
    obtain ⟨m, n, hm, hn, le⟩ :=
      @search_le α sight sight' weight weight' b inner outer less shown passed' found found'
    rw [hm, hn, some.injEq] at ih
    rw [cons_append, search_passed (passed a (by simp)), hn, forall_mem_cons, ← ih]
    have one := less a
    cases h : sight' a with
    | found =>
      have positive := counted a (by simp) h
      rw [search_found h]
      simp only [map_some, some.injEq, reduceCtorEq, false_and, iff_false]
      omega
    | hidden => exact absurd h (shown a)
    | passed =>
      rw [search_passed h, hm]
      simp only [map_some, some.injEq, true_and]
      omega

end

end Ecl.Lib
