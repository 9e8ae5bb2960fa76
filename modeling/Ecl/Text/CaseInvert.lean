import Ecl.Text.CaseRead

/- The function invert_buffer_case, and the characters that it skips. -/
namespace Ecl.Text.Case

open List Nat

theorem convertLoop_eq (ucd : Ucd) (sign : Int) {high : Int} (low : -1 ≤ high) (n : Nat) :
    ∀ x : List Nat, convertLoop ucd sign high n x = (min n (high + 1).toNat,
      x.mapIdx fun j c => if high < j ∧ j < n then convert ucd sign c else c) := by
  induction n with
  | zero =>
    intro x
    rw [convertLoop, zero_min]
    simp only [not_lt_zero, and_false, if_false]
    exact congrArg _ (ext_getElem (by simp) fun _ _ _ => by simp)
  | succ i ih =>
    intro x
    rw [convertLoop]
    split
    · rw [ih]
      refine Prod.ext (by simp only; omega) ?_
      apply ext_getElem (by simp)
      intro j inside _
      simp only [getElem_mapIdx, getElem_modify]
      by_cases last : i = j
      · subst last
        rw [if_pos rfl, if_neg (by omega), if_pos (by omega)]
      · rw [if_neg last]
        by_cases between : high < j ∧ j < i
        · rw [if_pos between, if_pos (by omega)]
        · rw [if_neg between, if_neg (by omega)]
    · refine Prod.ext (by simp only; omega) ?_
      apply ext_getElem (by simp)
      intro j inside _
      rw [getElem_mapIdx, if_neg (by omega)]

theorem skipLoop_eq {low : Int} (least : -1 ≤ low) (n : Nat) :
    skipLoop low n = min n (low + 1).toNat := by
  induction n with
  | zero => rfl
  | succ i ih =>
    rw [skipLoop]
    split
    · rw [ih]
      omega
    · omega

namespace EscapeList

/-- The characters that are skipped: those at an interval that ends before it begins. -/
def skips : EscapeList → Nat → Bool
  | .cons low high rest, j => (high < low && low == j) || rest.skips j
  | _, _ => false

/-- From the last interval to the first one. -/
def Ordered : EscapeList → Nat → Prop
  | .cons low high rest, n => 0 ≤ low ∧ low ≤ n ∧ low - 1 ≤ high ∧ rest.Ordered low.toNat
  | _, _ => True

theorem Ordered.mono {list : EscapeList} {n m : Nat} (ordered : list.Ordered n) (le : n ≤ m) :
    list.Ordered m := by
  cases list with
  | cons low high rest =>
    obtain ⟨nonneg, below, wide, others⟩ := ordered
    exact ⟨nonneg, by omega, wide, others⟩
  | nil => trivial
  | t => trivial

theorem Ordered.skips_le {list : EscapeList} {n j : Nat} (ordered : list.Ordered n)
    (skipped : list.skips j = true) : j ≤ n := by
  induction list generalizing n with
  | cons low high rest ih =>
    obtain ⟨nonneg, below, wide, others⟩ := ordered
    simp only [skips, Bool.or_eq_true, Bool.and_eq_true, decide_eq_true_iff,
      beq_iff_eq] at skipped
    obtain ⟨_, here⟩ | later := skipped
    · omega
    · have bound := ih others later
      omega
  | nil => exact absurd skipped Bool.false_ne_true
  | t => exact absurd skipped Bool.false_ne_true

end EscapeList

theorem invertLoop_eq (ucd : Ucd) (sign : Int) (list : EscapeList) :
    ∀ {n : Nat} (x : List Nat), list.Ordered n →
      invertLoop ucd sign list n x = x.mapIdx fun j c =>
        if j < n ∧ list.skips j = false then convert ucd sign c else c := by
  have rest (n : Nat) (x : List Nat) : (convertLoop ucd sign (-1) n x).2 =
      x.mapIdx fun j c => if j < n ∧ false = false then convert ucd sign c else c := by
    rw [convertLoop_eq ucd sign (Int.le_refl _)]
    apply ext_getElem (by simp)
    intro j _ _
    simp only [getElem_mapIdx]
    exact if_congr (by simp only [and_true]; omega) rfl rfl
  induction list with
  | nil => exact fun x _ => rest _ x
  | t => exact fun x _ => rest _ x
  | cons low high list ih =>
    intro n x ordered
    obtain ⟨nonneg, below, wide, others⟩ := ordered
    simp only [invertLoop, convertLoop_eq ucd sign (show -1 ≤ low by omega),
      skipLoop_eq (show -1 ≤ high by omega)]
    generalize stop : min (min n (low + 1).toNat) (high + 1).toNat = i
    have step : (if i = 0 then x.mapIdx fun j c => if low < j ∧ j < n then convert ucd sign c else c
        else invertLoop ucd sign list i
          (x.mapIdx fun j c => if low < j ∧ j < n then convert ucd sign c else c)) =
        (x.mapIdx fun j c => if low < j ∧ j < n then convert ucd sign c else c).mapIdx fun j c =>
          if j < i ∧ list.skips j = false then convert ucd sign c else c := by
      split
      · apply ext_getElem (by simp)
        intro j _ _
        have below : ¬ (j < i ∧ list.skips j = false) := by omega
        simp only [getElem_mapIdx, if_neg below]
      · exact ih _ (others.mono (by omega))
    rw [step]
    apply ext_getElem (by simp)
    intro j _ _
    simp only [getElem_mapIdx]
    have bound : list.skips j = true → j ≤ low.toNat := others.skips_le
    simp only [EscapeList.skips, Bool.or_eq_false_iff, Bool.and_eq_false_imp, decide_eq_true_iff,
      beq_eq_false_iff_ne]
    by_cases above : low < j
    · have unskipped : list.skips j = false := by
        cases same : list.skips j with
        | false => rfl
        | true => have := bound same; omega
      rw [if_neg (show ¬ (j < i ∧ list.skips j = false) by omega)]
      exact if_congr
        ⟨fun both => ⟨both.2, fun _ => by omega, unskipped⟩, fun both => ⟨above, both.1⟩⟩
        rfl rfl
    · rw [if_neg (show ¬ (low < j ∧ j < n) by omega)]
      refine if_congr ⟨fun both => ⟨by omega, fun _ => by omega, both.2⟩, ?_⟩ rfl rfl
      rintro ⟨inside, apart, unskipped⟩
      refine ⟨?_, unskipped⟩
      by_cases here : low = j
      · have wideEnough : ¬ high < low := fun short => apart short here
        omega
      · omega

/-- The intervals of pieces whose first character is at the given index, after those of a
list. -/
def escapes : Nat → EscapeList → List Piece → EscapeList
  | _, list, [] => list
  | i, list, .bare _ :: pieces => escapes (i + 1) list pieces
  | i, list, .single _ _ :: pieces => escapes (i + 1) (.cons i i list) pieces
  | i, list, .multiple _ inners _ :: pieces =>
    escapes (i + inners.length) (.cons i ((i + inners.length : Nat) - 1) list) pieces

theorem skips_escapes_of_lt {j : Nat} (pieces : List Piece) :
    ∀ {i : Nat} (list : EscapeList), j < i → (escapes i list pieces).skips j = list.skips j := by
  induction pieces with
  | nil => exact fun list _ => rfl
  | cons p pieces ih =>
    intro i list before
    cases p with
    | bare c => exact ih list (by omega)
    | single mark c =>
      rw [escapes, ih _ (by omega), EscapeList.skips]
      simp
    | multiple first inners last =>
      rw [escapes, ih _ (by omega), EscapeList.skips, Bool.or_eq_right_iff_imp]
      simp only [Bool.and_eq_true, beq_iff_eq]
      omega

theorem ordered_escapes (pieces : List Piece) :
    ∀ {i : Nat} {list : EscapeList}, list.Ordered i → ∀ (after : Bool),
      (escapes i list pieces).Ordered (i + (marks after pieces).length) := by
  induction pieces with
  | nil => exact fun ordered _ => ordered
  | cons p pieces ih =>
    intro i list ordered after
    cases p with
    | bare c =>
      have others := ih (ordered.mono (le_succ i)) false
      rwa [marks, length_cons, add_comm _ 1, ← add_assoc]
    | single mark c =>
      have next : (EscapeList.cons i i list).Ordered (i + 1) :=
        ⟨by omega, by omega, by omega, by simpa using ordered⟩
      have others := ih next false
      rwa [marks, length_cons, add_comm _ 1, ← add_assoc]
    | multiple first inners last =>
      have next : (EscapeList.cons i ((i + inners.length : Nat) - 1) list).Ordered
          (i + inners.length) := ⟨by omega, by omega, by omega, by simpa using ordered⟩
      cases inners with
      | nil => exact ih next true
      | cons inner inners =>
        have others := ih next false
        simp only [marks, cons_append, length_cons, length_append,
          length_map]
        rwa [show i + (inners.length + (marks false pieces).length + 1) =
          i + (inner :: inners).length + (marks false pieces).length by
            rw [length_cons]; omega]

theorem mapIdx_unskipped {α β : Type} {f : Nat → α → β} {g : α → β} {xs : List α}
    (same : ∀ j, j < xs.length → ∀ x, f j x = g x) : xs.mapIdx f = xs.map g := by
  apply ext_getElem (by simp)
  intro j inside _
  rw [getElem_mapIdx, getElem_map, same j (by simpa using inside)]

/-- The characters that are skipped are those after multiple escapes with nothing between
them. -/
theorem mapIdx_escapes (f : Nat → Nat) (pieces : List Piece) :
    ∀ {i : Nat} {list : EscapeList} {after : Bool},
      (∀ k, list.skips (i + k) = (after && k == 0)) →
      (((marks after pieces).map Mark.char).mapIdx fun k c =>
        bif (escapes i list pieces).skips (i + k) then c else f c) =
        (marks after pieces).map fun m => bif m.afterEmpty then m.char else f m.char := by
  induction pieces with
  | nil => exact fun _ => rfl
  | cons p pieces ih =>
    intro i list after skipped
    have here : list.skips i = after := by simpa using skipped 0
    have later (k : Nat) : list.skips (i + (k + 1)) = false := by
      rw [skipped]
      exact Bool.and_false after
    have shift (k n : Nat) : i + (k + n) = i + n + k := by omega
    cases p with
    | bare c =>
      have others := @ih (i + 1) list false fun k => by rw [← shift, later]; rfl
      simp only [marks, map_cons, mapIdx_cons, escapes, add_zero,
        skips_escapes_of_lt pieces list (lt_succ_self i), here, ← others, shift]
    | single mark c =>
      have same (j : Nat) : (EscapeList.cons i i list).skips j = list.skips j := by
        simp [EscapeList.skips]
      have others := @ih (i + 1) (.cons i i list) false fun k => by
        rw [same, ← shift, later]
        rfl
      simp only [marks, map_cons, mapIdx_cons, escapes, add_zero,
        skips_escapes_of_lt pieces _ (lt_succ_self i), same, here, ← others, shift]
    | multiple first inners last =>
      cases inners with
      | nil =>
        exact @ih i (.cons i ((i + 0 : Nat) - 1) list) true fun k => by
          rw [EscapeList.skips, skipped]
          cases k with
          | zero => simp
          | succ k => simp; omega
      | cons inner inners =>
        have same (j : Nat) : (EscapeList.cons i ((i + (inners.length + 1) : Nat) - 1)
            list).skips j = list.skips j := by
          rw [EscapeList.skips, decide_eq_false (by omega), Bool.false_and, Bool.false_or]
        have others := @ih (i + (inners.length + 1))
          (.cons i ((i + (inners.length + 1) : Nat) - 1) list) false fun k => by
            rw [same, show i + (inners.length + 1) + k = i + (k + inners.length + 1) by omega,
              later]
            rfl
        have inside (j : Nat) (small : j < i + (inners.length + 1)) :
            (escapes (i + (inners.length + 1))
              (.cons i ((i + (inners.length + 1) : Nat) - 1) list) pieces).skips j =
              list.skips j := by
          rw [skips_escapes_of_lt pieces _ small, same]
        have unfolded : escapes i list (.multiple first (inner :: inners) last :: pieces) =
            escapes (i + (inners.length + 1))
              (.cons i ((i + (inners.length + 1) : Nat) - 1) list) pieces := rfl
        rw [unfolded]
        simp only [marks, cons_append, map_cons, map_append, mapIdx_cons,
          mapIdx_append, add_zero, length_map, map_map]
        rw [inside i (by omega), here, ← others]
        refine congrArg₂ List.cons rfl (congrArg₂ List.append ?_ ?_)
        · rw [mapIdx_unskipped]
          · rw [map_map]
            rfl
          · intro j small x
            rw [length_map] at small
            rw [inside _ (by omega), later]
            rfl
        · congr 1
          funext k c
          rw [show i + (k + inners.length + 1) = i + (inners.length + 1) + k by omega]

end Ecl.Text.Case
