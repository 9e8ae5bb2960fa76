import Mathlib.Data.List.Nodup
import Mathlib.Data.List.Perm.Basic

/- The order of two elements in a list without duplicates, as a sublist of
length two. -/
namespace Before

open List

variable {α : Type}

variable {c d : α} {l : List α}

theorem asymm (nodup : l.Nodup) (differ : c ≠ d) (first : [c, d].Sublist l) :
    ¬ [d, c].Sublist l := by
  induction l with
  | nil => cases first
  | cons e l ih =>
    obtain ⟨fresh, nodup⟩ := nodup_cons.mp nodup
    intro second
    cases first with
    | cons _ first =>
      cases second with
      | cons _ second => exact ih nodup first second
      | cons_cons _ second => exact fresh (first.subset (by simp))
    | cons_cons _ first =>
      cases second with
      | cons _ second => exact fresh (second.subset (by simp))
      | cons_cons _ second => exact differ rfl

theorem total (differ : c ≠ d) (memberC : c ∈ l) (memberD : d ∈ l) :
    [c, d].Sublist l ∨ [d, c].Sublist l := by
  induction l with
  | nil => cases memberC
  | cons e l ih =>
    rcases mem_cons.mp memberC with rfl | laterC
    · have laterD := (mem_cons.mp memberD).resolve_left (Ne.symm differ)
      exact .inl ((singleton_sublist.mpr laterD).cons_cons c)
    · rcases mem_cons.mp memberD with rfl | laterD
      · exact .inr ((singleton_sublist.mpr laterC).cons_cons d)
      · exact (ih laterC laterD).imp (·.cons e) (·.cons e)

theorem trans {b : α} (nodup : l.Nodup) (first : [b, c].Sublist l)
    (second : [c, d].Sublist l) : [b, d].Sublist l := by
  induction l with
  | nil => cases first
  | cons e l ih =>
    obtain ⟨fresh, nodup⟩ := nodup_cons.mp nodup
    cases first with
    | cons _ first =>
      cases second with
      | cons _ second => exact (ih nodup first second).cons e
      | cons_cons _ second => exact absurd (first.subset (by simp)) fresh
    | cons_cons _ first =>
      have memberD : d ∈ l := by
        cases second with
        | cons _ second => exact second.subset (by simp)
        | cons_cons _ second => exact second.subset (by simp)
      exact (singleton_sublist.mpr memberD).cons_cons b

theorem mem_tail_iff : c ∈ l.tail ↔ ∃ a, [a, c].Sublist l := by
  cases l with
  | nil => simp
  | cons x l =>
    constructor
    · exact fun member => ⟨x, (singleton_sublist.mpr member).cons_cons x⟩
    · rintro ⟨a, sub⟩
      cases sub with
      | cons _ sub => exact sub.subset (by simp)
      | cons_cons _ sub => exact sub.subset (by simp)

theorem filter_iff {p : α → Bool} {a : α} :
    [a, c].Sublist (l.filter p) ↔ [a, c].Sublist l ∧ p a = true ∧ p c = true := by
  constructor
  · intro sub
    exact ⟨sub.trans filter_sublist, (mem_filter.mp (sub.subset (by simp))).2,
      (mem_filter.mp (sub.subset (by simp))).2⟩
  · rintro ⟨sub, keepA, keepC⟩
    have filtered := sub.filter p
    simpa [keepA, keepC] using filtered

end Before

/- Lists in order that keep what is tied in the order of another list. -/
namespace Stable

open List

variable {α : Type}

/-- Neither of the two precedes the other. -/
def tied (lt : α → α → Bool) (x y : α) : Bool := !lt x y && !lt y x

/-- No element precedes an earlier one. -/
def Ordered (lt : α → α → Bool) (l : List α) : Prop := l.Pairwise fun x y => lt y x = false

/-- The elements of a list, in order, with tied elements as they were. -/
structure Sorted (lt : α → α → Bool) (l sorted : List α) : Prop where
  perm : sorted.Perm l
  ordered : Ordered lt sorted
  stable : ∀ x, sorted.filter (tied lt x) = l.filter (tied lt x)

variable {lt : α → α → Bool}

theorem tied_iff {x y : α} : tied lt x y = true ↔ lt x y = false ∧ lt y x = false := by
  simp [tied]

theorem tied_symm {x y : α} (tie : tied lt x y = true) : tied lt y x = true :=
  tied_iff.mpr (tied_iff.mp tie).symm

section Weak

variable [weak : IsStrictWeakOrder α (fun x y => lt x y = true)]

theorem lt_irrefl (x : α) : lt x x = false :=
  Bool.eq_false_iff.mpr (weak.irrefl x)

variable {x y z : α}

theorem lt_trans (first : lt x y = true) (second : lt y z = true) : lt x z = true :=
  weak.trans x y z first second

theorem lt_asymm (less : lt x y = true) : lt y x = false := by
  refine Bool.eq_false_iff.mpr fun greater => ?_
  have loop := lt_trans less greater
  have never : lt x x = false := lt_irrefl x
  rw [never] at loop
  cases loop

theorem tied_self (x : α) : tied lt x x = true := tied_iff.mpr ⟨lt_irrefl x, lt_irrefl x⟩

theorem tied_trans (first : tied lt x y = true) (second : tied lt y z = true) :
    tied lt x z = true := by
  simp only [tied_iff, ← Bool.not_eq_true] at first second ⊢
  exact weak.incomp_trans x y z first second

theorem lt_split (less : lt x z = true) (y : α) : lt x y = true ∨ lt y z = true := by
  by_contra neither
  simp only [not_or, Bool.not_eq_true] at neither
  have higher : lt y x = false := by
    refine Bool.eq_false_iff.mpr fun below => ?_
    have := lt_trans below less
    rw [neither.2] at this
    cases this
  have lower : lt z y = false := by
    refine Bool.eq_false_iff.mpr fun above => ?_
    have := lt_trans less above
    rw [neither.1] at this
    cases this
  have tie := tied_trans (tied_iff.mpr ⟨neither.1, higher⟩) (tied_iff.mpr ⟨neither.2, lower⟩)
  rw [(tied_iff.mp tie).1] at less
  cases less

variable {s : List α}

theorem ordered_unique : ∀ {s' : List α}, Ordered lt s → Ordered lt s' →
    (∀ x, s.filter (tied lt x) = s'.filter (tied lt x)) → s = s' := by
  have empty : ∀ {s' : List α}, (∀ x, ([] : List α) = s'.filter (tied lt x)) → s' = [] := by
    intro s' same
    refine eq_nil_iff_forall_not_mem.mpr fun x member => ?_
    have kept := mem_filter.mpr ⟨member, (tied_self x : tied lt x x = true)⟩
    rw [← same x] at kept
    cases kept
  induction s with
  | nil => exact fun _ _ same => (empty same).symm
  | cons a s ih =>
    intro s' ordered ordered' same
    cases s' with
    | nil => exact empty fun x => (same x).symm
    | cons b s' =>
      obtain ⟨first, rest⟩ := pairwise_cons.mp ordered
      obtain ⟨first', rest'⟩ := pairwise_cons.mp ordered'
      have inside : ∀ {x : α} {l l' : List α}, x ∈ l →
          l.filter (tied lt x) = l'.filter (tied lt x) → x ∈ l' := by
        intro x l l' member equal
        have kept := mem_filter.mpr ⟨member, (tied_self x : tied lt x x = true)⟩
        rw [equal] at kept
        exact (mem_filter.mp kept).1
      have notLess : lt a b = false := by
        rcases mem_cons.mp (inside mem_cons_self (same a)) with rfl | later
        · exact lt_irrefl a
        · exact first' a later
      have notGreater : lt b a = false := by
        rcases mem_cons.mp (inside mem_cons_self (same b).symm) with rfl | later
        · exact lt_irrefl b
        · exact first b later
      have heads := same a
      rw [filter_cons_of_pos (tied_self a),
        filter_cons_of_pos (tied_iff.mpr ⟨notLess, notGreater⟩)] at heads
      obtain ⟨rfl, -⟩ := List.cons.inj heads
      rw [ih rest rest' fun x => ?_]
      have next := same x
      by_cases tie : tied lt x a = true
      · rw [filter_cons_of_pos tie, filter_cons_of_pos tie] at next
        exact (List.cons.inj next).2
      · rw [filter_cons_of_neg tie, filter_cons_of_neg tie] at next
        exact next

variable {l : List α}

theorem Sorted.unique {s' : List α} (sorted : Sorted lt l s) (sorted' : Sorted lt l s') : s' = s :=
  ordered_unique sorted'.ordered sorted.ordered fun x =>
    (sorted'.stable x).trans (sorted.stable x).symm

theorem Sorted.of_ties_eq (equal : ∀ x ∈ l, ∀ y ∈ l, tied lt x y = true → x = y)
    (perm : s.Perm l) (ordered : Ordered lt s) : Sorted lt l s := by
  refine ⟨perm, ordered, fun x => ?_⟩
  have same := perm.filter (tied lt x)
  cases kept : l.filter (tied lt x) with
  | nil =>
    rw [kept] at same
    exact same.eq_nil
  | cons a rest =>
    have first := mem_filter.mp (kept ▸ mem_cons_self : a ∈ l.filter (tied lt x))
    have alike : ∀ y ∈ a :: rest, y = a := by
      intro y member
      rw [← kept] at member
      have second := mem_filter.mp member
      exact equal y second.1 a first.1 (tied_trans (tied_symm second.2) first.2)
    rw [kept] at same
    rw [eq_replicate_of_mem alike] at same ⊢
    exact perm_replicate.mp same

omit weak in
theorem Sorted.append {l' s' merged : List α} (left : Sorted lt l s) (right : Sorted lt l' s')
    (both : Sorted lt (s ++ s') merged) : Sorted lt (l ++ l') merged := by
  refine ⟨both.perm.trans (left.perm.append right.perm), both.ordered, fun x => ?_⟩
  rw [both.stable, filter_append, filter_append, left.stable, right.stable]

end Weak

end Stable
