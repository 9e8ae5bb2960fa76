import Mathlib.Data.List.Perm.Basic
import Mathlib.Data.List.Nodup
import Mathlib.Logic.Equiv.Basic

/- Selection sort by a test that may fail. -/
namespace Select

open List

variable {α ε : Type}

/-- One pass over the list: `replaces best x` tells whether `x` takes the place
of the best element so far. -/
def pick (replaces : α → α → Except ε Bool) (best : α) : List α → Except ε α
  | [] => .ok best
  | x :: rest =>
    match replaces best x with
    | .error e => .error e
    | .ok true => pick replaces x rest
    | .ok false => pick replaces best rest

/-- The test puts the pair in order: it returns, and does not prefer the greater
of the two. -/
def Right (replaces : α → α → Except ε Bool) (lt : α → α → Prop) (x y : α) : Prop :=
  ∃ answer, replaces x y = .ok answer ∧ (lt y x → answer = true) ∧ (lt x y → answer = false)

/-- No element is less than an earlier one. -/
def Ordered (lt : α → α → Prop) (l : List α) : Prop := l.Pairwise fun x y => ¬ lt y x

/-- A strict order of the elements of a list in which ties are transitive. -/
structure Weak (lt : α → α → Prop) (l : List α) : Prop where
  irrefl : ∀ x, ¬ lt x x
  split : ∀ {x y z}, x ∈ l → y ∈ l → z ∈ l → lt x z → lt x y ∨ lt y z

variable {replaces : α → α → Except ε Bool} {lt : α → α → Prop}

variable {l : List α}

theorem Weak.mono {l' : List α} (weak : Weak lt l) (subset : l' ⊆ l) : Weak lt l' :=
  ⟨weak.irrefl, fun memberX memberY memberZ =>
    weak.split (subset memberX) (subset memberY) (subset memberZ)⟩

variable {rest : List α}

theorem pick_mem :
    ∀ {best result : α}, pick replaces best rest = .ok result → result ∈ best :: rest := by
  induction rest with
  | nil =>
    intro best result returned
    cases returned
    exact mem_cons_self
  | cons x rest ih =>
    intro best result returned
    unfold pick at returned
    split at returned
    · cases returned
    · exact mem_cons_of_mem _ (ih returned)
    · rcases mem_cons.mp (ih returned) with same | member
      · exact same ▸ mem_cons_self
      · exact mem_cons_of_mem _ (mem_cons_of_mem _ member)

theorem pick_least (weak : Weak lt l) : ∀ {seen : List α} {best : α},
      (∀ x ∈ best :: rest, ∀ y ∈ rest, x ≠ y → Right replaces lt x y) →
      (best :: rest).Nodup → best :: rest ⊆ l → seen ⊆ l → (∀ x ∈ seen, ¬ lt x best) →
      ∃ result, pick replaces best rest = .ok result ∧
        ∀ x, x ∈ seen ∨ x ∈ rest → ¬ lt x result := by
  induction rest with
  | nil =>
    intro seen best _ _ _ _ least
    exact ⟨best, rfl, fun x member => least x (member.resolve_right not_mem_nil)⟩
  | cons y rest ih =>
    intro seen best right nodup inside insideSeen least
    obtain ⟨fresh, nodupRest⟩ := nodup_cons.mp nodup
    have differ : best ≠ y := fun same => fresh (same ▸ mem_cons_self)
    obtain ⟨answer, returned, less, greater⟩ :=
      right best mem_cons_self y mem_cons_self differ
    have later : ∀ x ∈ best :: y :: rest, ∀ z ∈ rest, x ≠ z → Right replaces lt x z :=
      fun x memberX z memberZ => right x memberX z (mem_cons_of_mem _ memberZ)
    have regroup : ∀ x, x ∈ seen ∨ x ∈ y :: rest → x ∈ y :: seen ∨ x ∈ rest := by
      intro x member
      simp only [mem_cons] at member ⊢
      tauto
    obtain ⟨insideBest, insideRest⟩ := cons_subset.mp inside
    obtain ⟨insideY, insideLater⟩ := cons_subset.mp insideRest
    have insideSeenY := cons_subset.mpr ⟨insideY, insideSeen⟩
    unfold pick
    rw [returned]
    cases answer with
    | true =>
      have leastY : ∀ x ∈ y :: seen, ¬ lt x y := by
        intro x member lessY
        rcases mem_cons.mp member with rfl | member
        · exact weak.irrefl x lessY
        · rcases weak.split (insideSeen member) insideBest insideY lessY with
            lessBest | bestLess
          · exact least x member lessBest
          · cases greater bestLess
      obtain ⟨result, picked, minimal⟩ :=
        ih (fun x member => later x (mem_cons_of_mem _ member)) nodupRest insideRest
          insideSeenY leastY
      exact ⟨result, picked, fun x member => minimal x (regroup x member)⟩
    | false =>
      have leastBest : ∀ x ∈ y :: seen, ¬ lt x best := by
        intro x member lessBest
        rcases mem_cons.mp member with rfl | member
        · cases less lessBest
        · exact least x member lessBest
      have nodupBest : (best :: rest).Nodup :=
        nodup_cons.mpr ⟨fun member => fresh (mem_cons_of_mem _ member),
          (nodup_cons.mp nodupRest).2⟩
      obtain ⟨result, picked, minimal⟩ := ih (fun x member => later x (by
        rcases mem_cons.mp member with rfl | member
        · exact mem_cons_self
        · exact mem_cons_of_mem _ (mem_cons_of_mem _ member))) nodupBest
        (cons_subset.mpr ⟨insideBest, insideLater⟩) insideSeenY leastBest
      exact ⟨result, picked, fun x member => minimal x (regroup x member)⟩

/-- A pass keeps neither the element it started from, once that was replaced,
nor the one that did not replace it. -/
theorem pick_skips {x y best : α} (nodup : (x :: y :: rest).Nodup) {answer : Bool}
    (answered : replaces x y = .ok answer) (picked : pick replaces x (y :: rest) = .ok best) :
    best ≠ if answer then x else y := by
  obtain ⟨freshX, nodupY⟩ := nodup_cons.mp nodup
  have freshY := (nodup_cons.mp nodupY).1
  unfold pick at picked
  rw [answered] at picked
  rintro rfl
  cases answer with
  | true => exact freshX (pick_mem picked)
  | false =>
    rcases mem_cons.mp (pick_mem picked) with same | member
    · exact freshX (same ▸ mem_cons_self)
    · exact freshY member

variable {replaces' : α → α → Except ε Bool}

theorem pick_congr : ∀ {best : α}, (∀ x ∈ best :: rest, ∀ y ∈ rest, replaces x y = replaces' x y) →
    pick replaces best rest = pick replaces' best rest := by
  induction rest with
  | nil => intros; rfl
  | cons y rest ih =>
    intro best same
    have fromY := ih fun x memberX z memberZ =>
      same x (mem_cons_of_mem _ memberX) z (mem_cons_of_mem _ memberZ)
    have fromBest : pick replaces best rest = pick replaces' best rest :=
      ih fun x memberX z memberZ => same x (by
        rcases mem_cons.mp memberX with rfl | memberX
        · exact mem_cons_self
        · exact mem_cons_of_mem _ (mem_cons_of_mem _ memberX)) z
        (mem_cons_of_mem _ memberZ)
    rw [pick, pick, same best mem_cons_self y mem_cons_self, fromY, fromBest]

variable [DecidableEq α]

theorem filter_ne_perm {best : α} (nodup : l.Nodup) (member : best ∈ l) :
    (best :: l.filter (· ≠ best)).Perm l := by
  have erased : l.filter (· ≠ best) = l.erase best := by
    rw [nodup.erase_eq_filter]
    refine filter_congr fun x _ => ?_
    by_cases same : x = best <;> simp [same]
  rw [erased]
  exact (perm_cons_erase member).symm

/-- Passes until at most one element is left. -/
def passes (replaces : α → α → Except ε Bool) : Nat → List α → Except ε (List α)
  | _, [] => .ok []
  | _, [x] => .ok [x]
  | 0, _ => .ok []
  | n + 1, x :: y :: rest =>
    match pick replaces x (y :: rest) with
    | .error e => .error e
    | .ok best =>
      match passes replaces n ((x :: y :: rest).filter (· ≠ best)) with
      | .error e => .error e
      | .ok sorted => .ok (best :: sorted)

/-- The whole sort. -/
def select (replaces : α → α → Except ε Bool) (l : List α) : Except ε (List α) :=
  passes replaces l.length l

/-- When the test puts every pair in order, the sort returns an ordered
permutation. -/
theorem passes_ordered : ∀ (n : Nat) {l : List α}, Weak lt l → l.length ≤ n → l.Nodup →
      (∀ x ∈ l, ∀ y ∈ l, x ≠ y → Right replaces lt x y) →
      ∃ sorted, passes replaces n l = .ok sorted ∧ sorted.Perm l ∧ Ordered lt sorted := by
  intro n
  induction n with
  | zero =>
    intro l _ bound _ _
    cases eq_nil_of_length_eq_zero (Nat.le_zero.mp bound)
    exact ⟨[], rfl, .refl _, List.Pairwise.nil⟩
  | succ n ih =>
    intro l weak bound nodup right
    match l, weak, bound, nodup, right with
    | [], _, _, _, _ => exact ⟨[], rfl, .refl _, List.Pairwise.nil⟩
    | [x], _, _, _, _ => exact ⟨[x], rfl, .refl _, pairwise_singleton _ _⟩
    | x :: y :: rest, weak, bound, nodup, right =>
      have least : ∀ z ∈ [x], ¬ lt z x := by simpa using weak.irrefl x
      obtain ⟨best, picked, least⟩ := pick_least weak
        (fun a memberA b memberB => right a memberA b (mem_cons_of_mem _ memberB)) nodup
        (List.Subset.refl _) (by simp) least
      have member := pick_mem picked
      have perm := filter_ne_perm nodup member
      have shorter : ((x :: y :: rest).filter (· ≠ best)).length ≤ n := by
        have := perm.length_eq
        simp only [length_cons] at this bound ⊢
        omega
      obtain ⟨sorted, returned, permSorted, ordered⟩ := ih
        (weak.mono (filter_subset_self _)) shorter (nodup.filter _)
        fun a memberA b memberB =>
          right a (mem_filter.mp memberA).1 b (mem_filter.mp memberB).1
      refine ⟨best :: sorted, ?_, (permSorted.cons best).trans perm, ?_⟩
      · rw [passes, picked]
        dsimp only
        rw [returned]
      · refine pairwise_cons.mpr ⟨fun a memberA => ?_, ordered⟩
        have memberA := (mem_filter.mp (permSorted.mem_iff.mp memberA)).1
        exact least a (by simpa [mem_cons, or_assoc] using memberA)

theorem passes_first_two (n : Nat) : ∀ {x y : α} {rest sorted : List α} {answer : Bool},
    (x :: y :: rest).length ≤ n → (x :: y :: rest).Nodup → replaces x y = .ok answer →
    passes replaces n (x :: y :: rest) = .ok sorted → (∀ z ∈ x :: y :: rest, z ∈ sorted) →
    ∃ before after, sorted = before ++ (if answer then y else x) :: after ∧
      (if answer then x else y) ∈ after := by
  induction n with
  | zero =>
    intro x y rest sorted answer bound
    simp at bound
  | succ n ih =>
    intro x y rest sorted answer bound nodup answered returned complete
    unfold passes at returned
    split at returned
    · cases returned
    · rename_i best picked
      have skipped := pick_skips nodup answered picked
      split at returned
      · cases returned
      · rename_i tail passed
        cases returned
        by_cases chosen : best = if answer then y else x
        · refine ⟨[], tail, by rw [chosen]; rfl, ?_⟩
          have member := complete (if answer then x else y) (by cases answer <;> simp)
          exact (mem_cons.mp member).resolve_left (Ne.symm skipped)
        · have keepX : x ≠ best := by
            rintro rfl
            cases answer
            · exact chosen rfl
            · exact skipped rfl
          have keepY : y ≠ best := by
            rintro rfl
            cases answer
            · exact skipped rfl
            · exact chosen rfl
          have kept : (x :: y :: rest).filter (· ≠ best) =
              x :: y :: rest.filter (· ≠ best) := by
            simp [keepX, keepY]
          have shorter := (filter_ne_perm nodup (pick_mem picked)).length_eq
          rw [kept] at passed shorter
          obtain ⟨before, after, split, member⟩ := ih
            (by simp only [length_cons] at shorter bound ⊢; omega)
            (kept ▸ nodup.filter _) answered passed (by
              intro z memberZ
              rw [← kept] at memberZ
              obtain ⟨inside, differ⟩ := mem_filter.mp memberZ
              exact (mem_cons.mp (complete z inside)).resolve_left (by simpa using differ))
          exact ⟨best :: before, after, by rw [split]; rfl, member⟩

/-- The sort orders every arrangement of a list exactly when the test puts every
pair of its elements in order. -/
theorem select_ordered_iff (weak : Weak lt l) (nodup : l.Nodup) :
    (∀ arranged : List α, arranged.Perm l → ∃ sorted, select replaces arranged = .ok sorted ∧
      sorted.Perm l ∧ Ordered lt sorted) ↔
      ∀ x ∈ l, ∀ y ∈ l, x ≠ y → Right replaces lt x y := by
  constructor
  · intro sorts x memberX y memberY differ
    have memberY' : y ∈ l.erase x := (mem_erase_of_ne (Ne.symm differ)).mpr memberY
    have perm : (x :: y :: (l.erase x).erase y).Perm l :=
      ((perm_cons_erase memberY').symm.cons x).trans (perm_cons_erase memberX).symm
    have nodup' := perm.nodup_iff.mpr nodup
    obtain ⟨sorted, returned, permSorted, ordered⟩ := sorts _ perm
    cases answered : replaces x y with
    | error e => simp [select, passes, pick, answered] at returned
    | ok answer =>
      obtain ⟨before, after, rfl, member⟩ :=
        passes_first_two _ (Nat.le_refl _) nodup' answered returned
        fun z memberZ => permSorted.mem_iff.mpr (perm.mem_iff.mp memberZ)
      have notLess := (pairwise_cons.mp (pairwise_append.mp ordered).2.1).1 _ member
      refine ⟨answer, answered, fun less => ?_, fun less => ?_⟩
      · cases answer
        · exact absurd less notLess
        · rfl
      · cases answer
        · rfl
        · exact absurd less notLess
  · intro right arranged perm
    obtain ⟨sorted, returned, permSorted, ordered⟩ := passes_ordered arranged.length
      (weak.mono perm.subset) (Nat.le_refl _) (perm.nodup_iff.mpr nodup)
      fun x memberX y memberY => right x (perm.mem_iff.mp memberX) y (perm.mem_iff.mp memberY)
    exact ⟨sorted, returned, permSorted.trans perm, ordered⟩

omit [DecidableEq α] in
theorem pick_stays {best : α} (stays : ∀ x ∈ rest, replaces best x = .ok false) :
    pick replaces best rest = .ok best := by
  induction rest with
  | nil => rfl
  | cons x rest ih =>
    rw [pick, stays x mem_cons_self]
    exact ih fun y member => stays y (mem_cons_of_mem _ member)

theorem select_stays (nodup : l.Nodup) (stays : l.Pairwise fun x y => replaces x y = .ok false) :
    select replaces l = .ok l := by
  unfold select
  generalize length : l.length = n
  induction n generalizing l with
  | zero =>
    cases eq_nil_of_length_eq_zero length
    rfl
  | succ n ih =>
    match l, nodup, stays, length with
    | [x], _, _, _ => rfl
    | x :: y :: rest, nodup, stays, length =>
      obtain ⟨first, later⟩ := pairwise_cons.mp stays
      obtain ⟨fresh, nodupRest⟩ := nodup_cons.mp nodup
      have left : (x :: y :: rest).filter (· ≠ x) = y :: rest := by
        rw [filter_cons_of_neg (by simp), filter_eq_self]
        intro z member
        exact decide_eq_true fun same => fresh (same ▸ member)
      rw [passes, pick_stays first]
      dsimp only
      rw [left, ih nodupRest later (by simpa using length)]

theorem map_swap_perm {x y : α} (nodup : l.Nodup) (memberX : x ∈ l) (memberY : y ∈ l) :
    (l.map (Equiv.swap x y)).Perm l := by
  have inside : l.map (Equiv.swap x y) ⊆ l := by
    intro z member
    obtain ⟨w, memberW, rfl⟩ := mem_map.mp member
    rw [Equiv.swap_apply_def]
    split_ifs
    · exact memberY
    · exact memberX
    · exact memberW
  exact (subperm_of_subset (nodup.map (Equiv.injective _)) inside).perm_of_length_le
    (Nat.le_of_eq (length_map _).symm)

theorem passes_congr (n : Nat) : ∀ {l : List α}, (∀ x ∈ l, ∀ y ∈ l, replaces x y = replaces' x y) →
    passes replaces n l = passes replaces' n l := by
  induction n with
  | zero =>
    intro l _
    match l with
    | [] => rfl
    | [x] => rfl
    | x :: y :: rest => rfl
  | succ n ih =>
    intro l same
    match l, same with
    | [], _ => rfl
    | [x], _ => rfl
    | x :: y :: rest, same =>
      have picked : pick replaces x (y :: rest) = pick replaces' x (y :: rest) :=
        pick_congr fun a memberA b memberB => same a memberA b (mem_cons_of_mem _ memberB)
      rw [passes, passes, picked]
      split
      · rfl
      · rw [ih fun a memberA b memberB =>
          same a (mem_filter.mp memberA).1 b (mem_filter.mp memberB).1]

theorem select_congr (same : ∀ x ∈ l, ∀ y ∈ l, replaces x y = replaces' x y) :
    select replaces l = select replaces' l :=
  passes_congr l.length same

end Select
