import Ecl.Sequences.Reduce

/- MISMATCH and SEARCH within bounds that are accepted. -/
namespace Ecl.Sequences

variable {α κ : Type}

section

variable (tests : Tests κ) (key : α → κ) (l1 l2 : List α)

/-- The elements with two indices match. -/
def agree (i1 i2 : Nat) : Bool :=
  match l1[i1]?, l2[i2]? with
  | some x, some y => tests.compare (key x) (key y)
  | _, _ => false

/-- As many elements match, from two indices on. -/
def Occurs (i1 i2 n : Nat) : Prop := ∀ k, k < n → agree tests key l1 l2 (i1 + k) (i2 + k) = true

/-- A subsequence of the second sequence begins at an index and ends before the bound. -/
structure Occurrence (start1 end1 start2 end2 i : Nat) : Prop where
  low : start2 ≤ i
  high : i + (end1 - start1) ≤ end2
  occurs : Occurs tests key l1 l2 start1 i (end1 - start1)

end

variable {tests : Tests κ} {key : α → κ} {l1 l2 : List α}

theorem same_eq {i1 i2 : Nat} (inside1 : i1 < l1.length) (inside2 : i2 < l2.length) :
    same tests key l1 l2 i1 i2 = .ok (agree tests key l1 l2 i1 i2) := by
  rw [same, elt_eq inside1, elt_eq inside2, agree, List.getElem?_eq_getElem inside1,
    List.getElem?_eq_getElem inside2]
  rfl

theorem occurs_zero (i1 i2 : Nat) : Occurs tests key l1 l2 i1 i2 0 :=
  fun _ before => absurd before (Nat.not_lt_zero _)

theorem occurs_cons (i1 i2 n : Nat) :
    Occurs tests key l1 l2 i1 i2 (n + 1) ↔
      agree tests key l1 l2 i1 i2 = true ∧ Occurs tests key l1 l2 (i1 + 1) (i2 + 1) n := by
  constructor
  · intro occurs
    refine ⟨occurs 0 (Nat.succ_pos n), fun k before => ?_⟩
    have here := occurs (k + 1) (by omega)
    rwa [show i1 + (k + 1) = i1 + 1 + k by omega, show i2 + (k + 1) = i2 + 1 + k by omega] at here
  · rintro ⟨first, rest⟩ k before
    cases k with
    | zero => exact first
    | succ k =>
      rw [show i1 + (k + 1) = i1 + 1 + k by omega, show i2 + (k + 1) = i2 + 1 + k by omega]
      exact rest k (by omega)

theorem occurs_concat (i1 i2 n : Nat) :
    Occurs tests key l1 l2 i1 i2 (n + 1) ↔
      Occurs tests key l1 l2 i1 i2 n ∧ agree tests key l1 l2 (i1 + n) (i2 + n) = true := by
  constructor
  · intro occurs
    exact ⟨fun k before => occurs k (by omega), occurs n (Nat.lt_succ_self n)⟩
  · rintro ⟨front, last⟩ k before
    rcases Nat.lt_succ_iff_lt_or_eq.mp before with before | rfl
    · exact front k before
    · exact last

variable {end1 end2 : Nat}

/-- What the inner loop of SEARCH says of the elements that remain, from two indices on. -/
theorem attemptUp_spec (start2 : Nat) (inside1 : end1 ≤ l1.length)
    (inside2 : end2 ≤ l2.length) {i1 i2 : Nat} (before : i2 ≤ end2) :
    ∃ attempt, attemptUp tests key l1 l2 end1 end2 start2 i1 i2 = .ok attempt ∧
      match attempt with
      | .found i => i = start2 ∧ i2 + (end1 - i1) ≤ end2 ∧ Occurs tests key l1 l2 i1 i2 (end1 - i1)
      | .exhausted => end2 < i2 + (end1 - i1)
      | .differs => ¬Occurs tests key l1 l2 i1 i2 (end1 - i1) := by
  induction left : end1 - i1 generalizing i1 i2 with
  | zero =>
    rw [attemptUp, if_pos (by omega)]
    exact ⟨_, rfl, rfl, by omega, occurs_zero i1 i2⟩
  | succ n ih =>
    rw [attemptUp, if_neg (by omega)]
    by_cases exhausted : end2 ≤ i2
    · rw [if_pos exhausted]
      exact ⟨_, rfl, show end2 < i2 + (n + 1) by omega⟩
    · rw [if_neg exhausted, same_eq (by omega) (by omega), Lib.ok_bind]
      by_cases here : agree tests key l1 l2 i1 i2 = true
      · rw [if_pos here]
        obtain ⟨attempt, run, law⟩ := @ih (i1 + 1) (i2 + 1) (by omega) (by omega)
        refine ⟨attempt, run, ?_⟩
        cases attempt with
        | found i =>
            exact ⟨law.1, by have := law.2.1; omega, (occurs_cons i1 i2 n).mpr ⟨here, law.2.2⟩⟩
        | exhausted => exact show end2 < i2 + (n + 1) by have : end2 < i2 + 1 + n := law; omega
        | differs => exact fun occurs => law ((occurs_cons i1 i2 n).mp occurs).2
      · rw [if_neg here]
        exact ⟨_, rfl, fun occurs => here ((occurs_cons i1 i2 n).mp occurs).1⟩

variable {start1 start2 : Nat}

theorem attemptDown_spec {i1 i2 : Nat} (inside1 : i1 ≤ l1.length)
    (inside2 : i2 ≤ l2.length) (behind : start2 ≤ i2) :
    ∃ attempt, attemptDown tests key l1 l2 start1 start2 i1 i2 = .ok attempt ∧
      match attempt with
      | .found i =>
          i + (i1 - start1) = i2 ∧ start2 ≤ i ∧ Occurs tests key l1 l2 start1 i (i1 - start1)
      | .exhausted => i2 < start2 + (i1 - start1)
      | .differs =>
          ∀ i, i + (i1 - start1) = i2 → ¬Occurs tests key l1 l2 start1 i (i1 - start1) := by
  induction left : i1 - start1 generalizing i1 i2 with
  | zero =>
    rw [attemptDown, if_pos (by omega)]
    exact ⟨_, rfl, rfl, behind, occurs_zero start1 i2⟩
  | succ n ih =>
    rw [attemptDown, if_neg (by omega)]
    by_cases exhausted : i2 ≤ start2
    · rw [if_pos exhausted]
      exact ⟨_, rfl, show i2 < start2 + (n + 1) by omega⟩
    · rw [if_neg exhausted, same_eq (by omega) (by omega), Lib.ok_bind]
      have place : i1 - 1 = start1 + n := by omega
      by_cases here : agree tests key l1 l2 (i1 - 1) (i2 - 1) = true
      · rw [if_pos here]
        obtain ⟨attempt, run, law⟩ := @ih (i1 - 1) (i2 - 1) (by omega) (by omega)
          (by omega) (by omega)
        refine ⟨attempt, run, ?_⟩
        cases attempt with
        | found i =>
          obtain ⟨ends, low, occurs⟩ := law
          rw [place, show i2 - 1 = i + n by omega] at here
          exact ⟨by omega, low, (occurs_concat start1 i n).mpr ⟨occurs, here⟩⟩
        | exhausted => exact show i2 < start2 + (n + 1) by have : i2 - 1 < start2 + n := law; omega
        | differs =>
          exact fun i ends occurs => law i (by omega) ((occurs_concat start1 i n).mp occurs).1
      · rw [if_neg here]
        refine ⟨_, rfl, fun i ends occurs => here ?_⟩
        rw [place, show i2 - 1 = i + n by omega]
        exact ((occurs_concat start1 i n).mp occurs).2

/-- The result of a search: the first occurrence, or the last one from the end. -/
structure Sought (tests : Tests κ) (key : α → κ) (l1 l2 : List α) (fromEnd : Bool)
    (start1 end1 start2 end2 : Nat) (result : Option Nat) : Prop where
  occurrence : ∀ i, result = some i → Occurrence tests key l1 l2 start1 end1 start2 end2 i
  extreme : ∀ i, result = some i →
    ∀ other, Occurrence tests key l1 l2 start1 end1 start2 end2 other →
    if fromEnd then other ≤ i else i ≤ other
  absent : result = none → ∀ i, ¬Occurrence tests key l1 l2 start1 end1 start2 end2 i

theorem searchUp_sought (inside1 : end1 ≤ l1.length) (inside2 : end2 ≤ l2.length)
    (before : start2 ≤ end2) :
    ∃ result, searchUp tests key l1 l2 start1 end1 start2 end2 = .ok result ∧
      Sought tests key l1 l2 false start1 end1 start2 end2 result := by
  induction left : end2 - start2 using Nat.strongRecOn generalizing start2 with
  | ind left ih =>
    obtain ⟨attempt, run, law⟩ :=
      @attemptUp_spec _ _ tests key _ _ _ _ start2 inside1 inside2 start1 _ before
    rw [searchUp]
    split
    · rename_i failed
      rw [run] at failed
      cases failed
    · rename_i i found
      rw [run] at found
      cases found
      obtain ⟨rfl, fits, occurs⟩ := law
      refine ⟨_, rfl, fun i given => ?_, fun i given other occurrence => ?_,
        fun never => by cases never⟩
      · cases given
        exact ⟨Nat.le_refl _, fits, occurs⟩
      · cases given
        exact occurrence.low
    · rename_i exhausted
      rw [run] at exhausted
      cases exhausted
      have short : end2 < start2 + (end1 - start1) := law
      refine ⟨_, rfl, (fun i never => by cases never), (fun i never => by cases never),
        fun _ i occurrence => ?_⟩
      have low := occurrence.low
      have high := occurrence.high
      omega
    · rename_i differs
      have inside := attemptUp_end tests key l1 l2 differs
      rw [run] at differs
      cases differs
      obtain ⟨result, rest, sought⟩ := ih (end2 - (start2 + 1)) (by omega) (by omega) rfl
      -- No occurrence begins where the elements differ.
      have later (i : Nat) (occurrence : Occurrence tests key l1 l2 start1 end1 start2 end2 i) :
          Occurrence tests key l1 l2 start1 end1 (start2 + 1) end2 i := by
        rcases Nat.eq_or_lt_of_le occurrence.low with rfl | low
        · exact absurd occurrence.occurs law
        · exact ⟨low, occurrence.high, occurrence.occurs⟩
      refine ⟨result, rest, fun i given => ?_, fun i given other occurrence => ?_,
        fun none i occurrence => ?_⟩
      · have occurrence := sought.occurrence i given
        exact ⟨by have := occurrence.low; omega, occurrence.high, occurrence.occurs⟩
      · exact sought.extreme i given other (later other occurrence)
      · exact sought.absent none i (later i occurrence)

theorem searchDown_sought (inside1 : end1 ≤ l1.length) (inside2 : end2 ≤ l2.length)
    (before : start2 ≤ end2) :
    ∃ result, searchDown tests key l1 l2 start1 end1 start2 end2 = .ok result ∧
      Sought tests key l1 l2 true start1 end1 start2 end2 result := by
  induction end2 using Nat.strongRecOn with
  | ind end2 ih =>
    obtain ⟨attempt, run, law⟩ :=
      @attemptDown_spec _ _ tests key _ _ start1 _ _ _ inside1 inside2 before
    rw [searchDown]
    split
    · rename_i failed
      rw [run] at failed
      cases failed
    · rename_i i found
      rw [run] at found
      cases found
      obtain ⟨ends, low, occurs⟩ := law
      refine ⟨_, rfl, fun i given => ?_, fun i given other occurrence => ?_,
        fun never => by cases never⟩
      · cases given
        exact ⟨low, by omega, occurs⟩
      · cases given
        have high := occurrence.high
        exact show other ≤ _ by omega
    · rename_i exhausted
      rw [run] at exhausted
      cases exhausted
      have short : end2 < start2 + (end1 - start1) := law
      refine ⟨_, rfl, (fun i never => by cases never), (fun i never => by cases never),
        fun _ i occurrence => ?_⟩
      have low := occurrence.low
      have high := occurrence.high
      omega
    · rename_i differs
      have inside := attemptDown_end tests key l1 l2 differs
      rw [run] at differs
      cases differs
      obtain ⟨result, rest, sought⟩ := ih (end2 - 1) (by omega) (by omega) (by omega)
      have earlier (i : Nat) (occurrence : Occurrence tests key l1 l2 start1 end1 start2 end2 i) :
          Occurrence tests key l1 l2 start1 end1 start2 (end2 - 1) i := by
        have high := occurrence.high
        by_cases last : i + (end1 - start1) = end2
        · exact absurd occurrence.occurs (law i last)
        · exact ⟨occurrence.low, by omega, occurrence.occurs⟩
      refine ⟨result, rest, fun i given => ?_, fun i given other occurrence => ?_,
        fun none i occurrence => ?_⟩
      · have occurrence := sought.occurrence i given
        exact ⟨occurrence.low, by have := occurrence.high; omega, occurrence.occurs⟩
      · exact sought.extreme i given other (earlier other occurrence)
      · exact sought.absent none i (earlier i occurrence)

/-- A length up to which two subsequences match at their beginning, or at their end. -/
def Agreed (tests : Tests κ) (key : α → κ) (l1 l2 : List α) (fromEnd : Bool)
    (start1 end1 start2 end2 p : Nat) : Prop :=
  p ≤ end1 - start1 ∧ p ≤ end2 - start2 ∧
    if fromEnd then Occurs tests key l1 l2 (end1 - p) (end2 - p) p
    else Occurs tests key l1 l2 start1 start2 p

/-- The result of MISMATCH: where the longest part that matches ends. -/
structure Compared (tests : Tests κ) (key : α → κ) (l1 l2 : List α) (fromEnd : Bool)
    (start1 end1 start2 end2 : Nat) (result : Option Nat) : Prop where
  equal : result = none ↔ end1 - start1 = end2 - start2 ∧
    Occurs tests key l1 l2 start1 start2 (end1 - start1)
  boundary : ∀ i, result = some i → ∃ p, Agreed tests key l1 l2 fromEnd start1 end1 start2 end2 p ∧
    (∀ q, Agreed tests key l1 l2 fromEnd start1 end1 start2 end2 q → q ≤ p) ∧
    if fromEnd then i + p = end1 else i = start1 + p

theorem Compared.exhausted {fromEnd : Bool} (order1 : start1 ≤ end1)
    (order2 : start2 ≤ end2) (done : end1 ≤ start1 ∨ end2 ≤ start2) :
    Compared tests key l1 l2 fromEnd start1 end1 start2 end2
      (if end1 ≤ start1 ∧
        end2 ≤ start2 then none else some (if fromEnd then end1 else start1)) := by
  by_cases both : end1 ≤ start1 ∧ end2 ≤ start2
  · rw [if_pos both, show end1 = start1 by omega, show end2 = start2 by omega]
    refine ⟨iff_of_true rfl ⟨by omega, ?_⟩, fun i never => by cases never⟩
    rw [Nat.sub_self]
    exact occurs_zero start1 start2
  · rw [if_neg both]
    refine ⟨iff_of_false (Option.some_ne_none _) (by omega), fun i given => ?_⟩
    cases given
    refine ⟨0, ⟨Nat.zero_le _, Nat.zero_le _, ?_⟩, fun q agreed => ?_, ?_⟩
    · split
      · exact occurs_zero _ _
      · exact occurs_zero _ _
    · have short1 := agreed.1
      have short2 := agreed.2.1
      omega
    · cases fromEnd <;> rfl

theorem Compared.differs {fromEnd : Bool}
    (differs : ∀ q, ¬Agreed tests key l1 l2 fromEnd start1 end1 start2 end2 (q + 1))
    (unequal : end1 - start1 = end2 - start2 →
      ¬Occurs tests key l1 l2 start1 start2 (end1 - start1)) :
    Compared tests key l1 l2 fromEnd start1 end1 start2 end2
      (some (if fromEnd then end1 else start1)) := by
  refine ⟨iff_of_false (Option.some_ne_none _) fun equal => unequal equal.1 equal.2,
    fun i given => ?_⟩
  cases given
  refine ⟨0, ⟨Nat.zero_le _, Nat.zero_le _, ?_⟩, fun q agreed => ?_, ?_⟩
  · split
    · exact occurs_zero _ _
    · exact occurs_zero _ _
  · cases q with
    | zero => exact Nat.le_refl 0
    | succ q => exact absurd agreed (differs q)
  · cases fromEnd <;> rfl

theorem mismatchUp_compared (inside1 : end1 ≤ l1.length) (inside2 : end2 ≤ l2.length)
    {i1 i2 : Nat} (before1 : i1 ≤ end1) (before2 : i2 ≤ end2) :
    ∃ result, mismatchUp tests key l1 l2 end1 end2 i1 i2 = .ok result ∧
      Compared tests key l1 l2 false i1 end1 i2 end2 result := by
  induction left : end1 - i1 generalizing i1 i2 with
  | zero =>
    rw [mismatchUp, if_pos (.inl (by omega))]
    exact ⟨_, rfl, .exhausted before1 before2 (.inl (by omega))⟩
  | succ n ih =>
    by_cases out : end2 ≤ i2
    · rw [mismatchUp, if_pos (.inr out)]
      exact ⟨_, rfl, .exhausted before1 before2 (.inr out)⟩
    · rw [mismatchUp, if_neg (by omega), same_eq (by omega) (by omega), Lib.ok_bind]
      by_cases here : agree tests key l1 l2 i1 i2 = true
      · rw [if_pos here]
        obtain ⟨result, run, compared⟩ := @ih (i1 + 1) (i2 + 1) (by omega) (by omega) (by omega)
        refine ⟨result, run, ?_, fun i given => ?_⟩
        · rw [compared.equal, left, show end1 - (i1 + 1) = n by omega, occurs_cons]
          simp only [here, true_and]
          exact and_congr_left fun _ => by omega
        · obtain ⟨p, ⟨first, second, occurs⟩, longest, place⟩ := compared.boundary i given
          refine ⟨p + 1, ⟨by omega, by omega, (occurs_cons i1 i2 p).mpr ⟨here, occurs⟩⟩, ?_, ?_⟩
          · rintro q ⟨shorter1, shorter2, matched⟩
            cases q with
            | zero => omega
            | succ q =>
              have := longest q ⟨by omega, by omega, ((occurs_cons i1 i2 q).mp matched).2⟩
              omega
          · have place : i = i1 + 1 + p := place
            exact show i = i1 + (p + 1) by omega
      · rw [if_neg here]
        refine ⟨_, rfl, .differs (fun q agreed => ?_) fun _ occurs => ?_⟩
        · exact here ((occurs_cons i1 i2 q).mp agreed.2.2).1
        · rw [left, occurs_cons] at occurs
          exact here occurs.1

theorem mismatchDown_compared {i1 i2 : Nat} (inside1 : i1 ≤ l1.length)
    (inside2 : i2 ≤ l2.length) (behind1 : start1 ≤ i1) (behind2 : start2 ≤ i2) :
    ∃ result, mismatchDown tests key l1 l2 start1 start2 i1 i2 = .ok result ∧
      Compared tests key l1 l2 true start1 i1 start2 i2 result := by
  induction left : i1 - start1 generalizing i1 i2 with
  | zero =>
    rw [mismatchDown, if_pos (.inl (by omega))]
    exact ⟨_, rfl, .exhausted behind1 behind2 (.inl (by omega))⟩
  | succ n ih =>
    by_cases out : i2 ≤ start2
    · rw [mismatchDown, if_pos (.inr out)]
      exact ⟨_, rfl, .exhausted behind1 behind2 (.inr out)⟩
    · rw [mismatchDown, if_neg (by omega), same_eq (by omega) (by omega), Lib.ok_bind]
      -- The last element of a suffix is the one that is compared here.
      have top (q : Nat) (short1 : q + 1 ≤ i1) (short2 : q + 1 ≤ i2) :
          Occurs tests key l1 l2 (i1 - (q + 1)) (i2 - (q + 1)) (q + 1) ↔
            Occurs tests key l1 l2 (i1 - 1 - q) (i2 - 1 - q) q ∧
              agree tests key l1 l2 (i1 - 1) (i2 - 1) = true := by
        rw [occurs_concat, show i1 - (q + 1) + q = i1 - 1 by omega,
          show i2 - (q + 1) + q = i2 - 1 by omega, show i1 - (q + 1) = i1 - 1 - q by omega,
          show i2 - (q + 1) = i2 - 1 - q by omega]
      by_cases here : agree tests key l1 l2 (i1 - 1) (i2 - 1) = true
      · rw [if_pos here]
        obtain ⟨result, run, compared⟩ := @ih (i1 - 1) (i2 - 1) (by omega) (by omega)
          (by omega) (by omega) (by omega)
        refine ⟨result, run, ?_, fun i given => ?_⟩
        · rw [compared.equal, left, show i1 - 1 - start1 = n by omega, occurs_concat]
          constructor
          · rintro ⟨lengths, occurs⟩
            rw [show i1 - 1 = start1 + n by omega, show i2 - 1 = start2 + n by omega] at here
            exact ⟨by omega, occurs, here⟩
          · rintro ⟨lengths, occurs, -⟩
            exact ⟨by omega, occurs⟩
        · obtain ⟨p, ⟨first, second, occurs⟩, longest, place⟩ := compared.boundary i given
          refine ⟨p + 1, ⟨by omega, by omega, (top p (by omega) (by omega)).mpr ⟨occurs, here⟩⟩, ?_,
            ?_⟩
          · rintro q ⟨shorter1, shorter2, matched⟩
            cases q with
            | zero => omega
            | succ q =>
              have := longest q ⟨by omega, by omega,
                ((top q (by omega) (by omega)).mp matched).1⟩
              omega
          · have place : i + p = i1 - 1 := place
            exact show i + (p + 1) = i1 by omega
      · rw [if_neg here]
        refine ⟨_, rfl, .differs (fun q agreed => ?_) fun equal occurs => ?_⟩
        · have short1 := agreed.1
          have short2 := agreed.2.1
          exact here ((top q (by omega) (by omega)).mp agreed.2.2).2
        · rw [left, occurs_concat, ← show i1 - 1 = start1 + n by omega,
            ← show i2 - 1 = start2 + n by omega] at occurs
          exact here occurs.2

section

variable (tests : Tests κ) (key : α → κ) {sequence1 sequence2 : Sequence α} (fromEnd : Bool)
  {start1 start2 : Nat} {end1 end2 : Option Nat}

theorem search_sought (bounded1 : sequence1.Bounded start1 end1)
    (bounded2 : sequence2.Bounded start2 end2) :
    ∃ result, search tests key sequence1 sequence2 fromEnd start1 (argument end1) start2
        (argument end2) = .ok result ∧
      Sought tests key sequence1.elements sequence2.elements fromEnd start1
        (end1.getD sequence1.elements.length) start2
          (end2.getD sequence2.elements.length) result := by
  simp only [search, sequenceLimits_of_bounded bounded1,
    sequenceLimits_of_bounded bounded2, Lib.ok_bind]
  cases fromEnd with
  | false => exact searchUp_sought bounded1.inside bounded2.inside bounded2.order
  | true => exact searchDown_sought bounded1.inside bounded2.inside bounded2.order

theorem mismatch_compared (bounded1 : sequence1.Bounded start1 end1)
    (bounded2 : sequence2.Bounded start2 end2) :
    ∃ result, mismatch tests key sequence1 sequence2 fromEnd start1 (argument end1) start2
        (argument end2) = .ok result ∧
      Compared tests key sequence1.elements sequence2.elements fromEnd start1
        (end1.getD sequence1.elements.length) start2
          (end2.getD sequence2.elements.length) result := by
  simp only [mismatch, sequenceLimits_of_bounded bounded1,
    sequenceLimits_of_bounded bounded2, Lib.ok_bind]
  cases fromEnd with
  | false => exact mismatchUp_compared bounded1.inside bounded2.inside bounded1.order bounded2.order
  | true =>
      exact mismatchDown_compared bounded1.inside bounded2.inside bounded1.order bounded2.order

end

/-- SEARCH returns the first or last occurrence or NIL, and MISMATCH the end of the longest part
that matches or NIL, for all bounds within the sequences. -/
theorem search_mismatch (tests : Tests κ) (key : α → κ) {sequence1 sequence2 : Sequence α}
    (fromEnd : Bool) {start1 start2 : Nat} {end1 end2 : Option Nat}
    (bounded1 : sequence1.Bounded start1 end1) (bounded2 : sequence2.Bounded start2 end2) :
    (∃ result, search tests key sequence1 sequence2 fromEnd start1 (argument end1) start2
        (argument end2) = .ok result ∧
      Sought tests key sequence1.elements sequence2.elements fromEnd start1
        (end1.getD sequence1.elements.length) start2 (end2.getD sequence2.elements.length) result) ∧
    ∃ result, mismatch tests key sequence1 sequence2 fromEnd start1 (argument end1) start2
        (argument end2) = .ok result ∧
      Compared tests key sequence1.elements sequence2.elements fromEnd start1
        (end1.getD sequence1.elements.length) start2 (end2.getD sequence2.elements.length) result :=
  ⟨search_sought tests key fromEnd bounded1 bounded2,
    mismatch_compared tests key fromEnd bounded1 bounded2⟩

/-- EQL as the test, and no key. -/
def plainTests : Tests Nat := ⟨none, none, fun x y => x == y, .inl rfl⟩

theorem search_mismatch_oneTwo :
    (∃ result, search plainTests id oneTwo oneTwo false (0 : Nat) (argument none) (0 : Nat)
        (argument none) = .ok result ∧
      Sought plainTests id [1, 2] [1, 2] false 0 2 0 2 result) ∧
    ∃ result, mismatch plainTests id oneTwo oneTwo false (0 : Nat) (argument none) (0 : Nat)
        (argument none) = .ok result ∧
      Compared plainTests id [1, 2] [1, 2] false 0 2 0 2 result :=
  search_mismatch plainTests id false oneTwo_bounded oneTwo_bounded

end Ecl.Sequences
