import Ecl.Sequences.Remove

/- REMOVE-DUPLICATES and DELETE-DUPLICATES. -/
namespace Ecl.Sequences

open List Nat

open Ecl.Number (mostPositiveFixnum mostPositiveFixnum_eq)

variable {α κ : Type}

/-- A later element before the end matches, or an earlier one behind the start. -/
def repeated (tests : Tests κ) (key : α → κ) (l : List α) (fromEnd : Bool) (start stop i : Nat) :
    Bool :=
  if fromEnd then (List.range' start (i - start)).any (agree tests key l l i)
  else (List.range' (1 + i) (stop - (1 + i))).any (agree tests key l l i)

/-- The indices between the bounds of the elements that are repeated. -/
def duplicates (tests : Tests κ) (key : α → κ) (l : List α) (fromEnd : Bool) (start stop : Nat) :
    List Nat :=
  (List.range' start (stop - start)).filter (repeated tests key l fromEnd start stop)

section

variable {tests : Tests κ} {key : α → κ} {sequence : Sequence α} {fromEnd : Bool} {start stop : Nat}

theorem findLoop_eq {holds : Nat → Except SeqError Bool} {satisfied : Nat → Bool} {is : List Nat}
    (total : ∀ i ∈ is, holds i = .ok (satisfied i)) :
      findLoop holds is = .ok (is.find? satisfied) := by
  induction is with
  | nil => rfl
  | cons i is ih =>
    rw [findLoop, total i (.head is), Lib.ok_bind, List.find?_cons]
    by_cases hit : satisfied i = true
    · rw [if_pos hit, hit]
      rfl
    · rw [if_neg hit, Bool.eq_false_iff.mpr hit, ih fun j member => total j (.tail i member)]

theorem position_isSome {item : κ} (order : start ≤ stop)
    (inside : stop ≤ sequence.elements.length) :
    ∃ found, position tests key item sequence fromEnd start (some (stop : Int)) = .ok found ∧
      found.isSome =
        (List.range' start (stop - start)).any (matchesAt tests key item sequence.elements) := by
  have bounded : sequence.Bounded start (some stop) := ⟨order, inside⟩
  have limits := sequenceLimits_of_bounded bounded
  have search :
    findLoop (satisfiesTheTest tests key item sequence.elements) (indices fromEnd start stop) =
      .ok ((indices fromEnd start stop).find? (matchesAt tests key item sequence.elements)) :=
    findLoop_eq fun i member =>
      satisfiesTheTest_eq (lt_of_lt_of_le (mem_indices.mp member).2 inside)
  refine ⟨(indices fromEnd start stop).find? (matchesAt tests key item sequence.elements), ?_, ?_⟩
  · rw [position, show (some (stop : Int)) = argument (some stop) from rfl, limits, Lib.ok_bind]
    exact search
  · have members (i : Nat) : i ∈ indices fromEnd start stop ↔
      i ∈ List.range' start (stop - start) := by
      rw [mem_indices, mem_range'_1]
      omega
    rw [Bool.eq_iff_iff, List.find?_isSome, any_eq_true]
    simp only [members]

variable {i : Nat}

theorem matchesAt_agree (inside : i < sequence.elements.length) :
    matchesAt tests key (key sequence.elements[i]) sequence.elements =
      agree tests key sequence.elements sequence.elements i := by
  funext j
  rw [matchesAt, agree, List.getElem?_eq_getElem inside]
  cases sequence.elements[j]? <;> rfl

theorem duplicated_eq (low : start ≤ i) (high : i < stop)
    (inside : stop ≤ sequence.elements.length) :
    duplicated tests key sequence fromEnd start stop i =
      .ok (repeated tests key sequence.elements fromEnd start stop i) := by
  have here : i < sequence.elements.length := lt_of_lt_of_le high inside
  rw [duplicated, elt_eq here, Lib.ok_bind, repeated, ← matchesAt_agree here]
  cases fromEnd with
  | true =>
    obtain ⟨found, run, isSome⟩ := @position_isSome _ _ tests key sequence true start i
      (key sequence.elements[i]) low (le_of_lt here)
    rw [if_pos rfl, if_pos rfl, run, Lib.ok_bind, ← isSome]
    rfl
  | false =>
    obtain ⟨found, run, isSome⟩ := @position_isSome _ _ tests key sequence false (1 + i) stop
      (key sequence.elements[i]) (by omega) inside
    rw [if_neg Bool.false_ne_true, if_neg Bool.false_ne_true, run, Lib.ok_bind, ← isSome]
    rfl

theorem kept_always (satisfied : Nat → Bool) (k : Nat) (is : List Nat) :
    kept (fun i _ => satisfied i) k is = is.filter fun i => !satisfied i := by
  induction is generalizing k with
  | nil => rfl
  | cons i is ih =>
    rw [kept]
    by_cases hit : satisfied i = true
    · rw [if_pos hit, ih, filter_cons_of_neg (by simp [hit])]
    · rw [if_neg hit, ih, filter_cons_of_pos (by simp [hit])]

theorem deleteDuplicates_eq {stop' : Option Nat} (bounded : sequence.Bounded start stop') :
    deleteDuplicates tests key sequence fromEnd (some (start : Int)) (argument stop') =
      .ok ((without sequence.elements (duplicates tests key sequence.elements fromEnd start
        (stop'.getD sequence.elements.length))).map some) := by
  have order := bounded.order
  have inside := bounded.inside
  have unfolded :
    deleteDuplicates tests key sequence fromEnd (some (start : Int)) (argument stop') = (do
      let bounds ← sequenceLimits (some (start : Int)) (argument stop') sequence.elements.length
      let holds := duplicated tests key sequence fromEnd bounds.1 bounds.2
      let n ← countLoop holds none (indices fromEnd bounds.1 bounds.2) 0
      let newseq ← makeSequence ((sequence.elements.length : Int) - n)
      let filling ← fillingLoop (fun i _ => if bounds.1 ≤ i ∧
        i < bounds.2 then holds i else .ok false)
        fromEnd sequence.elements (indices fromEnd 0 sequence.elements.length)
        ⟨newseq, if fromEnd then sequence.elements.length - n else 0, 0⟩
      return filling.newseq) := by
    cases sequence <;> cases fromEnd <;> rfl
  rw [unfolded, sequenceLimits_of_bounded bounded, Lib.ok_bind]
  generalize stop'.getD sequence.elements.length = stop at order inside ⊢
  generalize law : repeated tests key sequence.elements fromEnd start stop = satisfied
  have total (i : Nat) (low : start ≤ i) (high : i < stop) :
      duplicated tests key sequence fromEnd start stop i = .ok (satisfied i) := by
    rw [duplicated_eq low high inside, law]
  have counted : countLoop (duplicated tests key sequence fromEnd start stop) none
      (indices fromEnd start stop) 0 = .ok (0 + _) :=
    countLoop_all (fun i member => total i (mem_indices.mp member).1 (mem_indices.mp member).2) 0
  have leaves (i : Nat) (_ : i < sequence.elements.length) (k : Nat) :
      (if start ≤ i ∧
        i < stop then duplicated tests key sequence fromEnd start stop i else .ok false) =
        .ok (between satisfied start stop i) := by
    rw [between]
    split
    · rename_i within
      rw [total i within.1 within.2, decide_eq_true within, Bool.true_and]
    · rename_i beyond
      rw [decide_eq_false beyond, Bool.false_and]
  -- The elements that are counted are those that the second loop leaves out.
  have parts := @length_eq_length_filter_add Nat (indices fromEnd 0 sequence.elements.length)
    (between satisfied start stop)
  rw [filter_between order inside, indices_length] at parts
  have stay :
    (indices fromEnd 0 sequence.elements.length).filter (fun i => !between satisfied start stop i) =
      (indices fromEnd 0 sequence.elements.length).filter
        (· ∉ duplicates tests key sequence.elements fromEnd start stop) := by
    refine filter_congr fun i _ => ?_
    have member : i ∈ duplicates tests key sequence.elements fromEnd start stop ↔
        between satisfied start stop i = true := by
      rw [duplicates, law, mem_filter, mem_range'_1, between, Bool.and_eq_true, decide_eq_true_eq,
        show start + (stop - start) = stop by omega]
    by_cases hit : between satisfied start stop i = true
    · rw [hit, decide_eq_false (not_not_intro (member.mpr hit))]
      rfl
    · have out : ¬i ∈ duplicates tests key sequence.elements fromEnd start stop := fun inside =>
        hit (member.mp inside)
      rw [Bool.eq_false_iff.mpr hit, decide_eq_true out]
      rfl
  have law' :=
    kept_always (between satisfied start stop) 0 (indices fromEnd 0 sequence.elements.length)
  rw [stay] at law' parts
  simp only [counted, Lib.ok_bind, zero_add]
  rw [makeSequence, if_pos (by omega), Lib.ok_bind,
    show ((sequence.elements.length : Int) - ((indices fromEnd start stop).filter
      satisfied).length).toNat =
      sequence.elements.length - ((indices fromEnd start stop).filter satisfied).length by omega]
  exact fillingLoop_exact leaves law' (by rw [law']; omega)

theorem removeDuplicates_eq {stop' : Option Nat} (bounded : sequence.Bounded start stop') :
    removeDuplicates tests key sequence fromEnd (some (start : Int)) (argument stop') =
      .ok ((without sequence.elements (duplicates tests key sequence.elements fromEnd start
        (stop'.getD sequence.elements.length))).map some) := by
  rw [← deleteDuplicates_eq bounded]
  cases sequence <;> cases fromEnd <;> rfl

variable {l : List α}

theorem without_pairwise {selected : List Nat} {r : α → α → Prop}
    (apart : ∀ i j x y, i < j → l[i]? = some x → l[j]? = some y → i ∉ selected →
      j ∉ selected → r x y) :
    (without l selected).Pairwise r := by
  rw [without, pairwise_filterMap]
  have ascending : (List.range l.length).Pairwise (· < ·) := pairwise_lt_range
  refine (ascending.filter _).imp_of_mem fun {i j} memberI memberJ before x here y there => ?_
  have outI := (mem_filter.mp memberI).2
  have outJ := (mem_filter.mp memberJ).2
  exact apart i j x y before here there (of_decide_eq_true outI) (of_decide_eq_true outJ)

theorem without_nil (l : List α) : without l [] = l := by
  rw [without, filter_eq_self.mpr (by simp), range_eq_range', filterMap_range', drop_zero,
    take_length]

theorem repeated_iff : repeated tests key l fromEnd 0 l.length i = true ↔
    ∃ j, (if fromEnd then j < i else i < j ∧ j < l.length) ∧ agree tests key l l i j = true := by
  cases fromEnd with
  | true => simp [repeated]
  | false => 
      simp only [repeated, Bool.false_eq_true, if_false, any_eq_true, mem_range'_1]
      refine exists_congr fun j => and_congr_left fun _ => ?_
      omega

theorem agree_eq {j : Nat} (insideI : i < l.length) (insideJ : j < l.length) :
    agree tests key l l i j = tests.compare (key l[i]) (key l[j]) := by
  rw [agree, List.getElem?_eq_getElem insideI, List.getElem?_eq_getElem insideJ]

/-- The earlier and the later element of two that stay. -/
def Apart (tests : Tests κ) (key : α → κ) (fromEnd : Bool) (x y : α) : Prop :=
  if fromEnd then tests.compare (key y) (key x) = false else tests.compare (key x) (key y) = false

theorem apart_of_kept {j : Nat} {x y : α} (before : i < j) (here : l[i]? = some x)
    (there : l[j]? = some y) (outI : i ∉ duplicates tests key l fromEnd 0 l.length)
    (outJ : j ∉ duplicates tests key l fromEnd 0 l.length) : Apart tests key fromEnd x y := by
  obtain ⟨insideI, rfl⟩ := List.getElem?_eq_some_iff.mp here
  obtain ⟨insideJ, rfl⟩ := List.getElem?_eq_some_iff.mp there
  have single {n : Nat} (inside : n < l.length)
    (out : n ∉ duplicates tests key l fromEnd 0 l.length) :
      ¬repeated tests key l fromEnd 0 l.length n = true := fun hit =>
    out (mem_filter.mpr ⟨mem_range'_1.mpr ⟨zero_le n, by omega⟩, hit⟩)
  rw [Apart]
  cases fromEnd with
  | true =>
    rw [if_pos rfl, ← agree_eq insideJ insideI, ← Bool.not_eq_true]
    exact fun agreed => single insideJ outJ (repeated_iff.mpr ⟨i, before, agreed⟩)
  | false =>
    rw [if_neg Bool.false_ne_true, ← agree_eq insideI insideJ, ← Bool.not_eq_true]
    exact fun agreed => single insideI outI (repeated_iff.mpr ⟨j, ⟨before, insideJ⟩, agreed⟩)

theorem duplicates_of_apart (apart : l.Pairwise (Apart tests key fromEnd)) :
    duplicates tests key l fromEnd 0 l.length = [] := by
  rw [duplicates, filter_eq_nil_iff]
  intro i member hit
  have inside : i < l.length := by
    have := mem_range'_1.mp member
    omega
  obtain ⟨j, place, agreed⟩ := repeated_iff.mp hit
  rw [pairwise_iff_getElem] at apart
  cases fromEnd with
  | true =>
    have before : j < i := place
    have differs := apart j i (lt_trans before inside) inside before
    rw [agree_eq inside (lt_trans before inside)] at agreed
    exact Bool.false_ne_true (Eq.trans (Eq.symm differs) agreed)
  | false =>
    have behind : i < j ∧ j < l.length := place
    have differs := apart i j inside behind.2 behind.1
    rw [agree_eq inside behind.2] at agreed
    exact Bool.false_ne_true (Eq.trans (Eq.symm differs) agreed)

theorem duplicates_without (l : List α) :
    duplicates tests key (without l (duplicates tests key l fromEnd 0 l.length)) fromEnd 0
      (without l (duplicates tests key l fromEnd 0 l.length)).length = [] :=
  duplicates_of_apart (without_pairwise fun _ _ _ _ before here there outI outJ =>
    apart_of_kept before here there outI outJ)

end

/-- REMOVE-DUPLICATES and DELETE-DUPLICATES leave out the elements between the bounds that a later
one matches, or an earlier one from the end; the new sequence is filled. Done again on the whole
result they leave nothing out. -/
theorem removeDuplicates_law (tests : Tests κ) (key : α → κ) {sequence : Sequence α}
    (fromEnd : Bool)
    {start : Nat} {stop : Option Nat} (bounded : sequence.Bounded start stop) (selected : List Nat)
    (law : selected = duplicates tests key sequence.elements fromEnd start
      (stop.getD sequence.elements.length)) :
    removeDuplicates tests key sequence fromEnd (some (start : Int)) (argument stop) =
        .ok ((without sequence.elements selected).map some) ∧
      deleteDuplicates tests key sequence fromEnd (some (start : Int)) (argument stop) =
        .ok ((without sequence.elements selected).map some) ∧
      ∀ result : Sequence α,
        removeDuplicates tests key sequence fromEnd (some 0) none = .ok (result.elements.map some) →
        removeDuplicates tests key result fromEnd (some 0) none =
          .ok (result.elements.map some) := by
  subst law
  refine ⟨removeDuplicates_eq bounded, deleteDuplicates_eq bounded, fun result removed => ?_⟩
  have whole (s : Sequence α) : s.Bounded 0 none := ⟨Nat.zero_le _, Nat.le_refl _⟩
  rw [show (some 0 : Option Int) = some ((0 : Nat) : Int) from rfl,
    show (none : Option Int) = argument none from rfl, removeDuplicates_eq (whole _),
      Except.ok.injEq,
    Option.getD_none] at removed
  have same := map_injective_iff.mpr (Option.some_injective α) removed
  have again := @removeDuplicates_eq _ _ tests key _ fromEnd _ _ (whole result)
  rw [Option.getD_none, ← same, duplicates_without, without_nil] at again
  rw [← same]
  exact again

theorem removeDuplicates_law_oneTwoOne :
    removeDuplicates plainTests id (.list ⟨[1, 2, 1], by decide⟩) false (some ((0 : Nat) : Int))
        (argument none) = .ok [some 2, some 1] ∧
      deleteDuplicates plainTests id (.list ⟨[1, 2, 1], by decide⟩) false (some ((0 : Nat) : Int))
        (argument none) = .ok [some 2, some 1] ∧
      ∀ result : Sequence Nat,
        removeDuplicates plainTests id (.list ⟨[1, 2, 1], by decide⟩) false (some 0) none =
            .ok (result.elements.map some) →
          removeDuplicates plainTests id result false (some 0) none =
            .ok (result.elements.map some) :=
  removeDuplicates_law plainTests id false ⟨by decide, by decide⟩ [0] (by decide)

end Ecl.Sequences
