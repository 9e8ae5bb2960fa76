import Ecl.Sequences.Search
import Mathlib.Data.List.Nodup

/- REMOVE, DELETE, SUBSTITUTE and NSUBSTITUTE select the same elements. -/
namespace Ecl.Sequences

open List Option Except Int

open Ecl.Number (mostPositiveFixnum mostPositiveFixnum_eq)

variable {α κ : Type}

/-- The element with an index satisfies the test. -/
def matchesAt (tests : Tests κ) (key : α → κ) (item : κ) (l : List α) (i : Nat) : Bool :=
  match l[i]? with
  | some x => tests.compare item (key x)
  | none => false

/-- The first, or last, indices between the bounds that satisfy a test, as many as :COUNT says. -/
def chosen (satisfied : Nat → Bool) (fromEnd : Bool) (start stop : Nat) (limit : Option Int) :
    List Nat :=
  let found := (List.range' start (stop - start)).filter satisfied
  let found := if fromEnd then found.reverse else found
  match limit with
  | none => found
  | some count => found.take count.toNat

/-- The elements with other indices. -/
def without (l : List α) (selected : List Nat) : List α :=
  ((List.range l.length).filter (· ∉ selected)).filterMap (l[·]?)

/-- The elements, with a new one at some indices. -/
def replaced (l : List α) (selected : List Nat) (newitem : α) : List α :=
  l.mapIdx fun i x => if i ∈ selected then newitem else x

variable {start stop : Nat}

theorem mem_indices {fromEnd : Bool} {i : Nat} :
    i ∈ indices fromEnd start stop ↔ start ≤ i ∧ i < stop := by
  rw [indices]
  split
  all_goals simp only [mem_reverse, mem_range'_1]; omega

theorem indices_nodup (fromEnd : Bool) (start stop : Nat) : (indices fromEnd start stop).Nodup := by
  rw [indices]
  split
  · exact nodup_reverse.mpr nodup_range'
  · exact nodup_range'

theorem indices_length (fromEnd : Bool) (start stop : Nat) :
    (indices fromEnd start stop).length = stop - start := by
  rw [indices]
  split
  all_goals simp only [length_reverse, length_range']

/-- Within the bounds, and satisfied. -/
def between (satisfied : Nat → Bool) (start stop i : Nat) : Bool :=
  decide (start ≤ i ∧ i < stop) && satisfied i

variable {satisfied : Nat → Bool}

theorem filter_between {n : Nat} (order : start ≤ stop) (inside : stop ≤ n) (fromEnd : Bool) :
    (indices fromEnd 0 n).filter (between satisfied start stop) =
      (indices fromEnd start stop).filter satisfied := by
  have up : (List.range' 0 n).filter (between satisfied start stop) =
      (List.range' start (stop - start)).filter satisfied := by
    have parts : List.range' 0 n =
        List.range' 0 start ++
          (List.range' start (stop - start) ++ List.range' stop (n - stop)) := by
      rw [show List.range' stop (n - stop) = List.range' (start + (stop - start)) (n - stop) by
          rw [Nat.add_sub_of_le order], List.range'_append_1,
        show List.range' start (stop - start + (n - stop)) =
          List.range' (0 + start) (stop - start + (n - stop)) by rw [Nat.zero_add],
        List.range'_append_1]
      congr 1
      omega
    have front : (List.range' 0 start).filter (between satisfied start stop) = [] := by
      rw [filter_eq_nil_iff]
      intro i member
      have := mem_range'_1.mp member
      simp only [between, Bool.and_eq_true, decide_eq_true_eq]
      omega
    have back : (List.range' stop (n - stop)).filter (between satisfied start stop) = [] := by
      rw [filter_eq_nil_iff]
      intro i member
      have := mem_range'_1.mp member
      simp only [between, Bool.and_eq_true, decide_eq_true_eq]
      omega
    rw [parts, filter_append, filter_append, front, back, append_nil, nil_append]
    refine filter_congr fun i member => ?_
    have := mem_range'_1.mp member
    rw [between, decide_eq_true (by omega), Bool.true_and]
  cases fromEnd with
  | false => exact up
  | true =>
    rw [indices, indices, if_pos rfl, if_pos rfl, filter_reverse, filter_reverse]
    exact congrArg List.reverse up

theorem chosen_eq (fromEnd : Bool) (limit : Option Int)
    (small : ((stop - start : Nat) : Int) ≤ mostPositiveFixnum) :
    chosen satisfied fromEnd start stop limit =
      ((indices fromEnd start stop).filter satisfied).take (countLimit limit) := by
  have order : (if fromEnd = true then ((List.range' start (stop - start)).filter satisfied).reverse
      else (List.range' start (stop - start)).filter satisfied) =
      (indices fromEnd start stop).filter satisfied := by
    rw [indices]
    split
    · exact filter_reverse.symm
    · rfl
  have short :
    ((indices fromEnd start stop).filter satisfied).length ≤ mostPositiveFixnum.toNat := by
    have := length_filter_le satisfied (indices fromEnd start stop)
    rw [indices_length] at this
    omega
  rw [chosen.eq_def]
  simp only [order]
  cases limit with
  | none => exact (take_of_length_le short).symm
  | some count =>
    show List.take count.toNat _ = List.take (countLimit (some count)) _
    rw [countLimit]
    split
    · rw [toNat_of_nonpos (by omega)]
    · split
      · rw [take_of_length_le short, take_of_length_le (by omega)]
      · rfl

/-- The indices that a loop does not leave out, when it has left out some number. -/
def kept (leaves : Nat → Nat → Bool) : Nat → List Nat → List Nat
  | _, [] => []
  | k, i :: is => if leaves i k then kept leaves (k + 1) is else i :: kept leaves k is

theorem kept_sublist (leaves : Nat → Nat → Bool) (k : Nat) (is : List Nat) :
    (kept leaves k is).Sublist is := by
  induction is generalizing k with
  | nil => exact .slnil
  | cons i is ih =>
    rw [kept]
    split
    · exact (ih (k + 1)).cons i
    · exact (ih k).cons_cons i

/-- A loop that leaves out what satisfies a test, up to some number. -/
def upTo (satisfied : Nat → Bool) (count i k : Nat) : Bool := satisfied i && decide (k < count)

theorem kept_upTo {count : Nat} {is : List Nat} (nodup : is.Nodup) (k : Nat) :
    kept (upTo satisfied count) k is = is.filter (· ∉ (is.filter satisfied).take (count - k)) := by
  induction is generalizing k with
  | nil => rfl
  | cons i is ih =>
    obtain ⟨fresh, nodup⟩ := nodup_cons.mp nodup
    by_cases hit : satisfied i = true
    · rw [filter_cons_of_pos hit]
      by_cases more : k < count
      · rw [kept, upTo, hit, decide_eq_true more, Bool.and_self, if_pos rfl, ih nodup,
          show count - k = count - (k + 1) + 1 by omega, take_succ_cons,
          filter_cons_of_neg (by simp)]
        refine filter_congr fun j member => ?_
        have other : j ≠ i := fun equal => fresh (equal ▸ member)
        simp only [mem_cons, other, false_or]
      · have done : count - k = 0 := by omega
        rw [kept, upTo, decide_eq_false more, Bool.and_false, if_neg Bool.false_ne_true,
          ih nodup, done]
        simp
    · rw [filter_cons_of_neg hit, kept, upTo, Bool.eq_false_iff.mpr hit, Bool.false_and,
        if_neg Bool.false_ne_true, ih nodup, filter_cons_of_pos]
      have out : i ∉ (is.filter satisfied).take (count - k) := fun member =>
        fresh (mem_filter.mp (mem_of_mem_take member)).1
      exact decide_eq_true out

theorem kept_upTo_length {count : Nat} (k : Nat) (is : List Nat) :
    (kept (upTo satisfied count) k is).length + min (count - k) (is.filter satisfied).length =
      is.length := by
  induction is generalizing k with
  | nil => simp [kept]
  | cons i is ih =>
    rw [kept, upTo]
    by_cases hit : satisfied i = true
    · rw [filter_cons_of_pos hit]
      by_cases more : k < count
      · have rest := ih (k + 1)
        simp only [hit, more, decide_true, Bool.and_self, if_true, length_cons]
        omega
      · have rest := ih k
        simp only [more, decide_false, Bool.and_false, Bool.false_eq_true, if_false, length_cons]
        omega
    · have rest := ih k
      rw [filter_cons_of_neg hit]
      simp only [hit, Bool.false_and, Bool.false_eq_true, if_false, length_cons]
      omega

section Loops

variable {l : List α} {holds : Nat → Except SeqError Bool} {satisfied : Nat → Bool}
  {leavesOut : Nat → Nat → Except SeqError Bool} {leaves : Nat → Nat → Bool}

theorem satisfiesTheTest_eq {tests : Tests κ} {key : α → κ} {item : κ} {i : Nat}
    (inside : i < l.length) :
    satisfiesTheTest tests key item l i = .ok (matchesAt tests key item l i) := by
  rw [satisfiesTheTest, elt_eq inside, matchesAt, List.getElem?_eq_getElem inside]
  rfl

variable {is : List Nat}

theorem countLoop_eq (total : ∀ i ∈ is, holds i = .ok (satisfied i)) (count k : Nat) :
    countLoop holds (some count) is k = .ok (k + min (count - k) (is.filter satisfied).length) := by
  induction is generalizing k with
  | nil => simp [countLoop]
  | cons i is ih =>
    have ih := ih fun j member => total j (.tail i member)
    rw [countLoop, all_some]
    by_cases more : k < count
    · rw [decide_eq_true more, if_pos rfl, total i (.head is), Lib.ok_bind]
      dsimp only
      rw [ih]
      by_cases hit : satisfied i = true
      · rw [if_pos hit, filter_cons_of_pos hit, length_cons]
        exact congrArg _ (by omega)
      · rw [if_neg hit, filter_cons_of_neg hit]
    · rw [decide_eq_false more, if_neg Bool.false_ne_true]
      show countLoop holds (some count) is (if false = true then k + 1 else k) = _
      rw [if_neg Bool.false_ne_true, ih]
      exact congrArg _ (by omega)

theorem countLoop_all (total : ∀ i ∈ is, holds i = .ok (satisfied i)) (k : Nat) :
    countLoop holds none is k = .ok (k + (is.filter satisfied).length) := by
  induction is generalizing k with
  | nil => rfl
  | cons i is ih =>
    rw [countLoop, all_none, if_pos rfl, total i (.head is), Lib.ok_bind]
    dsimp only
    rw [ih fun j member => total j (.tail i member)]
    by_cases hit : satisfied i = true
    · rw [if_pos hit, filter_cons_of_pos hit, length_cons]
      exact congrArg _ (by omega)
    · rw [if_neg hit, filter_cons_of_neg hit]

variable {room : Nat}

theorem fillingLoop_up (total : ∀ i ∈ is, ∀ k, leavesOut i k = .ok (leaves i k))
    (inside : ∀ i ∈ is, i < l.length) (done : List (Option α)) {k : Nat}
    (fits : (kept leaves k is).length ≤ room) :
    (fillingLoop leavesOut false l is ⟨done ++ List.replicate room none, done.length, k⟩ >>=
        fun filling => .ok filling.newseq) =
      .ok (done ++ (kept leaves k is).map (l[·]?) ++
        List.replicate (room - (kept leaves k is).length) none) := by
  induction is generalizing done k room with
  | nil => simp [fillingLoop, kept]
  | cons i is ih =>
    have total' := fun j member => total j (.tail i member)
    have inside' := fun j member => inside j (.tail i member)
    rw [fillingLoop, total i (.head is), Lib.ok_bind]
    rw [kept] at fits ⊢
    by_cases left : leaves i k = true
    · rw [if_pos left] at fits ⊢
      rw [if_pos left]
      exact ih total' inside' done fits
    · rw [if_neg left, length_cons] at fits
      obtain ⟨room, rfl⟩ : ∃ n, room = n + 1 := ⟨room - 1, by omega⟩
      have here : i < l.length := inside i (.head is)
      have stored :
        (⟨done ++ List.replicate (room + 1) none, done.length, k⟩ : Filling α).store false l[i] =
          .ok
            ⟨(done ++ [some l[i]]) ++ List.replicate room none,
            (done ++ [some l[i]]).length, k⟩ := by
        rw [Filling.store, if_neg Bool.false_ne_true, eltSet_eq (by simp)]
        simp [replicate_succ]
      rw [if_neg left, if_neg left, elt_eq here, Lib.ok_bind, stored, Lib.ok_bind,
        ih total' inside' (done ++ [some l[i]]) (by omega)]
      simp [List.getElem?_eq_getElem here]

theorem fillingLoop_down (total : ∀ i ∈ is, ∀ k, leavesOut i k = .ok (leaves i k))
    (inside : ∀ i ∈ is, i < l.length) (done : List (Option α)) {k : Nat}
    (fits : (kept leaves k is).length ≤ room) :
    (fillingLoop leavesOut true l is ⟨List.replicate room none ++ done, room, k⟩ >>=
        fun filling => .ok filling.newseq) =
      .ok (List.replicate (room - (kept leaves k is).length) none ++
        ((kept leaves k is).map (l[·]?)).reverse ++ done) := by
  induction is generalizing done k room with
  | nil => simp [fillingLoop, kept]
  | cons i is ih =>
    have total' := fun j member => total j (.tail i member)
    have inside' := fun j member => inside j (.tail i member)
    rw [fillingLoop, total i (.head is), Lib.ok_bind]
    rw [kept] at fits ⊢
    by_cases left : leaves i k = true
    · rw [if_pos left] at fits ⊢
      rw [if_pos left]
      exact ih total' inside' done fits
    · rw [if_neg left, length_cons] at fits
      obtain ⟨room, rfl⟩ : ∃ n, room = n + 1 := ⟨room - 1, by omega⟩
      have here : i < l.length := inside i (.head is)
      have stored :
        (⟨List.replicate (room + 1) none ++ done, room + 1, k⟩ : Filling α).store true l[i] =
          .ok ⟨List.replicate room none ++ (some l[i] :: done), room, k⟩ := by
        rw [Filling.store, if_pos rfl]
        show eltSet _ room _ >>= _ = _
        rw [eltSet_eq (by simp; omega), replicate_succ', Lib.ok_bind, append_assoc,
          set_append_right _ _ (by simp)]
        simp
        rfl
      rw [if_neg left, if_neg left, elt_eq here, Lib.ok_bind, stored, Lib.ok_bind,
        ih total' inside' (some l[i] :: done) (by omega)]
      simp [List.getElem?_eq_getElem here]

theorem map_getElem? (inside : ∀ i ∈ is, i < l.length) :
    is.map (l[·]?) = (is.filterMap (l[·]?)).map some := by
  induction is with
  | nil => rfl
  | cons i is ih =>
    rw [map_cons, ih fun j member => inside j (.tail i member)]
    simp [List.getElem?_eq_getElem (inside i (.head is))]

theorem fillingLoop_exact {fromEnd : Bool}
    (total : ∀ i, i < l.length → ∀ k, leavesOut i k = .ok (leaves i k))
    {selected : Nat → Prop} [DecidablePred selected]
    (law : kept leaves 0 (indices fromEnd 0 l.length) =
      (indices fromEnd 0 l.length).filter (fun i => decide ¬selected i))
    (fits : (kept leaves 0 (indices fromEnd 0 l.length)).length = room) :
    (fillingLoop leavesOut fromEnd l (indices fromEnd 0 l.length)
        ⟨List.replicate room none, if fromEnd then room else 0, 0⟩ >>=
        fun filling => .ok filling.newseq) =
      .ok
        ((((List.range l.length).filter (fun i => decide ¬selected i)).filterMap (l[·]?)).map
        some) := by
  have inside : ∀ i ∈ indices fromEnd 0 l.length, i < l.length :=
    fun i member => (mem_indices.mp member).2
  have upward : ∀ i ∈ (List.range l.length).filter (fun i => decide ¬selected i), i < l.length :=
    fun i member => mem_range.mp (mem_filter.mp member).1
  have totalHere : ∀ i ∈ indices fromEnd 0 l.length, ∀ k, leavesOut i k = .ok (leaves i k) :=
    fun i member => total i (inside i member)
  rw [← map_getElem? upward, range_eq_range']
  cases fromEnd with
  | false =>
    have run := fillingLoop_up totalHere inside [] (Nat.le_of_eq fits)
    rw [fits, Nat.sub_self, law] at run
    simpa [indices] using run
  | true =>
    have run := fillingLoop_down totalHere inside [] (Nat.le_of_eq fits)
    rw [fits, Nat.sub_self, law] at run
    simpa [indices] using run

end Loops

section Lists

variable {l : List α}

theorem kept_append {leaves : Nat → Nat → Bool} {is : List Nat}
    (none : ∀ i ∈ is, ∀ k, leaves i k = false)
    (k : Nat) (js : List Nat) : kept leaves k (is ++ js) = is ++ kept leaves k js := by
  induction is with
  | nil => rfl
  | cons i is ih =>
    rw [cons_append, kept, none i (.head is) k, if_neg Bool.false_ne_true,
      ih fun j member => none j (.tail i member), cons_append]

theorem filterMap_range' (i n : Nat) : (List.range' i n).filterMap (l[·]?) = (l.drop i).take n := by
  induction n generalizing i with
  | zero => rfl
  | succ n ih =>
    rw [List.range'_succ]
    cases here : l[i]? with
    | none =>
      have out := List.getElem?_eq_none_iff.mp here
      rw [filterMap_cons_none here, ih, drop_eq_nil_of_le (by omega),
        drop_eq_nil_of_le out, take_nil, take_nil]
    | some x =>
      obtain ⟨inside, rfl⟩ := List.getElem?_eq_some_iff.mp here
      rw [filterMap_cons_some here, ih, drop_eq_getElem_cons inside, take_succ_cons]

variable {satisfies : α → Bool} {stop count i j : Nat}

theorem deleteConses_done (done : stop ≤ i ∨ count ≤ j)
    (xs : List α) : deleteConses satisfies stop count i j xs = xs := by
  cases xs with
  | nil => rfl
  | cons x xs => exact if_pos done

theorem deleteConses_eq {satisfied : Nat → Bool} {start : Nat}
    (test : ∀ i x, l[i]? = some x → satisfied i = satisfies x) (behind : start ≤ i)
    {xs : List α} (suffix : l.drop i = xs) :
    deleteConses satisfies stop count i j xs =
      (kept (upTo (between satisfied start stop) count) j (List.range' i xs.length)).filterMap
        (l[·]?) := by
  induction xs generalizing i j with
  | nil => rfl
  | cons x xs ih =>
    have here : l[i]? = some x := by
      rw [← List.head?_drop, suffix, List.head?_cons]
    have rest : l.drop (i + 1) = xs := by
      rw [← tail_drop, suffix, tail_cons]
    rw [length_cons, List.range'_succ, kept, deleteConses]
    by_cases done : stop ≤ i ∨ count ≤ j
    · have out : ¬(upTo (between satisfied start stop) count i j = true) := by
        simp only [upTo, between, Bool.and_eq_true, decide_eq_true_eq]
        omega
      rw [if_pos done, if_neg out, filterMap_cons_some here, ← ih (by omega) rest,
        deleteConses_done (by omega)]
    · have same : upTo (between satisfied start stop) count i j = satisfies x := by
        rw [upTo, between, test i x here, decide_eq_true (by omega), decide_eq_true (by omega),
          Bool.true_and, Bool.and_true]
      rw [if_neg done, same]
      by_cases hit : satisfies x = true
      · rw [if_pos hit, if_pos hit]
        exact ih (by omega) rest
      · rw [if_neg hit, if_neg hit, filterMap_cons_some here]
        exact congrArg (x :: ·) (ih (by omega) rest)

theorem removeConses_eq (xs l1 : List α) : removeConses satisfies stop count i j xs l1 =
      l1.reverse ++ deleteConses satisfies stop count i j xs := by
  induction xs generalizing i j l1 with
  | nil => exact (append_nil _).symm
  | cons x xs ih =>
    rw [removeConses, deleteConses]
    split
    · exact reverseAux_eq
    · split
      · exact ih l1
      · rw [ih, reverse_cons, append_assoc, singleton_append]

theorem pushConses_eq (nil : α) {n : Nat} {xs : List α} (enough : n ≤ xs.length) (l1 : List α) :
    pushConses nil n xs l1 = (xs.drop n, (xs.take n).reverse ++ l1) := by
  induction n generalizing xs l1 with
  | zero => rfl
  | succ n ih =>
    cases xs with
    | nil => cases enough
    | cons x xs =>
      rw [pushConses, headD_cons, tail_cons, ih (Nat.le_of_succ_le_succ enough)]
      simp

end Lists

section Replacing

variable {l : List α} {leavesOut : Nat → Nat → Except SeqError Bool} {leaves : Nat → Nat → Bool}

theorem getElem?_set_of_lt {β : Type} {xs : List β} {i : Nat} (inside : i < xs.length)
    (x : β) (j : Nat) :
    (xs.set i x)[j]? = if i = j then some x else xs[j]? := by
  rw [List.getElem?_set, if_pos inside]

theorem substituteLoop_eq {newitem : α} {is : List Nat} (nodup : is.Nodup)
    (total : ∀ i ∈ is, ∀ k, leavesOut i k = .ok (leaves i k))
    (inside : ∀ i ∈ is, i < l.length) (k : Nat)
    {newseq : List (Option α)} (size : newseq.length = l.length) :
    ∃ final, substituteLoop leavesOut newitem l is k newseq = .ok final ∧ final.length = l.length ∧
      ∀ i, final[i]? = if i ∈ is then
        some (if i ∈ kept leaves k is then l[i]? else some newitem) else newseq[i]? := by
  induction is generalizing k newseq with
  | nil => exact ⟨newseq, rfl, size, fun i => rfl⟩
  | cons i is ih =>
    obtain ⟨fresh, nodup⟩ := nodup_cons.mp nodup
    have here : i < newseq.length := size ▸ inside i (.head is)
    have total' := fun j member => total j (.tail i member)
    have inside' := fun j member => inside j (.tail i member)
    have unkept (k : Nat) : i ∉ kept leaves k is :=
      fun member => fresh ((kept_sublist _ _ _).mem member)
    rw [substituteLoop, total i (.head is), Lib.ok_bind, kept]
    by_cases left : leaves i k = true
    · rw [if_pos left, if_pos left, eltSet_eq here, Lib.ok_bind]
      obtain ⟨final, run, length, elements⟩ := @ih nodup total' inside' (k + 1)
        (newseq.set i (some newitem)) (by simpa using size)
      refine ⟨final, run, length, fun j => ?_⟩
      rw [elements j, getElem?_set_of_lt here]
      by_cases equal : i = j
      · subst equal
        simp [fresh, unkept]
      · simp [equal, Ne.symm equal]
    · rw [if_neg left, if_neg left, elt_eq (size ▸ here), Lib.ok_bind, eltSet_eq here, Lib.ok_bind]
      obtain ⟨final, run, length, elements⟩ := @ih nodup total' inside' k
        (newseq.set i (some _)) (by simpa using size)
      refine ⟨final, run, length, fun j => ?_⟩
      rw [elements j, getElem?_set_of_lt here]
      by_cases equal : i = j
      · subst equal
        simp [fresh, List.getElem?_eq_getElem (size ▸ here)]
      · simp [equal, Ne.symm equal]

theorem nsubstituteLoop_eq {tests : Tests κ} {key : α → κ} {item : κ} {newitem : α} {count : Nat}
    {is : List Nat} (nodup : is.Nodup) (inside : ∀ i ∈ is, i < l.length) (k : Nat)
    {current : List α}
    (size : current.length = l.length) (unchanged : ∀ i ∈ is, current[i]? = l[i]?) :
    ∃ final, nsubstituteLoop tests key item newitem count is k current = .ok final ∧
      ∀ i, final[i]? = if i ∈ is ∧
        i ∉ kept (upTo (matchesAt tests key item l) count) k is then some newitem
        else current[i]? := by
  induction is generalizing k current with
  | nil => exact ⟨current, rfl, fun i => by simp⟩
  | cons i is ih =>
    obtain ⟨fresh, nodup⟩ := nodup_cons.mp nodup
    have here : i < current.length := size ▸ inside i (.head is)
    have same : matchesAt tests key item current i = matchesAt tests key item l i := by
      rw [matchesAt, unchanged i (.head is), matchesAt]
    have test : (if k < count then satisfiesTheTest tests key item current i else pure false) =
        .ok (upTo (matchesAt tests key item l) count i k) := by
      rw [upTo]
      split
      · rename_i more
        rw [satisfiesTheTest_eq here, same, decide_eq_true more, Bool.and_true]
      · rename_i more
        rw [decide_eq_false more, Bool.and_false]
        rfl
    have inside' := fun j member => inside j (.tail i member)
    have unkept (k : Nat) : i ∉ kept (upTo (matchesAt tests key item l) count) k is :=
      fun member => fresh ((kept_sublist _ _ _).mem member)
    rw [nsubstituteLoop, test, Lib.ok_bind, kept]
    by_cases left : upTo (matchesAt tests key item l) count i k = true
    · rw [if_pos left, if_pos left, eltSet_eq here, Lib.ok_bind]
      obtain ⟨final, run, elements⟩ := @ih nodup inside' (k + 1) (current.set i newitem)
        (by simpa using size) fun j member => by
          have other : i ≠ j := fun equal => fresh (equal ▸ member)
          rw [List.getElem?_set_ne other, unchanged j (.tail i member)]
      refine ⟨final, run, fun j => ?_⟩
      rw [elements j, getElem?_set_of_lt here]
      by_cases equal : i = j
      · subst equal
        simp [fresh, unkept]
      · simp [equal, Ne.symm equal]
    · rw [if_neg left, if_neg left]
      obtain ⟨final, run, elements⟩ :=
        ih nodup inside' k size fun j member => unchanged j (.tail i member)
      refine ⟨final, run, fun j => ?_⟩
      rw [elements j]
      by_cases equal : j = i
      · subst equal
        simp [fresh]
      · simp [equal]

end Replacing

theorem countLimit_countLimit (limit : Option Int) :
    countLimit (some (countLimit limit)) = countLimit limit := by
  have most := mostPositiveFixnum_eq
  have small : (countLimit limit : Int) ≤ mostPositiveFixnum := by
    rw [countLimit.eq_def]
    split
    · omega
    · split
      · omega
      · split
        all_goals omega
  rw [countLimit, if_neg (by omega), if_neg (by omega), toNat_natCast]

section Law

variable (tests : Tests κ) (key : α → κ) (item : κ) {sequence : Sequence α} (fromEnd : Bool)
  {start stop : Nat} {stop' : Option Nat} (limit : Option Int)

theorem inRange_eq {holds : Nat → Except SeqError Bool} {satisfied : Nat → Bool} {i : Nat}
    (total : holds i = .ok (satisfied i)) (start stop count k : Nat) :
    inRange holds start stop count i k = .ok (upTo (between satisfied start stop) count i k) := by
  rw [inRange, upTo, between]
  by_cases here : start ≤ i ∧ i < stop
  · by_cases more : k < count
    · rw [if_pos ⟨here.1, here.2, more⟩, total, decide_eq_true here, decide_eq_true more,
        Bool.true_and,
        Bool.and_true]
    · rw [if_neg fun both => more both.2.2, decide_eq_false more, Bool.and_false]
  · rw [if_neg fun both => here ⟨both.1, both.2.1⟩, decide_eq_false here, Bool.false_and,
      Bool.false_and]

theorem fixnum_sub {n : Nat} (sequence : Sequence α) (inside : n ≤ sequence.elements.length)
    (start : Nat) :
    ((n - start : Nat) : Int) ≤ mostPositiveFixnum := by
  have limit := elements_length_le sequence
  have most := mostPositiveFixnum_eq
  omega

theorem kept_chosen {satisfied : Nat → Bool} {n : Nat} (order : start ≤ stop) (inside : stop ≤ n)
    (small : ((stop - start : Nat) : Int) ≤ mostPositiveFixnum) :
    kept (upTo (between satisfied start stop) (countLimit limit)) 0 (indices fromEnd 0 n) =
      (indices fromEnd 0 n).filter (· ∉ chosen satisfied fromEnd start stop limit) := by
  rw [kept_upTo (indices_nodup fromEnd 0 n), Nat.sub_zero, filter_between order inside fromEnd,
    chosen_eq fromEnd limit small]

theorem deleteFilling_eq (order : start ≤ stop) (inside : stop ≤ sequence.elements.length) :
    deleteFilling tests key item sequence fromEnd start stop (countLimit limit) =
      .ok ((without sequence.elements (chosen (matchesAt tests key item sequence.elements) fromEnd
        start stop limit)).map some) := by
  generalize matched : matchesAt tests key item sequence.elements = satisfied
  have total (i : Nat) (here : i < sequence.elements.length) :
      satisfiesTheTest tests key item sequence.elements i = .ok (satisfied i) := by
    rw [satisfiesTheTest_eq here, matched]
  have found :
    ((indices fromEnd start stop).filter satisfied).length ≤ sequence.elements.length := by
    have := length_filter_le satisfied (indices fromEnd start stop)
    rw [indices_length] at this
    omega
  have counted :
    countLoop (satisfiesTheTest tests key item sequence.elements) (some (countLimit limit))
      (indices fromEnd start stop) 0 = .ok (0 + min (countLimit limit - 0) _) :=
    countLoop_eq (fun i member => total i (Nat.lt_of_lt_of_le (mem_indices.mp member).2 inside)) _ 0
  have small := fixnum_sub sequence inside start
  have fits := @kept_upTo_length (between satisfied start stop)
    (min (countLimit limit) ((indices fromEnd start stop).filter satisfied).length) 0
    (indices fromEnd 0 sequence.elements.length)
  -- The count that is left is the number of matches, and no element is chosen beyond it.
  have enough : ((indices fromEnd start stop).filter satisfied).take
      (min (countLimit limit) ((indices fromEnd start stop).filter satisfied).length) =
      ((indices fromEnd start stop).filter satisfied).take (countLimit limit) :=
    take_eq_take_iff.mpr (by omega)
  have law := @kept_upTo (between satisfied start stop)
    (min (countLimit limit) ((indices fromEnd start stop).filter satisfied).length) _
    (indices_nodup fromEnd 0 sequence.elements.length) 0
  rw [filter_between order inside fromEnd, Nat.sub_zero] at law fits
  rw [enough, ← chosen_eq fromEnd limit small] at law
  rw [indices_length, Nat.sub_zero] at fits
  rw [Nat.zero_add, Nat.sub_zero] at counted
  simp only [deleteFilling, counted, Lib.ok_bind]
  generalize bounded :
    min (countLimit limit) ((indices fromEnd start stop).filter satisfied).length = n
    at law fits ⊢
  have left : (if n < countLimit limit then n else countLimit limit) = n := by
    split
    · rfl
    · omega
  rw [left, makeSequence, if_pos (by omega), Lib.ok_bind,
    show ((sequence.elements.length : Int) - n).toNat = sequence.elements.length - n by omega]
  exact fillingLoop_exact
    (fun i here k => inRange_eq (total i here) start stop n k) law (by omega)

theorem deleteConses_without (order : start ≤ stop) (inside : stop ≤ sequence.elements.length) :
    sequence.elements.take start ++
        deleteConses (fun x => tests.compare item (key x)) stop (countLimit limit) start 0
          (sequence.elements.drop start) =
      without sequence.elements (chosen (matchesAt tests key item sequence.elements) false
        start stop limit) := by
  have test (i : Nat) (x : α) (here : sequence.elements[i]? = some x) :
      matchesAt tests key item sequence.elements i = tests.compare item (key x) := by
    rw [matchesAt, here]
  have before (i : Nat) (member : i ∈ List.range' 0 start) (k : Nat) :
      upTo (between (matchesAt tests key item sequence.elements) start stop)
        (countLimit limit) i k =
        false := by
    have := mem_range'_1.mp member
    rw [upTo, between, decide_eq_false (by omega), Bool.false_and, Bool.false_and]
  have parts : indices false 0 sequence.elements.length =
      List.range' 0 start ++ List.range' start (sequence.elements.length - start) := by
    have joined := @List.range'_append_1 0 start (sequence.elements.length - start)
    rw [Nat.zero_add, Nat.add_sub_of_le (Nat.le_trans order inside)] at joined
    exact joined.symm
  have law : kept (upTo (between (matchesAt tests key item sequence.elements) start stop)
      (countLimit limit)) 0 (indices false 0 sequence.elements.length) = _ :=
    kept_chosen false limit order inside (fixnum_sub sequence inside start)
  rw [without, range_eq_range',
    show List.range' 0 sequence.elements.length = indices false 0 sequence.elements.length from rfl,
    ← law, parts, kept_append before, filterMap_append, filterMap_range', drop_zero,
    deleteConses_eq test (Nat.le_refl start) rfl, length_drop]

theorem delete_eq (bounded : sequence.Bounded start stop') :
    delete tests key item sequence fromEnd start (argument stop') limit = 
      .ok ((without sequence.elements (chosen (matchesAt tests key item sequence.elements) fromEnd
        start (stop'.getD sequence.elements.length) limit)).map some) := by
  have order := bounded.order
  have inside := bounded.inside
  rw [delete, sequenceLimits_of_bounded bounded, Lib.ok_bind]
  generalize stop'.getD sequence.elements.length = stop at order inside ⊢
  have filled := deleteFilling_eq tests key item fromEnd limit order inside
  cases sequence with
  | vector v => exact filled
  | list l =>
    cases fromEnd with
    | true => exact filled
    | false =>
      have conses := deleteConses_without tests key item limit order inside
      rw [← conses]
      rfl

theorem remove_eq (nil : α) (bounded : sequence.Bounded start stop') :
    remove tests key item sequence fromEnd start (argument stop') nil limit =
      .ok ((without sequence.elements (chosen (matchesAt tests key item sequence.elements) fromEnd
        start (stop'.getD sequence.elements.length) limit)).map some) := by
  have order := bounded.order
  have inside := bounded.inside
  have again : sequence.Bounded start (some (stop'.getD sequence.elements.length)) :=
    ⟨order, inside⟩
  rw [remove, sequenceLimits_of_bounded bounded, Lib.ok_bind]
  have deleted := delete_eq tests key item fromEnd (some (countLimit limit)) again
  have same : chosen (matchesAt tests key item sequence.elements) fromEnd start
      (stop'.getD sequence.elements.length) (some (countLimit limit)) =
      chosen (matchesAt tests key item sequence.elements) fromEnd start
        (stop'.getD sequence.elements.length) limit := by
    have small := fixnum_sub sequence inside start
    rw [chosen_eq fromEnd _ small, chosen_eq fromEnd _ small, countLimit_countLimit]
  rw [getD_some, same] at deleted
  cases sequence with
  | vector v => exact deleted
  | list l =>
    cases fromEnd with
    | true => exact deleted
    | false =>
      have conses := deleteConses_without tests key item limit order inside
      have pushed := pushConses_eq nil (Nat.le_trans order inside) []
      simp only [show (Sequence.list l).elements = l.elements from rfl] at pushed conses ⊢
      rw [pushed, ← conses]
      simp only [removeConses_eq, append_nil, reverse_reverse]
      rfl

theorem substitute_eq (newitem : α) (bounded : sequence.Bounded start stop') :
    substitute tests key item sequence fromEnd start (argument stop') newitem limit =
      .ok ((replaced sequence.elements (chosen (matchesAt tests key item sequence.elements) fromEnd
        start (stop'.getD sequence.elements.length) limit) newitem).map some) := by
  have order := bounded.order
  have inside := bounded.inside
  simp only [substitute, sequenceLimits_of_bounded bounded, Lib.ok_bind]
  generalize stop'.getD sequence.elements.length = stop at order inside ⊢
  have within (i : Nat) (member : i ∈ indices fromEnd 0 sequence.elements.length) :
      i < sequence.elements.length := (mem_indices.mp member).2
  rw [makeSequence, if_pos (natCast_nonneg _), Lib.ok_bind, toNat_natCast]
  obtain ⟨final, run, size, elements⟩ :=
    substituteLoop_eq (indices_nodup fromEnd 0 sequence.elements.length)
    (fun i member k => inRange_eq (satisfiesTheTest_eq (within i member)) start stop
      (countLimit limit) k)
    within 0 (@length_replicate (Option α) sequence.elements.length none)
  rw [kept_chosen fromEnd limit order inside (fixnum_sub sequence inside start)] at elements
  rw [run]
  refine congrArg ok (ext_getElem? fun i => ?_)
  rw [elements i, replaced, List.getElem?_map, List.getElem?_mapIdx]
  by_cases here : i < sequence.elements.length
  · have member : i ∈ indices fromEnd 0 sequence.elements.length :=
      mem_indices.mpr ⟨Nat.zero_le i, here⟩
    rw [if_pos member, List.getElem?_eq_getElem here]
    by_cases selected :
      i ∈ chosen (matchesAt tests key item sequence.elements) fromEnd start stop limit
    · simp [selected]
    · simp [selected, member]
  · have beyond : sequence.elements[i]? = none := List.getElem?_eq_none (Nat.le_of_not_lt here)
    rw [if_neg fun member => here (within i member), beyond, List.getElem?_replicate, if_neg here]
    rfl

theorem nsubstitute_eq (newitem : α) (bounded : sequence.Bounded start stop') :
    nsubstitute tests key item sequence fromEnd start (argument stop') newitem limit =
      .ok (replaced sequence.elements (chosen (matchesAt tests key item sequence.elements) fromEnd
        start (stop'.getD sequence.elements.length) limit) newitem) := by
  have order := bounded.order
  have inside := bounded.inside
  simp only [nsubstitute, sequenceLimits_of_bounded bounded, Lib.ok_bind]
  generalize stop'.getD sequence.elements.length = stop at order inside ⊢
  have within (i : Nat) (member : i ∈ indices fromEnd start stop) : i < sequence.elements.length :=
    Nat.lt_of_lt_of_le (mem_indices.mp member).2 inside
  obtain ⟨final, run, elements⟩ := @nsubstituteLoop_eq _ _ sequence.elements tests key item newitem
    (countLimit limit) _
    (indices_nodup fromEnd start stop) within 0 sequence.elements rfl fun _ _ => rfl
  have law : chosen (matchesAt tests key item sequence.elements) fromEnd start stop limit = _ :=
    chosen_eq fromEnd limit (fixnum_sub sequence inside start)
  rw [kept_upTo (indices_nodup fromEnd start stop), Nat.sub_zero, ← law] at elements
  rw [run]
  refine congrArg ok (ext_getElem? fun i => ?_)
  rw [elements i, replaced, List.getElem?_mapIdx]
  by_cases selected :
    i ∈ chosen (matchesAt tests key item sequence.elements) fromEnd start stop limit
  · have member : i ∈ indices fromEnd start stop := by
      rw [law] at selected
      exact (mem_filter.mp (mem_of_mem_take selected)).1
    rw [if_pos ⟨member, by simp [selected]⟩, List.getElem?_eq_getElem (within i member)]
    simp [selected]
  · rw [if_neg (by simp [selected])]
    simp [selected]

end Law

/-- The four functions select the same elements, those that :TEST, :COUNT, the bounds and :FROM-END
ask for; the new sequences are filled. -/
theorem remove_delete_substitute (tests : Tests κ) (key : α → κ) (item : κ) {sequence : Sequence α}
    (fromEnd : Bool) {start : Nat} {stop : Option Nat} (bounded : sequence.Bounded start stop)
    (limit : Option Int) (nil newitem : α) (selected : List Nat)
    (law : selected = chosen (matchesAt tests key item sequence.elements) fromEnd start
      (stop.getD sequence.elements.length) limit) :
    remove tests key item sequence fromEnd start (argument stop) nil limit =
        .ok ((without sequence.elements selected).map some) ∧
      delete tests key item sequence fromEnd start (argument stop) limit =
        .ok ((without sequence.elements selected).map some) ∧
      substitute tests key item sequence fromEnd start (argument stop) newitem limit =
        .ok ((replaced sequence.elements selected newitem).map some) ∧
      nsubstitute tests key item sequence fromEnd start (argument stop) newitem limit =
        .ok (replaced sequence.elements selected newitem) := by
  subst law
  exact ⟨remove_eq tests key item fromEnd limit nil bounded,
    delete_eq tests key item fromEnd limit bounded,
    substitute_eq tests key item fromEnd limit newitem bounded,
    nsubstitute_eq tests key item fromEnd limit newitem bounded⟩

theorem remove_delete_substitute_oneTwo :
    remove plainTests id 2 oneTwo true (0 : Nat) (argument none) 0 (some 1) = .ok [some 1] ∧
      delete plainTests id 2 oneTwo true (0 : Nat) (argument none) (some 1) = .ok [some 1] ∧
      substitute plainTests id 2 oneTwo true (0 : Nat) (argument none) 7 (some 1) =
        .ok [some 1, some 7] ∧
      nsubstitute plainTests id 2 oneTwo true (0 : Nat) (argument none) 7 (some 1) = .ok [1, 7] :=
  remove_delete_substitute plainTests id 2 true oneTwo_bounded (some 1) 0 7 [1] (by decide)

end Ecl.Sequences
