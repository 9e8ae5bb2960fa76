import Ecl.Sequences.Seqlib

/- Bounds that are accepted, the elements between them, and REDUCE as a fold over these. -/
namespace Ecl.Sequences

open List Option

open Ecl.Number (mostPositiveFixnum mostPositiveFixnum_eq)

variable {α : Type}

/-- Bounds that are in order and not behind the last element. -/
structure Sequence.Bounded (sequence : Sequence α) (start : Nat) (stop : Option Nat) : Prop where
  order : start ≤ stop.getD sequence.elements.length
  inside : stop.getD sequence.elements.length ≤ sequence.elements.length

abbrev argument (stop : Option Nat) : Option Int := stop.map Int.ofNat

variable {start : Nat}

theorem sequenceLimits_eq (sequence : Sequence α) {stop : Option Nat}
    (startFixnum : (start : Int) ≤ mostPositiveFixnum)
    (stopFixnum : ∀ n, stop = some n → (n : Int) ≤ mostPositiveFixnum) :
    sequenceLimits (some start) (argument stop) sequence.elements.length =
      if start ≤ stop.getD sequence.elements.length then
        .ok (start, stop.getD sequence.elements.length)
      else .error .startAfterEnd := by
  cases stop with
  | none => simp [sequenceLimits, argument, startFixnum]
  | some n => simp [sequenceLimits, argument, startFixnum, stopFixnum n rfl]

theorem sequenceLimits_of_bounded {sequence : Sequence α} {stop : Option Nat}
    (bounded : sequence.Bounded start stop) :
    sequenceLimits (some start) (argument stop) sequence.elements.length =
      .ok (start, stop.getD sequence.elements.length) := by
  have limit := elements_length_le sequence
  have most := mostPositiveFixnum_eq
  have order := bounded.order
  have inside := bounded.inside
  rw [sequenceLimits_eq sequence (by omega), if_pos order]
  intro n given
  subst given
  rw [getD_some] at inside
  omega

/-- The elements between two bounds. -/
def slice (l : List α) (start stop : Nat) : List α := (l.drop start).take (stop - start)

variable {stop : Nat}

theorem slice_of_le (l : List α) (order : stop ≤ start) : slice l start stop = [] := by
  rw [slice, Nat.sub_eq_zero_of_le order, take_zero]

variable {l : List α}

theorem slice_cons (before : start < stop) (inside : stop ≤ l.length) :
    slice l start stop = l[start] :: slice l (start + 1) stop := by
  rw [slice, drop_eq_getElem_cons (Nat.lt_of_lt_of_le before inside),
    show stop - start = (stop - (start + 1)) + 1 by omega, take_succ_cons, slice]

theorem slice_concat (before : start < stop) (inside : stop ≤ l.length) :
    slice l start stop = slice l start (stop - 1) ++ [l[stop - 1]] := by
  rw [slice, show stop - start = (stop - 1 - start) + 1 by omega, take_add_one,
    List.getElem?_drop, show start + (stop - 1 - start) = stop - 1 by omega,
    List.getElem?_eq_getElem (by omega), slice]
  rfl

theorem elt_eq {i : Nat} (inside : i < l.length) : elt l i = .ok l[i] := by
  rw [elt, List.getElem?_eq_getElem inside]

theorem eltSet_eq {i : Nat} (inside : i < l.length) (x : α) : eltSet l i x = .ok (l.set i x) :=
  if_pos inside

section Reduce

variable {function : Callee α} {key : α → α} {l : List α}

variable {start : Nat}

theorem reduceUp_eq {stop : Nat} (inside : stop ≤ l.length) (x : α) :
    reduceUp function key l start stop x =
      ((slice l start stop).map key).foldlM function.binary x := by
  induction left : stop - start generalizing start x with
  | zero =>
    rw [reduceUp, if_pos (by omega), slice_of_le l (by omega)]
    rfl
  | succ n ih =>
    rw [reduceUp, if_neg (by omega), elt_eq (by omega), Lib.ok_bind,
      slice_cons (by omega) inside, map_cons, foldlM_cons]
    exact bind_congr fun x => ih x (by omega)

theorem reduceDown_eq {stop : Nat} (inside : stop ≤ l.length) (x : α) :
    reduceDown function key l start stop x =
      ((slice l start stop).map key).foldrM function.binary x := by
  induction left : stop - start generalizing stop x with
  | zero =>
    rw [reduceDown, if_pos (by omega), slice_of_le l (by omega)]
    rfl
  | succ n ih =>
    rw [reduceDown, if_neg (by omega), elt_eq (by omega), Lib.ok_bind,
      slice_concat (by omega) inside, map_append, foldrM_append, map_singleton,
      foldrM_cons, foldrM_nil]
    exact bind_congr fun x => ih (by omega) x (by omega)

/-- The left or right fold of a function. Without an initial value the fold starts with the first
or the last element, and the function is called without arguments where there is none. -/
def folded (function : Callee α) (fromEnd : Bool) (initialValue : Option α) (xs : List α) :
    Except SeqError α :=
  match initialValue with
  | some x => if fromEnd then xs.foldrM function.binary x else xs.foldlM function.binary x
  | none =>
    if fromEnd then
      match xs.getLast? with
      | none => function.nullary
      | some x => xs.dropLast.foldrM function.binary x
    else
      match xs with
      | [] => function.nullary
      | x :: xs => xs.foldlM function.binary x

/-- From the end, and without an initial value, the last element is taken as it is. -/
def started (fromEnd : Bool) (key : α → α) (initialValue : Option α) (xs : List α) : List α :=
  if fromEnd && initialValue.isNone then xs.dropLast.map key ++ xs.getLast?.toList else xs.map key

theorem reduce_eq (function : Callee α) {sequence : Sequence α} (fromEnd : Bool)
    {stop : Option Nat} (bounded : sequence.Bounded start stop) (key : α → α)
    (initialValue : Option α) :
    reduce function sequence fromEnd start (argument stop) key initialValue =
      folded function fromEnd initialValue (started fromEnd key initialValue
        (slice sequence.elements start (stop.getD sequence.elements.length))) := by
  have inside := bounded.inside
  rw [reduce, sequenceLimits_of_bounded bounded, Lib.ok_bind]
  generalize stop.getD sequence.elements.length = stop at inside ⊢
  cases initialValue with
  | some x =>
    cases fromEnd with
    | false => exact reduceUp_eq inside x
    | true => exact reduceDown_eq inside x
  | none =>
    by_cases none : stop ≤ start
    · rw [slice_of_le _ none]
      cases fromEnd <;> simp [none, started, folded]
    · cases fromEnd with
      | false =>
        rw [slice_cons (by omega) inside]
        simp only [Bool.false_eq_true, if_false, none, started, folded, Bool.false_and, map_cons]
        rw [elt_eq (by omega), Lib.ok_bind, reduceUp_eq inside]
      | true =>
        rw [slice_concat (by omega) inside]
        simp only [if_true, none, if_false, started, folded, Bool.true_and, isNone_none,
          dropLast_concat, List.getLast?_concat, toList_some]
        rw [elt_eq (by omega), Lib.ok_bind, reduceDown_eq (by omega)]

end Reduce

/-- REDUCE is the fold over the keyed elements for every function, if and only if the key leaves the
last element as it is where that is the first argument from the end. -/
theorem reduce_folded_iff {sequence : Sequence α} (fromEnd : Bool) {start : Nat} {stop : Option Nat}
    (bounded : sequence.Bounded start stop) (key : α → α) (initialValue : Option α) :
    (∀ function, reduce function sequence fromEnd start (argument stop) key initialValue =
        folded function fromEnd initialValue
          ((slice sequence.elements start (stop.getD sequence.elements.length)).map key)) ↔
      (fromEnd = true → initialValue = none →
        ∀ x ∈ (slice sequence.elements start (stop.getD sequence.elements.length)).getLast?,
          key x = x) := by
  simp only [reduce_eq _ fromEnd bounded]
  generalize slice sequence.elements start (stop.getD sequence.elements.length) = xs
  cases fromEnd with
  | false => simp [started]
  | true =>
    cases initialValue with
    | some x => simp [started]
    | none =>
      rcases eq_nil_or_concat xs with rfl | ⟨front, last, rfl⟩
      · simp [started]
      · rw [concat_eq_append]
        simp only [started, Bool.true_and, Option.isNone_none, if_true, dropLast_concat,
          List.getLast?_concat, Option.toList_some, map_append, map_singleton,
          Option.mem_some_iff, forall_eq', true_implies]
        constructor
        · intro law
          -- The function that returns its second argument returns the first one it was given.
          have returned := law ⟨.error .size, fun _ x => .ok x⟩
          have ignores (ys : List α) (x : α) :
              ys.foldrM (m := Except SeqError) (fun _ x => .ok x) x = .ok x := by
            induction ys with
            | nil => rfl
            | cons y ys ih => rw [foldrM_cons, ih, Lib.ok_bind]
          simp only [folded, if_true, List.getLast?_concat, dropLast_concat, ignores,
            Except.ok.injEq] at returned
          exact returned.symm
        · intro kept function
          rw [kept]

/-- The list (1 2). -/
def oneTwo : Sequence Nat := .list ⟨[1, 2], by decide⟩

theorem oneTwo_bounded : oneTwo.Bounded 0 none := ⟨by decide, by decide⟩

theorem reduce_folded_iff_oneTwo :
    reduce ⟨.ok 0, fun x y => .ok (x + y)⟩ oneTwo false 0 none (10 * ·) none = .ok 30 :=
  (reduce_folded_iff false oneTwo_bounded (10 * ·) none).mpr nofun ⟨.ok 0, fun x y => .ok (x + y)⟩

/-- The last element is added without its key. -/
theorem reduce_fromEnd_unkeyed :
    reduce ⟨.ok 0, fun x y => .ok (x + y)⟩ oneTwo true 0 none (10 * ·) none = .ok 12 ∧
      folded ⟨.ok 0, fun x y => .ok (x + y)⟩ true none ([1, 2].map (10 * ·)) = .ok 30 :=
  ⟨reduce_eq ⟨.ok 0, fun x y => .ok (x + y)⟩ true oneTwo_bounded (10 * ·) none, rfl⟩

end Ecl.Sequences
