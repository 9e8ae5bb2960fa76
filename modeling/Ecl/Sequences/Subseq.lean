import Ecl.Number.IntegerLaw

/- SUBSEQ on lists and vectors. -/
namespace Ecl.Sequences

open Ecl.Number Except

/-- A list in memory: its length is a fixnum. -/
structure Conses (α : Type) where
  elements : List α
  counted : (elements.length : Int) ≤ mostPositiveFixnum

/-- A vector: all of its elements, and the fill pointer within them. -/
structure Vector (α : Type) where
  self : List α
  fillp : Nat
  inside : fillp ≤ self.length
  limited : (self.length : Int) ≤ mostPositiveFixnum

inductive Sequence (α : Type) where
  | list (l : Conses α)
  | vector (v : Vector α)

/-- The errors "Not a non-negative fixnum ~S" and "~S and ~S are illegal as :START and :END
for the sequence ~S." -/
inductive SubseqError where
  | notFixnnint (x : Integer)
  | illegalStartEnd
  deriving DecidableEq

def fixnnint (x : Integer) : Except SubseqError (BitVec 64) :=
  match x with
  | .fixnum n => if 0 ≤ (fix n).toInt then .ok (fix n) else .error (.notFixnnint x)
  | .bignum v =>
    if 0 ≤ v ∧ v < 2 ^ 64 then .ok (bigLimb v) else .error (.notFixnnint x)

section

variable {α : Type}

/-- The loop over the elements before the start. -/
def skip : Nat → List α → Option (List α)
  | 0, sequence => some sequence
  | _ + 1, [] => none
  | s + 1, _ :: rest => skip s rest

/-- The loop that copies elements of a list. -/
def copyConses : Nat → List α → Option (List α)
  | 0, _ => some []
  | _ + 1, [] => none
  | e + 1, x :: rest => (copyConses e rest).map (x :: ·)

/-- An atom where an element should be is an error. -/
def orIllegal (copied : Option (List α)) : Except SubseqError (List α) :=
  match copied with
  | none => .error .illegalStartEnd
  | some x => .ok x

/-- The case of a list. Both numbers are signed; a negative end is none. -/
def subseqList (sequence : List α) (s e : BitVec 64) : Except SubseqError (List α) :=
  match sequence with
  | [] =>
    if 0 < s.toInt then .error .illegalStartEnd
    else if 0 < e.toInt then .error .illegalStartEnd
    else .ok []
  | _ :: _ =>
    if 0 ≤ e.toInt ∧ (e - s).toInt < 0 then .error .illegalStartEnd
    else
      let e := if 0 ≤ e.toInt then e - s else e
      match skip s.toInt.toNat sequence with
      | none => .error .illegalStartEnd
      | some sequence =>
        if e.toInt < 0 then .ok sequence else orIllegal (copyConses e.toInt.toNat sequence)

/-- The loop of ecl_copy_subarray, which memcpy stands for where the elements are bytes. -/
def copyLoop (dest : List α) (i0 : Nat) (orig : List α) (i1 : Nat) : Nat → List α
  | 0 => dest
  | l + 1 =>
    match orig[i1]? with
    | none => copyLoop dest (i0 + 1) orig (i1 + 1) l
    | some x => copyLoop (dest.set i0 x) (i0 + 1) orig (i1 + 1) l

/-- The function ecl_copy_subarray. -/
def copySubarray (dest : List α) (i0 : Nat) (orig : List α) (i1 l : Nat) : List α :=
  let l := if dest.length < i0 + l then dest.length - i0 else l
  let l := if orig.length < i1 + l then orig.length - i1 else l
  copyLoop dest i0 orig i1 l

/-- The case of a vector; the fill pointer is unsigned. New elements are blank. -/
def subseqVector (blank : α) (sequence : Vector α) (s e : BitVec 64) :
    Except SubseqError (List α) :=
  if sequence.fillp < s.toNat then .error .illegalStartEnd
  else if 0 ≤ e.toInt ∧ (e.toInt < s.toInt ∨ sequence.fillp < e.toNat) then
    .error .illegalStartEnd
  else
    let e := if e.toInt < 0 then BitVec.ofNat 64 sequence.fillp else e
    let l := (e - s).toNat
    .ok (copySubarray (List.replicate l blank) 0 sequence.self s.toNat l)

/-- The cases of the type of the sequence. -/
def subseqWords (blank : α) (sequence : Sequence α) (s e : BitVec 64) :
    Except SubseqError (List α) :=
  match sequence with
  | .list l => subseqList l.elements s e
  | .vector v => subseqVector blank v s e

/-- The function subseq: the elements of the new list or vector. -/
def subseq (blank : α) (sequence : Sequence α) (start : Integer) (stop : Option Integer) :
    Except SubseqError (List α) := do
  let s ← fixnnint start
  match stop with
  | none => subseqWords blank sequence s (-1)
  | some stop =>
    let e ← fixnnint stop
    subseqWords blank sequence s e

end

namespace Sequence

variable {α : Type}

/-- The elements, up to the fill pointer. -/
def elements : Sequence α → List α
  | list l => l.elements
  | vector v => v.self.take v.fillp

def Within (sequence : Sequence α) (start : Int) (stop : Option Int) : Prop :=
  start ≤ stop.getD sequence.elements.length ∧
    stop.getD sequence.elements.length ≤ sequence.elements.length

/-- A result that is right: the elements from one bound to the other, or an error. -/
structure Selects (sequence : Sequence α) (start : Int) (stop : Option Int)
    (result : Except SubseqError (List α)) : Prop where
  returns : sequence.Within start stop →
    result = .ok ((sequence.elements.drop start.toNat).take
      ((stop.getD sequence.elements.length).toNat - start.toNat))
  refuses : ¬ sequence.Within start stop → ∃ error, result = .error error

end Sequence

/- Where SUBSEQ returns the elements between its bounds, and where it takes a bound of 2^63
or more for another one. -/

open Ecl.Number List Option Nat

section

variable {α : Type}

theorem skip_eq (s : Nat) (l : List α) :
    skip s l = if s ≤ l.length then some (l.drop s) else none := by
  induction s generalizing l with
  | zero => rw [skip, if_pos (zero_le _), drop_zero]
  | succ s ih =>
    cases l with
    | nil => rfl
    | cons x rest =>
      rw [skip, ih, length_cons, drop_succ_cons]
      simp only [add_le_add_iff_right]

theorem copyConses_eq (e : Nat) (l : List α) :
    copyConses e l = if e ≤ l.length then some (l.take e) else none := by
  induction e generalizing l with
  | zero => rw [copyConses, if_pos (zero_le _), take_zero]
  | succ e ih =>
    cases l with
    | nil => rfl
    | cons x rest =>
      rw [copyConses, ih, length_cons, take_succ_cons]
      simp only [add_le_add_iff_right]
      split
      · rfl
      · rfl

theorem copyLoop_eq {dest orig : List α} {i0 i1 l : Nat} (room : i0 + l ≤ dest.length)
    (inside : i1 + l ≤ orig.length) :
    copyLoop dest i0 orig i1 l =
      dest.take i0 ++ (orig.drop i1).take l ++ dest.drop (i0 + l) := by
  induction l generalizing dest i0 i1 with
  | zero => simp only [copyLoop, take_zero, append_nil, add_zero,
      take_append_drop]
  | succ l ih =>
    have here : i1 < orig.length := by omega
    have there : i0 < dest.length := by omega
    rw [copyLoop, List.getElem?_eq_getElem here]
    show copyLoop (dest.set i0 orig[i1]) (i0 + 1) orig (i1 + 1) l = _
    rw [ih (by rw [length_set]; omega) (by omega), drop_eq_getElem_cons here,
      take_succ_cons, drop_set_of_lt (by omega), take_add_one,
      List.getElem?_set_self there, take_set_of_le (le_refl i0)]
    simp only [toList_some, append_assoc, cons_append, nil_append,
      add_assoc, add_comm 1 l]

theorem copySubarray_eq {orig : List α} {i l : Nat} (blank : α) (inside : i + l ≤ orig.length) :
    copySubarray (List.replicate l blank) 0 orig i l = (orig.drop i).take l := by
  have length : (List.replicate l blank).length = l := length_replicate
  have rest : (List.replicate l blank).drop l = [] := drop_eq_nil_of_le (by omega)
  unfold copySubarray
  simp only [length]
  rw [if_neg (show ¬ l < 0 + l by omega), if_neg (show ¬ orig.length < i + l by omega),
    copyLoop_eq (by omega) inside, zero_add, take_zero, nil_append, rest,
    append_nil]

end

theorem fixnnint_eq {x : Integer} (canonical : x.Canonical) (nonneg : 0 ≤ x.value) :
    fixnnint x = if x.value < 2 ^ 64 then .ok (BitVec.ofNat 64 x.value.toNat)
      else .error (.notFixnnint x) := by
  have high := mostPositiveFixnum_eq
  cases x with
  | fixnum n =>
    have range := fixnum_range n
    have value : (Integer.fixnum n).value = n.toInt := rfl
    have word := Integer.toNat_of_nonneg (i := fix n) (by rw [toInt_fix]; omega)
    rw [toInt_fix] at word
    rw [value] at nonneg ⊢
    have same : fix n = BitVec.ofNat 64 n.toInt.toNat := by
      apply BitVec.eq_of_toNat_eq
      rw [BitVec.toNat_ofNat]
      omega
    rw [fixnnint, toInt_fix, if_pos nonneg, if_pos (by omega), ← same]
  | bignum v =>
    have value : (Integer.bignum v).value = v := rfl
    rw [value] at nonneg ⊢
    have size : v.natAbs = v.toNat := by omega
    simp only [fixnnint, nonneg, true_and, bigLimb, size]

/-- A number that is negative as a signed word. -/
def Wraps (n : Int) : Prop := 2 ^ 63 ≤ n ∧ n < 2 ^ 64

/-- The bounds that SUBSEQ takes for others, without an error: an end that is taken for
none, or a start of a list that is taken for zero. -/
def Sequence.Mistakes {α : Type} (sequence : Sequence α) (start : Int) (stop : Option Int) : Prop :=
  match sequence with
  | .vector v => start ≤ v.fillp ∧ ∃ e, stop = some e ∧ Wraps e
  | .list l =>
    start ≤ l.elements.length ∧ (∃ e, stop = some e ∧ Wraps e) ∨
    Wraps start ∧ (stop = none ∨ (∃ e, stop = some e ∧ Wraps e) ∨
      ∃ e, stop = some e ∧ e < 2 ^ 63 ∧
        (l.elements = [] ∧ e = 0 ∨
          l.elements ≠ [] ∧ e + 2 ^ 64 - start ≤ l.elements.length))

def endWord (stop : Option Nat) : BitVec 64 :=
  match stop with
  | none => -1
  | some e => BitVec.ofNat 64 e

theorem toInt_word {n : Nat} (small : n < 2 ^ 64) :
    (BitVec.ofNat 64 n).toNat = n ∧
      (BitVec.ofNat 64 n).toInt = if n < 2 ^ 63 then (n : Int) else n - 2 ^ 64 := by
  have word : (BitVec.ofNat 64 n).toNat = n := by
    rw [BitVec.toNat_ofNat]
    omega
  refine ⟨word, ?_⟩
  rw [BitVec.toInt_eq_toNat_cond, word]
  split <;> split <;> omega

section

variable {α : Type}

theorem subseqList_cons (x : α) (rest : List α) (s e : BitVec 64) :
    subseqList (x :: rest) s e =
      if 0 ≤ e.toInt then
        if (e - s).toInt < 0 then .error .illegalStartEnd
        else if s.toInt.toNat + (e - s).toInt.toNat ≤ (x :: rest).length then
          .ok (((x :: rest).drop s.toInt.toNat).take (e - s).toInt.toNat)
        else .error .illegalStartEnd
      else if s.toInt.toNat ≤ (x :: rest).length then .ok ((x :: rest).drop s.toInt.toNat)
      else .error .illegalStartEnd := by
  rw [subseqList, skip_eq]
  by_cases given : 0 ≤ e.toInt
  · simp only [given, true_and, if_true]
    by_cases order : (e - s).toInt < 0
    · rw [if_pos order, if_pos order]
    · rw [if_neg order, if_neg order]
      by_cases inside : s.toInt.toNat ≤ (x :: rest).length
      · rw [if_pos inside]
        simp only [order, if_false, copyConses_eq, length_drop]
        by_cases enough : (e - s).toInt.toNat ≤ (x :: rest).length - s.toInt.toNat
        · rw [if_pos enough, if_pos (by omega)]
          rfl
        · rw [if_neg enough, if_neg (by omega)]
          rfl
      · rw [if_neg inside, if_neg (by omega)]
  · simp only [given, false_and, if_false]
    by_cases inside : s.toInt.toNat ≤ (x :: rest).length
    · simp only [inside, if_true]
      rw [if_pos (by omega)]
    · simp only [inside, if_false]

/-- The elements from a start that is no negative word. -/
def selected (l : List α) (start : Nat) (e : BitVec 64) : Except SubseqError (List α) :=
  if 0 ≤ e.toInt then
    if start ≤ e.toNat ∧ e.toNat ≤ l.length then .ok ((l.drop start).take (e.toNat - start))
    else .error .illegalStartEnd
  else if start ≤ l.length then .ok (l.drop start)
  else .error .illegalStartEnd

theorem subseqList_small (l : List α) {start : Nat} (small : start < 2 ^ 63) (e : BitVec 64) :
    subseqList l (BitVec.ofNat 64 start) e = selected l start e := by
  unfold selected
  have ⟨word, value⟩ := toInt_word (n := start) (by omega)
  rw [if_pos small] at value
  have valueE := BitVec.toInt_eq_toNat_cond e
  have difference : 0 ≤ e.toInt →
      (e - BitVec.ofNat 64 start).toInt = (e.toNat : Int) - start := by
    intro given
    rw [BitVec.toInt_eq_toNat_cond, BitVec.toNat_sub, word]
    split at valueE <;> split <;> omega
  cases l with
  | nil =>
    rw [subseqList, value, length_nil, drop_nil, take_nil]
    by_cases later : 0 < start
    · rw [if_pos (by omega)]
      split
      · rw [if_neg (by omega)]
      · rw [if_neg (by omega)]
    · rw [if_neg (by omega)]
      by_cases given : 0 ≤ e.toInt
      · rw [if_pos given]
        by_cases some : 0 < e.toInt
        · rw [if_pos some, if_neg (by split at valueE <;> omega)]
        · rw [if_neg some, if_pos (by split at valueE <;> omega)]
      · rw [if_neg given, if_neg (by omega), if_pos (by omega)]
  | cons x rest =>
    rw [subseqList_cons, value, Int.toNat_natCast]
    by_cases given : 0 ≤ e.toInt
    · rw [if_pos given, if_pos given, difference given]
      by_cases order : start ≤ e.toNat
      · have places : ((e.toNat : Int) - start).toNat = e.toNat - start := by omega
        rw [if_neg (by omega), places]
        by_cases inside : e.toNat ≤ (x :: rest).length
        · rw [if_pos (by omega), if_pos ⟨order, inside⟩]
        · rw [if_neg (by omega), if_neg (mt And.right inside)]
      · rw [if_pos (by omega), if_neg (mt And.left order)]
    · rw [if_neg given, if_neg given]

/-- A list from a start that is a negative word, which the first loop takes for zero. -/
theorem subseqList_wraps (x : α) (rest : List α) {start : Nat} (low : 2 ^ 63 ≤ start)
    (high : start < 2 ^ 64) (short : (x :: rest).length < 2 ^ 63) (e : BitVec 64) :
    subseqList (x :: rest) (BitVec.ofNat 64 start) e =
      if 0 ≤ e.toInt then
        if e.toNat + 2 ^ 64 - start ≤ (x :: rest).length then
          .ok ((x :: rest).take (e.toNat + 2 ^ 64 - start))
        else .error .illegalStartEnd
      else .ok (x :: rest) := by
  have ⟨word, value⟩ := toInt_word high
  rw [if_neg (by omega)] at value
  have none : (BitVec.ofNat 64 start).toInt.toNat = 0 := by omega
  have valueE := BitVec.toInt_eq_toNat_cond e
  rw [subseqList_cons, none, drop_zero, if_pos (zero_le _), zero_add]
  by_cases given : 0 ≤ e.toInt
  · have difference : (e - BitVec.ofNat 64 start).toInt =
        if e.toNat + 2 ^ 64 - start < 2 ^ 63 then ((e.toNat + 2 ^ 64 - start : Nat) : Int)
        else ((e.toNat + 2 ^ 64 - start : Nat) : Int) - 2 ^ 64 := by
      rw [BitVec.toInt_eq_toNat_cond, BitVec.toNat_sub, word]
      split at valueE <;> split <;> split <;> omega
    rw [if_pos given, if_pos given, difference]
    by_cases fits : e.toNat + 2 ^ 64 - start < 2 ^ 63
    · rw [if_pos fits, if_neg (by omega), Int.toNat_natCast]
    · rw [if_neg fits, if_pos (by split at valueE <;> omega), if_neg (by omega)]
  · rw [if_neg given, if_neg given]

theorem subseqVector_eq (blank : α) (v : Vector α) {start : Nat} (high : start < 2 ^ 64)
    (e : BitVec 64) :
    subseqVector blank v (BitVec.ofNat 64 start) e = selected (v.self.take v.fillp) start e := by
  have ⟨word, value⟩ := toInt_word high
  have valueE := BitVec.toInt_eq_toNat_cond e
  have limit := mostPositiveFixnum_eq
  have inside := v.inside
  have limited := v.limited
  have length : (v.self.take v.fillp).length = v.fillp := by
    rw [length_take]
    omega
  unfold selected
  rw [subseqVector, word, length]
  by_cases after : v.fillp < start
  · rw [if_pos after]
    split
    · rw [if_neg (by omega)]
    · rw [if_neg (by omega)]
  · rw [if_neg after]
    rw [if_pos (by omega)] at value
    -- The new vector has the elements from the start to the end that is found.
    have copied (n : Nat) (order : start ≤ n) (within : n ≤ v.fillp) (w : BitVec 64)
        (same : w.toNat = n) :
        copySubarray (List.replicate (w - BitVec.ofNat 64 start).toNat blank) 0 v.self start
          (w - BitVec.ofNat 64 start).toNat =
            ((v.self.take v.fillp).drop start).take (n - start) := by
      have count : (w - BitVec.ofNat 64 start).toNat = n - start := by
        rw [BitVec.toNat_sub, word]
        omega
      rw [count, copySubarray_eq blank (by omega), drop_take, take_take,
        min_eq_left (by omega)]
    by_cases given : 0 ≤ e.toInt
    · rw [if_pos given]
      by_cases order : start ≤ e.toNat ∧ e.toNat ≤ v.fillp
      · rw [if_neg (by split at valueE <;> omega), if_pos order, if_neg (by omega)]
        exact congrArg ok (copied e.toNat order.1 order.2 e rfl)
      · rw [if_pos (by split at valueE <;> omega), if_neg order]
    · rw [if_neg given, if_neg (mt And.left given), if_pos (by omega), if_pos (by omega)]
      have end' : (BitVec.ofNat 64 v.fillp).toNat = v.fillp := (toInt_word (by omega)).1
      have whole := copied v.fillp (by omega) (le_refl _) _ end'
      rw [take_of_length_le (by rw [length_drop]; omega)] at whole
      exact congrArg ok whole

end

namespace Sequence

variable {α : Type} {sequence : Sequence α} {start : Int} {stop : Option Int}

theorem selects_ok_iff (x : List α) :
    sequence.Selects start stop (.ok x) ↔ sequence.Within start stop ∧
      x = (sequence.elements.drop start.toNat).take
        ((stop.getD sequence.elements.length).toNat - start.toNat) := by
  constructor
  · intro selects
    have within : sequence.Within start stop := by
      by_contra outside
      obtain ⟨error, failed⟩ := selects.refuses outside
      cases failed
    exact ⟨within, Except.ok.inj (selects.returns within)⟩
  · intro ⟨within, same⟩
    exact ⟨fun _ => congrArg ok same, fun outside => absurd within outside⟩

theorem selects_error_iff (error : SubseqError) :
    sequence.Selects start stop (.error error) ↔ ¬ sequence.Within start stop := by
  constructor
  · intro selects within
    cases selects.returns within
  · intro outside
    exact ⟨fun within => absurd within outside, fun _ => ⟨error, rfl⟩⟩

end Sequence

theorem elements_length_le {α : Type} (sequence : Sequence α) :
    sequence.elements.length < 2 ^ 61 := by
  have limit := mostPositiveFixnum_eq
  cases sequence with
  | list l =>
    have counted := l.counted
    show l.elements.length < 2 ^ 61
    omega
  | vector v =>
    have inside := v.inside
    have limited := v.limited
    show (v.self.take v.fillp).length < 2 ^ 61
    rw [length_take]
    omega

theorem selected_selects {α : Type} (sequence : Sequence α) (start : Nat) (stop : Option Nat)
    (high : ∀ e, stop = some e → e < 2 ^ 64) :
    sequence.Selects start (stop.map Nat.cast)
        (selected sequence.elements start (endWord stop)) ↔
      ¬ (start ≤ sequence.elements.length ∧ ∃ e, stop = some e ∧ 2 ^ 63 ≤ e) := by
  have length := elements_length_le sequence
  unfold selected
  cases stop with
  | none =>
    have negative : ¬ 0 ≤ (endWord none).toInt := by decide
    have within : sequence.Within start none ↔ start ≤ sequence.elements.length := by
      show (start : Int) ≤ sequence.elements.length ∧
        (sequence.elements.length : Int) ≤ sequence.elements.length ↔ _
      omega
    have noEnd : ¬ (start ≤ sequence.elements.length ∧
        ∃ e, (none : Option Nat) = some e ∧ 2 ^ 63 ≤ e) := by
      intro ⟨_, e, impossible, _⟩
      cases impossible
    rw [if_neg negative]
    by_cases inside : start ≤ sequence.elements.length
    · rw [if_pos inside, Sequence.selects_ok_iff]
      refine iff_of_true ⟨within.mpr inside, ?_⟩ noEnd
      show _ = (sequence.elements.drop start).take (sequence.elements.length - start)
      rw [take_of_length_le (by rw [length_drop])]
    · rw [if_neg inside, Sequence.selects_error_iff]
      exact iff_of_true (mt within.mp inside) noEnd
  | some e =>
    have ⟨word, value⟩ := toInt_word (high e rfl)
    have within : sequence.Within start (some (e : Int)) ↔
        start ≤ e ∧ e ≤ sequence.elements.length := by
      show (start : Int) ≤ e ∧ (e : Int) ≤ sequence.elements.length ↔ _
      omega
    have mistaken : (start ≤ sequence.elements.length ∧
        ∃ e', some e = some e' ∧ 2 ^ 63 ≤ e') ↔
        start ≤ sequence.elements.length ∧ 2 ^ 63 ≤ e := by
      simp only [some.injEq, exists_eq_left']
    rw [show endWord (some e) = BitVec.ofNat 64 e from rfl, mistaken, map_some]
    simp only [word]
    by_cases small : e < 2 ^ 63
    · rw [if_pos small] at value
      rw [if_pos (by omega)]
      by_cases inside : start ≤ e ∧ e ≤ sequence.elements.length
      · rw [if_pos inside, Sequence.selects_ok_iff]
        exact iff_of_true ⟨within.mpr inside, rfl⟩ (by omega)
      · rw [if_neg inside, Sequence.selects_error_iff]
        exact iff_of_true (mt within.mp inside) (by omega)
    · rw [if_neg small] at value
      have large := high e rfl
      rw [if_neg (by omega)]
      by_cases inside : start ≤ sequence.elements.length
      · rw [if_pos inside, Sequence.selects_ok_iff]
        refine iff_of_false ?_ (by omega)
        intro both
        have bounds := within.mp both.1
        omega
      · rw [if_neg inside, Sequence.selects_error_iff]
        exact iff_of_true (mt within.mp (by omega)) (by omega)

theorem wraps_selects {α : Type} (l : Conses α) {start : Nat} (low : 2 ^ 63 ≤ start)
    (high : start < 2 ^ 64) (stop : Option Nat) (highStop : ∀ e, stop = some e → e < 2 ^ 64) :
    (Sequence.list l).Selects start (stop.map Nat.cast)
        (subseqList l.elements (BitVec.ofNat 64 start) (endWord stop)) ↔
      ¬ (stop = none ∨ (∃ e, stop = some e ∧ 2 ^ 63 ≤ e) ∨
        ∃ e, stop = some e ∧ e < 2 ^ 63 ∧ (l.elements = [] ∧ e = 0 ∨
          l.elements ≠ [] ∧ e + 2 ^ 64 - start ≤ l.elements.length)) := by
  have length : l.elements.length < 2 ^ 61 := elements_length_le (.list l)
  have outside (stop : Option Int) : ¬ (Sequence.list l).Within start stop := by
    intro ⟨below, above⟩
    have short : ((Sequence.list l).elements.length : Int) < 2 ^ 61 := by exact_mod_cast length
    omega
  -- Every answer is an error, so that one is right exactly when it is an error.
  have right (result : Except SubseqError (List α)) :
      (Sequence.list l).Selects start (stop.map Nat.cast) result ↔
        ∀ x, result ≠ .ok x := by
    cases result with
    | ok x =>
      rw [Sequence.selects_ok_iff]
      exact iff_of_false (fun both => outside _ both.1) (fun none => none x rfl)
    | error error =>
      rw [Sequence.selects_error_iff]
      exact iff_of_true (outside _) nofun
  rw [right]
  have ⟨_, value⟩ := toInt_word high
  rw [if_neg (by omega)] at value
  cases elements : l.elements with
  | nil =>
    rw [subseqList, if_neg (by omega)]
    cases stop with
    | none =>
      rw [if_neg (show ¬ 0 < (endWord none).toInt by decide)]
      exact iff_of_false (fun none => none [] rfl) (not_not_intro (.inl rfl))
    | some e =>
      have ⟨_, valueE⟩ := toInt_word (highStop e rfl)
      show (∀ x, (if 0 < (BitVec.ofNat 64 e).toInt then _ else _) ≠ _) ↔ _
      simp only [reduceCtorEq, false_or, some.injEq, exists_eq_left', true_and, ne_eq,
        not_true_eq_false, false_and, or_false]
      by_cases later : 0 < (BitVec.ofNat 64 e).toInt
      · rw [if_pos later]
        exact iff_of_true nofun (by split at valueE <;> omega)
      · rw [if_neg later]
        exact iff_of_false (fun none => none [] rfl) (by split at valueE <;> omega)
  | cons x rest =>
    rw [elements] at length
    rw [subseqList_wraps x rest low high (by omega)]
    cases stop with
    | none =>
      rw [if_neg (show ¬ 0 ≤ (endWord none).toInt by decide)]
      exact iff_of_false (fun none => none _ rfl) (not_not_intro (.inl rfl))
    | some e =>
      have ⟨word, valueE⟩ := toInt_word (highStop e rfl)
      show (∀ y, (if 0 ≤ (BitVec.ofNat 64 e).toInt then _ else _) ≠ _) ↔ _
      simp only [reduceCtorEq, false_or, some.injEq, exists_eq_left', false_and, ne_eq,
        not_false_eq_true, true_and]
      by_cases small : e < 2 ^ 63
      · rw [if_pos small] at valueE
        rw [if_pos (by omega)]
        simp only [show endWord (some e) = BitVec.ofNat 64 e from rfl, word]
        by_cases inside : e + 2 ^ 64 - start ≤ (x :: rest).length
        · rw [if_pos inside]
          exact iff_of_false (fun none => none _ rfl) (by omega)
        · rw [if_neg inside]
          exact iff_of_true nofun (by omega)
      · rw [if_neg small] at valueE
        have large := highStop e rfl
        rw [if_neg (by omega)]
        exact iff_of_false (fun none => none _ rfl) (by omega)

theorem subseqWords_selects {α : Type} (blank : α) (sequence : Sequence α) (start : Nat)
    (high : start < 2 ^ 64) (stop : Option Nat) (highStop : ∀ e, stop = some e → e < 2 ^ 64) :
    sequence.Selects start (stop.map Nat.cast)
        (subseqWords blank sequence (BitVec.ofNat 64 start) (endWord stop)) ↔
      ¬ sequence.Mistakes start (stop.map Nat.cast) := by
  have length := elements_length_le sequence
  have wraps : (∃ e : Int, stop.map Nat.cast = some e ∧ Wraps e) ↔
      ∃ e, stop = some e ∧ 2 ^ 63 ≤ e := by
    cases stop with
    | none => exact iff_of_false (by rintro ⟨e, ⟨⟩, _⟩) (by rintro ⟨e, ⟨⟩, _⟩)
    | some e =>
      have large := highStop e rfl
      simp only [map_some, some.injEq, exists_eq_left', Wraps]
      omega
  cases sequence with
  | vector v =>
    have count : (Sequence.vector v).elements.length = v.fillp := by
      have inside := v.inside
      show (v.self.take v.fillp).length = v.fillp
      rw [length_take]
      omega
    have spec := selected_selects (.vector v) start stop highStop
    rw [count] at spec
    rw [subseqWords, subseqVector_eq blank v high, Sequence.Mistakes, wraps]
    exact spec.trans (by rw [cast_le])
  | list l =>
    have spec := selected_selects (.list l) start stop highStop
    by_cases small : start < 2 ^ 63
    · have notWraps : ¬ Wraps (start : Int) := by
        intro ⟨low, _⟩
        omega
      rw [subseqWords, subseqList_small l.elements small, Sequence.Mistakes, wraps]
      simp only [notWraps, false_and, or_false, cast_le]
      exact spec
    · have isWrapped : Wraps (start : Int) := ⟨by omega, by omega⟩
      have after : ¬ (start : Int) ≤ l.elements.length := by
        have short : l.elements.length < 2 ^ 61 := length
        omega
      have noEnd : stop.map (Nat.cast : Nat → Int) = none ↔ stop = none := map_eq_none_iff
      have few : (∃ e : Int, stop.map Nat.cast = some e ∧ e < 2 ^ 63 ∧
          (l.elements = [] ∧ e = 0 ∨
            l.elements ≠ [] ∧ e + 2 ^ 64 - start ≤ l.elements.length)) ↔
          ∃ e, stop = some e ∧ e < 2 ^ 63 ∧ (l.elements = [] ∧ e = 0 ∨
            l.elements ≠ [] ∧ e + 2 ^ 64 - start ≤ l.elements.length) := by
        cases stop with
        | none => exact iff_of_false (by rintro ⟨e, ⟨⟩, _⟩) (by rintro ⟨e, ⟨⟩, _⟩)
        | some e =>
          have count : (e : Int) + 2 ^ 64 - start ≤ l.elements.length ↔
              e + 2 ^ 64 - start ≤ l.elements.length := by omega
          have below : (e : Int) < 2 ^ 63 ↔ e < 2 ^ 63 := by omega
          simp only [map_some, some.injEq, exists_eq_left', count, below,
            cast_eq_zero]
      rw [subseqWords, Sequence.Mistakes, wraps, noEnd, few]
      simp only [after, false_and, isWrapped, true_and, false_or]
      exact wraps_selects l (by omega) high stop highStop

section Large

variable {α : Type} (sequence : Sequence α)

/-- A start that no word holds is neither within the sequence nor mistaken for another. -/
theorem large_start {start : Int} (large : 2 ^ 64 ≤ start) (stop : Option Int) :
    ¬ sequence.Within start stop ∧ ¬ sequence.Mistakes start stop := by
  have length := elements_length_le sequence
  constructor
  · intro ⟨below, above⟩
    omega
  · have notWraps : ¬ Wraps start := by
      intro ⟨_, high⟩
      omega
    cases sequence with
    | vector v =>
      have inside := v.inside
      have limited := v.limited
      have limit := mostPositiveFixnum_eq
      intro ⟨below, _⟩
      omega
    | list l =>
      have short : l.elements.length < 2 ^ 61 := length
      intro mistakes
      rcases mistakes with ⟨below, _⟩ | ⟨wraps, _⟩
      · omega
      · exact notWraps wraps

theorem large_stop {e : Int} (large : 2 ^ 64 ≤ e) (start : Int) :
    ¬ sequence.Within start (some e) ∧ ¬ sequence.Mistakes start (some e) := by
  have length := elements_length_le sequence
  have notWraps : ¬ ∃ e', some e = some e' ∧ Wraps e' := by
    rintro ⟨_, ⟨⟩, _, high⟩
    omega
  constructor
  · intro ⟨_, above⟩
    have bound : e ≤ sequence.elements.length := above
    omega
  · cases sequence with
    | vector v => exact mt And.right notWraps
    | list l =>
      intro mistakes
      rcases mistakes with ⟨_, wraps⟩ | ⟨_, none | wraps | ⟨_, ⟨⟩, small, _⟩⟩
      · exact notWraps wraps
      · cases none
      · exact notWraps wraps
      · omega

end Large

/-- SUBSEQ selects the elements between bounds, and refuses all others, exactly where it
does not take a bound above 2^63 for another. -/
theorem subseq_exact {α : Type} (blank : α) (sequence : Sequence α) {start : Integer}
    {stop : Option Integer} (canonical : start.Canonical) (nonneg : 0 ≤ start.value)
    (canonicalStop : ∀ e, stop = some e → e.Canonical)
    (nonnegStop : ∀ e, stop = some e → 0 ≤ e.value) :
    sequence.Selects start.value (stop.map Integer.value) (subseq blank sequence start stop) ↔
      ¬ sequence.Mistakes start.value (stop.map Integer.value) := by
  have wordStart := fixnnint_eq canonical nonneg
  by_cases highStart : start.value < 2 ^ 64
  · rw [if_pos highStart] at wordStart
    have numeral : (start.value.toNat : Int) = start.value := Int.toNat_of_nonneg nonneg
    have words (stop' : Option Nat) := subseqWords_selects blank sequence start.value.toNat
      (by omega) stop'
    rw [numeral] at words
    cases stop with
    | none =>
      have exact := words none nofun
      rw [subseq, wordStart]
      exact exact
    | some e =>
      have wordStop := fixnnint_eq (canonicalStop e rfl) (nonnegStop e rfl)
      have numeralStop : (e.value.toNat : Int) = e.value :=
        Int.toNat_of_nonneg (nonnegStop e rfl)
      rw [Option.map_some]
      by_cases highStop : e.value < 2 ^ 64
      · rw [if_pos highStop] at wordStop
        have exact := words (some e.value.toNat) (by
          intro _ same
          cases same
          omega)
        rw [Option.map_some, numeralStop] at exact
        rw [subseq, wordStart]
        show sequence.Selects _ _ (fixnnint e >>= _) ↔ _
        rw [wordStop]
        exact exact
      · rw [if_neg highStop] at wordStop
        have ⟨outside, exact⟩ := large_stop sequence (not_lt.mp highStop) start.value
        rw [subseq, wordStart]
        show sequence.Selects _ _ (fixnnint e >>= _) ↔ _
        rw [wordStop]
        exact iff_of_true ((Sequence.selects_error_iff _).mpr outside) exact
  · rw [if_neg highStart] at wordStart
    have ⟨outside, exact⟩ := large_start sequence (not_lt.mp highStart)
      (stop.map Integer.value)
    rw [subseq, wordStart]
    exact iff_of_true ((Sequence.selects_error_iff _).mpr outside) exact

theorem subseq_exact_middle :
    (Sequence.vector ⟨[7, 8, 9], 2, by decide, by decide⟩).Selects (makeFixnum 1).value
      ((some (makeFixnum 2)).map Integer.value)
      (subseq 0 (.vector ⟨[7, 8, 9], 2, by decide, by decide⟩) (makeFixnum 1)
        (some (makeFixnum 2))) := by
  apply (subseq_exact 0 (.vector ⟨[7, 8, 9], 2, by decide, by decide⟩)
    (show (makeFixnum 1).Canonical from trivial) (by decide) ?_ ?_).mpr
  · intro ⟨_, e, same, wraps, _⟩
    cases same
    exact absurd wraps (by decide)
  · intro e same
    cases same
    trivial
  · intro e same
    cases same
    decide

/-- An end of 2^63 is taken for none, although the vector has three elements. -/
theorem end_taken_for_none :
    ¬ ∀ (sequence : Sequence Nat) (start : Integer) (stop : Option Integer), start.Canonical →
      0 ≤ start.value → (∀ e, stop = some e → e.Canonical) →
      (∀ e, stop = some e → 0 ≤ e.value) →
      sequence.Selects start.value (stop.map Integer.value) (subseq 0 sequence start stop) := by
  intro all
  have selects := all (.vector ⟨[7, 8, 9], 3, by decide, by decide⟩) (makeFixnum 0)
    (some (.bignum (2 ^ 63))) trivial (by decide)
    (fun e same => by cases same; decide) (fun e same => by cases same; decide)
  have returned : subseq 0 (.vector ⟨[7, 8, 9], 3, by decide, by decide⟩) (makeFixnum 0)
      (some (.bignum (2 ^ 63))) = .ok [7, 8, 9] := by decide +kernel
  rw [returned, Sequence.selects_ok_iff] at selects
  exact absurd selects.1.2 (by decide)

end Ecl.Sequences
