import Ecl.Lib.Except
import Ecl.Sequences.Subseq

/- The functions of seqlib.lsp on lists and vectors. A loop of the source over the indices of a
sequence is a recursion or a fold over them; where its variable goes down to -1 the model counts
one more. -/
namespace Ecl.Sequences

open Ecl.Number (mostPositiveFixnum)

inductive SeqError where
  | invalidStart
  | invalidEnd
  | startAfterEnd
  | index (i : Nat)
  | size
  /-- A store outside of an array, which signals nothing. -/
  | overrun
  /-- What a function that is called signals. -/
  | signalled (datum : Nat)
  deriving DecidableEq

/-- The arguments :TEST and :TEST-NOT, not both of them, and EQL. -/
structure Tests (κ : Type) where
  test : Option (κ → κ → Bool)
  testNot : Option (κ → κ → Bool)
  eql : κ → κ → Bool
  notBoth : test = none ∨ testNot = none

section

variable {α κ : Type}

/-- The local macro of with-tests. -/
def Tests.compare (tests : Tests κ) (v1 v2 : κ) : Bool :=
  match tests.test, tests.testNot with
  | some test, _ => test v1 v2
  | none, some testNot => !testNot v1 v2
  | none, none => tests.eql v1 v2

/-- The function sequence-limits; its two checks are for non-negative fixnums. -/
def sequenceLimits (start : Option Int) (stop : Option Int) (l : Nat) :
    Except SeqError (Nat × Nat) :=
  match start with
  | none => .error .invalidStart
  | some x0 =>
    if 0 ≤ x0 ∧ x0 ≤ mostPositiveFixnum then
      match stop with
      | some x1 =>
        if 0 ≤ x1 ∧ x1 ≤ mostPositiveFixnum then
          if x0 ≤ x1 then .ok (x0.toNat, x1.toNat) else .error .startAfterEnd
        else .error .invalidEnd
      | none => if x0 ≤ l then .ok (x0.toNat, l) else .error .startAfterEnd
    else .error .invalidStart

def elt (sequence : List α) (i : Nat) : Except SeqError α :=
  match sequence[i]? with
  | some x => .ok x
  | none => .error (.index i)

/-- (SETF ELT). -/
def eltSet (sequence : List α) (i : Nat) (x : α) : Except SeqError (List α) :=
  if i < sequence.length then .ok (sequence.set i x) else .error (.index i)

/-- The function that REDUCE is given, called without arguments and with two. -/
structure Callee (α : Type) where
  nullary : Except SeqError α
  binary : α → α → Except SeqError α

def reduceUp (function : Callee α) (key : α → α) (sequence : List α) (start stop : Nat) (x : α) :
    Except SeqError α :=
  if stop ≤ start then .ok x
  else do
    let y ← elt sequence start
    let x ← function.binary x (key y)
    reduceUp function key sequence (start + 1) stop x
termination_by stop - start

def reduceDown (function : Callee α) (key : α → α) (sequence : List α) (start stop : Nat) (x : α) :
    Except SeqError α :=
  if stop ≤ start then .ok x
  else do
    let y ← elt sequence (stop - 1)
    let x ← function.binary (key y) x
    reduceDown function key sequence start (stop - 1) x
termination_by stop - start

def reduce (function : Callee α) (sequence : Sequence α) (fromEnd : Bool) (start : Int)
    (stop : Option Int) (key : α → α) (initialValue : Option α) : Except SeqError α := do
  let (start, stop) ← sequenceLimits (some start) stop sequence.elements.length
  if fromEnd then
    match initialValue with
    | some x => reduceDown function key sequence.elements start stop x
    | none =>
      if stop ≤ start then function.nullary
      else do
        let x ← elt sequence.elements (stop - 1)
        reduceDown function key sequence.elements start (stop - 1) x
  else
    match initialValue with
    | some x => reduceUp function key sequence.elements start stop x
    | none =>
      if stop ≤ start then function.nullary
      else do
        let x ← elt sequence.elements start
        reduceUp function key sequence.elements (start + 1) stop (key x)

/-- The loop of FILL through the conses of a list; RPLACA refuses NIL. -/
def fillConses (item : α) : Nat → Nat → List α → Except SeqError (List α)
  | 0, _, x => .ok x
  | _ + 1, i, [] => .error (.index i)
  | n + 1, i, _ :: x => do
      let x ← fillConses item n (i + 1) x
      return item :: x

/-- The loops of si_fill_array_with_elt, which do not look at the end of the array. -/
def fillArrayWithElt (self : List α) (item : α) (first last : Nat) : Except SeqError (List α) :=
  if last ≤ first then .ok self
  else if last ≤ self.length then
    .ok (self.take first ++ List.replicate (last - first) item ++ self.drop last)
  else .error .overrun

/-- FILL: the elements of the list, or all elements of the vector. -/
def fill (sequence : Sequence α) (item : α) (start : Int) (stop : Option Int) :
    Except SeqError (List α) := do
  let (start, stop) ← sequenceLimits (some start) stop sequence.elements.length
  match sequence with
  | .list l => do
      let x ← fillConses item (stop - start) start (l.elements.drop start)
      return l.elements.take start ++ x
  | .vector v => fillArrayWithElt v.self item start stop

/-- The two loops of REPLACE, over the numbers from 0 on. The elements of the second sequence are
those of the first where both are one sequence. -/
def replaceLoop (same : Bool) (sequence2 : List α) (s1 s2 : Nat) (sequence1 : List α) :
    List Nat → Except SeqError (List α)
  | [] => .ok sequence1
  | i :: is => do
      let x ← elt (if same then sequence1 else sequence2) (s2 + i)
      let sequence1 ← eltSet sequence1 (s1 + i) x
      replaceLoop same sequence2 s1 s2 sequence1 is

def replace (same : Bool) (sequence1 sequence2 : Sequence α) (start1 : Int) (end1 : Option Int)
    (start2 : Int) (end2 : Option Int) : Except SeqError (List α) := do
  let (start1, end1) ← sequenceLimits (some start1) end1 sequence1.elements.length
  let (start2, end2) ← sequenceLimits (some start2) end2 sequence2.elements.length
  let l := if end1 - start1 < end2 - start2 then end1 - start1 else end2 - start2
  let up := List.range l
  replaceLoop same sequence2.elements start1 start2 sequence1.elements
    (if same && start2 < start1 then up.reverse else up)

/-- The values of i in iterate-i and endp-i. -/
def indices (fromEnd : Bool) (start stop : Nat) : List Nat :=
  if fromEnd then (List.range' start (stop - start)).reverse else List.range' start (stop - start)

def satisfiesTheTest (tests : Tests κ) (key : α → κ) (item : κ) (sequence : List α) (i : Nat) :
    Except SeqError Bool := do
  let x ← elt sequence i
  return tests.compare item (key x)

/-- :COUNT as a fixnum. -/
def countLimit : Option Int → Nat
  | none => mostPositiveFixnum.toNat
  | some count =>
    if count < 0 then 0
    else if mostPositiveFixnum < count then mostPositiveFixnum.toNat
    else count.toNat

/-- The loop of COUNT and, within-count, of internal-count. -/
def countLoop (holds : Nat → Except SeqError Bool) (limit : Option Nat) :
    List Nat → Nat → Except SeqError Nat
  | [], k => .ok k
  | i :: is, k => do
      let hit ← if limit.all (k < ·) then holds i else pure false
      countLoop holds limit is (if hit then k + 1 else k)

/-- The loop of FIND and POSITION. -/
def findLoop (holds : Nat → Except SeqError Bool) : List Nat → Except SeqError (Option Nat)
  | [] => .ok none
  | i :: is => do
      let hit ← holds i
      if hit then return some i else findLoop holds is

/-- MAKE-SEQUENCE, of which no element is known yet. -/
def makeSequence (size : Int) : Except SeqError (List (Option α)) :=
  if 0 ≤ size then .ok (List.replicate size.toNat none) else .error .size

/-- The new sequence of DELETE, the next place in it and the number of elements left out. From the
end the place is one less. -/
structure Filling (α : Type) where
  newseq : List (Option α)
  j : Nat
  k : Nat

/-- (setf (elt newseq j) x), and the next j. -/
def Filling.store (fromEnd : Bool) (filling : Filling α) (x : α) : Except SeqError (Filling α) :=
  if fromEnd then
    match filling.j with
    | 0 => .error .size
    | j + 1 => do
        let newseq ← eltSet filling.newseq j (some x)
        return { filling with newseq := newseq, j := j }
  else do
    let newseq ← eltSet filling.newseq filling.j (some x)
    return { filling with newseq := newseq, j := filling.j + 1 }

/-- The loop through all elements that leaves out some of them. -/
def fillingLoop (leaves : Nat → Nat → Except SeqError Bool) (fromEnd : Bool) (sequence : List α) :
    List Nat → Filling α → Except SeqError (Filling α)
  | [], filling => .ok filling
  | i :: is, filling => do
      if ← leaves i filling.k then
        fillingLoop leaves fromEnd sequence is { filling with k := filling.k + 1 }
      else do
        let x ← elt sequence i
        let filling ← filling.store fromEnd x
        fillingLoop leaves fromEnd sequence is filling

/-- The test of an element within the bounds and the count. -/
def inRange (holds : Nat → Except SeqError Bool) (start stop count i k : Nat) :
    Except SeqError Bool :=
  if start ≤ i ∧ i < stop ∧ k < count then holds i else .ok false

section Defseq

variable (tests : Tests κ) (key : α → κ) (item : κ) (sequence : Sequence α) (fromEnd : Bool)
  (start : Int) (stop : Option Int)

def count : Except SeqError Nat := do
  let (start, stop) ← sequenceLimits (some start) stop sequence.elements.length
  countLoop (satisfiesTheTest tests key item sequence.elements) none (indices fromEnd start stop) 0

def position : Except SeqError (Option Nat) := do
  let (start, stop) ← sequenceLimits (some start) stop sequence.elements.length
  findLoop (satisfiesTheTest tests key item sequence.elements) (indices fromEnd start stop)

def find : Except SeqError (Option α) := do
  let (start, stop) ← sequenceLimits (some start) stop sequence.elements.length
  let found ← findLoop (satisfiesTheTest tests key item sequence.elements)
    (indices fromEnd start stop)
  match found with
  | none => return none
  | some i => some <$> elt sequence.elements i

/-- The loops of DELETE through a vector, and from the end through any sequence. -/
def deleteFilling (start stop count : Nat) : Except SeqError (List (Option α)) := do
  let l := sequence.elements.length
  let holds := satisfiesTheTest tests key item sequence.elements
  let n ← countLoop holds (some count) (indices fromEnd start stop) 0
  let count := if n < count then n else count
  let newseq ← makeSequence ((l : Int) - count)
  let filling ← fillingLoop (inRange holds start stop count) fromEnd sequence.elements
    (indices fromEnd 0 l) ⟨newseq, if fromEnd then l - n else 0, 0⟩
  return filling.newseq

/-- The loop of DELETE through a list: the conses after l that stay. -/
def deleteConses (matches' : α → Bool) (stop count : Nat) : Nat → Nat → List α → List α
  | _, _, [] => []
  | i, j, x :: l =>
    if stop ≤ i ∨ count ≤ j then x :: l
    else if matches' x then deleteConses matches' stop count (i + 1) (j + 1) l
    else x :: deleteConses matches' stop count (i + 1) j l

def delete (limit : Option Int) : Except SeqError (List (Option α)) := do
  let (start, stop) ← sequenceLimits (some start) stop sequence.elements.length
  match sequence, fromEnd with
  | .list l, false =>
    return (l.elements.take start ++
      deleteConses (fun x => tests.compare item (key x)) stop (countLimit limit) start 0
        (l.elements.drop start)).map some
  | _, _ => deleteFilling tests key item sequence fromEnd start stop (countLimit limit)

/-- The loop of REMOVE over the elements before the start: the CAR of NIL is NIL. -/
def pushConses (nil : α) : Nat → List α → List α → List α × List α
  | 0, l, l1 => (l, l1)
  | n + 1, l, l1 => pushConses nil n l.tail (l.headD nil :: l1)

/-- The loop of REMOVE through a list. -/
def removeConses (matches' : α → Bool) (stop count : Nat) : Nat → Nat → List α → List α → List α
  | _, _, [], l1 => l1.reverse
  | i, j, x :: l, l1 =>
    if stop ≤ i ∨ count ≤ j then l1.reverseAux (x :: l)
    else if matches' x then removeConses matches' stop count (i + 1) (j + 1) l l1
    else removeConses matches' stop count (i + 1) j l (x :: l1)

def remove (nil : α) (limit : Option Int) : Except SeqError (List (Option α)) := do
  let (first, last) ← sequenceLimits (some start) stop sequence.elements.length
  match sequence, fromEnd with
  | .list l, false =>
    let (rest, l1) := pushConses nil first l.elements []
    return (removeConses (fun x => tests.compare item (key x)) last (countLimit limit) first 0
      rest l1).map some
  | _, _ => delete tests key item sequence fromEnd first (some last) (some (countLimit limit))

/-- The loop of SUBSTITUTE. -/
def substituteLoop (leaves : Nat → Nat → Except SeqError Bool) (newitem : α) (sequence : List α) :
    List Nat → Nat → List (Option α) → Except SeqError (List (Option α))
  | [], _, newseq => .ok newseq
  | i :: is, k, newseq => do
      if ← leaves i k then
        let newseq ← eltSet newseq i (some newitem)
        substituteLoop leaves newitem sequence is (k + 1) newseq
      else do
        let x ← elt sequence i
        let newseq ← eltSet newseq i (some x)
        substituteLoop leaves newitem sequence is k newseq

def substitute (newitem : α) (limit : Option Int) : Except SeqError (List (Option α)) := do
  let l := sequence.elements.length
  let (start, stop) ← sequenceLimits (some start) stop l
  let newseq ← makeSequence l
  substituteLoop
    (inRange (satisfiesTheTest tests key item sequence.elements) start stop (countLimit limit))
    newitem sequence.elements (indices fromEnd 0 l) 0 newseq

/-- The loop of NSUBSTITUTE. -/
def nsubstituteLoop (newitem : α) (count : Nat) :
    List Nat → Nat → List α → Except SeqError (List α)
  | [], _, sequence => .ok sequence
  | i :: is, k, sequence => do
      if ← (if k < count then satisfiesTheTest tests key item sequence i else pure false) then
        let sequence ← eltSet sequence i newitem
        nsubstituteLoop newitem count is (k + 1) sequence
      else nsubstituteLoop newitem count is k sequence

def nsubstitute (newitem : α) (limit : Option Int) : Except SeqError (List α) := do
  let (start, stop) ← sequenceLimits (some start) stop sequence.elements.length
  nsubstituteLoop tests key item newitem (countLimit limit) (indices fromEnd start stop) 0
    sequence.elements

end Defseq

section Duplicates

variable (tests : Tests κ) (key : α → κ)

def member1 (x : α) (list : List α) : Bool := list.any fun y => tests.compare (key x) (key y)

/-- The loops of both functions through a whole list, when :START and :END are NIL. -/
def lastOccurrences : List α → List α
  | [] => []
  | x :: l =>
    if !l.isEmpty && member1 tests key x l then lastOccurrences l else x :: lastOccurrences l

/-- The test of the element with an index, before or behind it. -/
def duplicated (sequence : Sequence α) (fromEnd : Bool) (start stop i : Nat) :
    Except SeqError Bool := do
  let x ← elt sequence.elements i
  let found ← if fromEnd then position tests key (key x) sequence true start (some i)
    else position tests key (key x) sequence false (1 + i : Nat) (some stop)
  return found.isSome

def deleteDuplicates (sequence : Sequence α) (fromEnd : Bool) (start stop : Option Int) :
    Except SeqError (List (Option α)) := do
  let l := sequence.elements.length
  match sequence, fromEnd, start, stop with
  | .list conses, false, none, none => return (lastOccurrences tests key conses.elements).map some
  | _, _, _, _ =>
    let (start, stop) ← sequenceLimits start stop l
    let holds := duplicated tests key sequence fromEnd start stop
    let n ← countLoop holds none (indices fromEnd start stop) 0
    let newseq ← makeSequence ((l : Int) - n)
    let filling ← fillingLoop (fun i _ => if start ≤ i ∧ i < stop then holds i else .ok false)
      fromEnd sequence.elements (indices fromEnd 0 l) ⟨newseq, if fromEnd then l - n else 0, 0⟩
    return filling.newseq

def removeDuplicates (sequence : Sequence α) (fromEnd : Bool) (start stop : Option Int) :
    Except SeqError (List (Option α)) :=
  match sequence, fromEnd, start, stop with
  | .list conses, false, none, none => .ok ((lastOccurrences tests key conses.elements).map some)
  | _, _, _, _ => deleteDuplicates tests key sequence fromEnd start stop

end Duplicates

section Search

variable (tests : Tests κ) (key : α → κ) (sequence1 sequence2 : List α)

/-- The comparison of one element of each sequence. -/
def same (i1 i2 : Nat) : Except SeqError Bool := do
  let x ← elt sequence1 i1
  let y ← elt sequence2 i2
  return tests.compare (key x) (key y)

def mismatchUp (end1 end2 i1 i2 : Nat) : Except SeqError (Option Nat) :=
  if end1 ≤ i1 ∨ end2 ≤ i2 then .ok (if end1 ≤ i1 ∧ end2 ≤ i2 then none else some i1)
  else do
    if ← same tests key sequence1 sequence2 i1 i2 then mismatchUp end1 end2 (i1 + 1) (i2 + 1)
    else return some i1
termination_by end1 - i1

/-- The variables count one more than those of the source. -/
def mismatchDown (start1 start2 i1 i2 : Nat) : Except SeqError (Option Nat) :=
  if i1 ≤ start1 ∨ i2 ≤ start2 then .ok (if i1 ≤ start1 ∧ i2 ≤ start2 then none else some i1)
  else do
    if ← same tests key sequence1 sequence2 (i1 - 1) (i2 - 1) then
      mismatchDown start1 start2 (i1 - 1) (i2 - 1)
    else return some i1
termination_by i1

/-- How the inner loop of SEARCH ends: the function returns, or the bound is moved. -/
inductive Attempt where
  | found (i : Nat)
  | exhausted
  | differs
  deriving DecidableEq

def attemptUp (end1 end2 start2 i1 i2 : Nat) : Except SeqError Attempt :=
  if end1 ≤ i1 then .ok (.found start2)
  else if end2 ≤ i2 then .ok .exhausted
  else do
    if ← same tests key sequence1 sequence2 i1 i2 then attemptUp end1 end2 start2 (i1 + 1) (i2 + 1)
    else return .differs
termination_by end1 - i1

/-- The variables count one more than those of the source. -/
def attemptDown (start1 start2 i1 i2 : Nat) : Except SeqError Attempt :=
  if i1 ≤ start1 then .ok (.found i2)
  else if i2 ≤ start2 then .ok .exhausted
  else do
    if ← same tests key sequence1 sequence2 (i1 - 1) (i2 - 1) then
      attemptDown start1 start2 (i1 - 1) (i2 - 1)
    else return .differs
termination_by i1

theorem attemptUp_end {end1 end2 start2 i1 i2 : Nat}
    (differs : attemptUp tests key sequence1 sequence2 end1 end2 start2 i1 i2 = .ok .differs) :
    i2 < end2 := by
  rw [attemptUp] at differs
  split at differs
  · cases differs
  · split at differs
    · cases differs
    · omega

theorem attemptDown_end {start1 start2 i1 i2 : Nat}
    (differs : attemptDown tests key sequence1 sequence2 start1 start2 i1 i2 = .ok .differs) :
    start2 < i2 := by
  rw [attemptDown] at differs
  split at differs
  · cases differs
  · split at differs
    · cases differs
    · omega

/-- The outer loop ends because the inner one compares an element before the end. -/
def searchUp (start1 end1 start2 end2 : Nat) : Except SeqError (Option Nat) :=
  match attempt : attemptUp tests key sequence1 sequence2 end1 end2 start2 start1 start2 with
  | .error e => .error e
  | .ok (.found i) => .ok (some i)
  | .ok .exhausted => .ok none
  | .ok .differs => searchUp start1 end1 (start2 + 1) end2
termination_by end2 - start2
decreasing_by
  have before := attemptUp_end tests key sequence1 sequence2 attempt
  omega

def searchDown (start1 end1 start2 end2 : Nat) : Except SeqError (Option Nat) :=
  match attempt : attemptDown tests key sequence1 sequence2 start1 start2 end1 end2 with
  | .error e => .error e
  | .ok (.found i) => .ok (some i)
  | .ok .exhausted => .ok none
  | .ok .differs => searchDown start1 end1 start2 (end2 - 1)
termination_by end2
decreasing_by
  have behind := attemptDown_end tests key sequence1 sequence2 attempt
  omega

end Search

section

variable (tests : Tests κ) (key : α → κ) (sequence1 sequence2 : Sequence α) (fromEnd : Bool)
  (start1 : Int) (end1 : Option Int) (start2 : Int) (end2 : Option Int)

def mismatch : Except SeqError (Option Nat) := do
  let (start1, end1) ← sequenceLimits (some start1) end1 sequence1.elements.length
  let (start2, end2) ← sequenceLimits (some start2) end2 sequence2.elements.length
  if fromEnd then
    mismatchDown tests key sequence1.elements sequence2.elements start1 start2 end1 end2
  else mismatchUp tests key sequence1.elements sequence2.elements end1 end2 start1 start2

def search : Except SeqError (Option Nat) := do
  let (start1, end1) ← sequenceLimits (some start1) end1 sequence1.elements.length
  let (start2, end2) ← sequenceLimits (some start2) end2 sequence2.elements.length
  if fromEnd then
    searchDown tests key sequence1.elements sequence2.elements start1 end1 start2 end2
  else searchUp tests key sequence1.elements sequence2.elements start1 end1 start2 end2

end

end

end Ecl.Sequences
