import Ecl.Lib.Stable

/- SORT of seqlib.lsp: quick-sort of vectors in place and list-merge-sort. -/
namespace Ecl.Sequences

variable {σ κ α : Type}

/-- What is sorted, the places that were accessed, and the state that a predicate may keep
between its calls. -/
structure Run (σ α : Type) where
  seq : List α
  accessed : List Nat
  state : σ

/-- The key and the predicate of a call. Nothing is asked of the predicate. -/
structure Test (σ κ α : Type) where
  key : α → κ
  predicate : κ → κ → σ → Bool × σ

namespace Run

/-- ELT, where there is such an element. -/
def elt (v : Run σ α) (i : Nat) : Option (α × Run σ α) :=
  v.seq[i]?.map fun x => (x, { v with accessed := i :: v.accessed })

/-- (SETF ELT). -/
def setElt (v : Run σ α) (i : Nat) (x : α) : Option (Run σ α) :=
  if i < v.seq.length then some { v with seq := v.seq.set i x, accessed := i :: v.accessed }
  else none

/-- A call of the predicate. -/
def precedes (test : Test σ κ α) (x kd : κ) (v : Run σ α) : Bool × Run σ α :=
  ((test.predicate x kd v.state).1, { v with state := (test.predicate x kd v.state).2 })

end Run

/-- The two inner loops of quick-sort, the second of them when `upwards`. -/
def sweep (test : Test σ κ α) (kd : κ) (upwards : Bool) (j k : Nat) (v : Run σ α) :
    Option (Nat × Run σ α) :=
  if upwards then
    if j + 1 < k then
      match v.elt (j + 1) with
      | none => none
      | some (x, v) =>
        match v.precedes test (test.key x) kd with
        | (true, v) => sweep test kd true (j + 1) k v
        | (false, v) => do
            let (temp, v) ← v.elt (j + 1)
            let (y, v) ← v.elt k
            let v ← v.setElt (j + 1) y
            let v ← v.setElt k temp
            sweep test kd false (j + 1) k v
    else some (j + 1, v)
  else if j + 1 < k then
    match v.elt (k - 1) with
    | none => none
    | some (x, v) =>
      match v.precedes test (test.key x) kd with
      | (true, v) => sweep test kd true j (k - 1) v
      | (false, v) => sweep test kd false j (k - 1) v
  else some (j, v)
termination_by k - j

def quickSort (test : Test σ κ α) : Nat → Nat → Nat → Run σ α → Option (Run σ α)
  | 0, _, _, _ => none
  | depth + 1, start, last, v =>
    if last ≤ start + 1 then some v
    else do
      let (d, v) ← v.elt start
      let (j, v) ← sweep test (test.key d) false start last v
      let (x, v) ← v.elt j
      let v ← v.setElt start x
      let v ← v.setElt j d
      let v ← quickSort test depth start j v
      quickSort test depth (j + 1) last v

/-- The merging loop of list-merge-sort. -/
def mergeLists (key : α → κ) (predicate : κ → κ → Bool) : List α → List α → List α
  | [], right => right
  | left, [] => left
  | x :: left, y :: right =>
    if predicate (key x) (key y) then x :: mergeLists key predicate left (y :: right)
    else if predicate (key y) (key x) then y :: mergeLists key predicate (x :: left) right
    else x :: mergeLists key predicate left (y :: right)
termination_by left right => left.length + right.length

def listMergeSort (key : α → κ) (predicate : κ → κ → Bool) (l : List α) : List α :=
  match l with
  | [] => []
  | [x] => [x]
  | [x, y] =>
    if predicate (key x) (key y) then [x, y]
    else if predicate (key y) (key x) then [y, x]
    else [x, y]
  | x :: y :: z :: rest =>
    let i := (x :: y :: z :: rest).length / 2
    mergeLists key predicate (listMergeSort key predicate ((x :: y :: z :: rest).take i))
      (listMergeSort key predicate ((x :: y :: z :: rest).drop i))
termination_by l.length
decreasing_by
  · simp only [List.length_take, List.length_cons]
    omega
  · simp only [List.length_drop, List.length_cons]
    omega

/-- The types of seqtype that are told apart. -/
inductive SeqType where
  | list
  | string
  | bitVector
  | vector
  deriving DecidableEq

/-- A predicate without a state. -/
def pureTest (key : α → κ) (predicate : κ → κ → Bool) : Test Unit κ α :=
  ⟨key, fun x y state => (predicate x y, state)⟩

/-- SORT, with the elements of the sequence. -/
def sort (type : SeqType) (key : α → κ) (predicate : κ → κ → Bool) (sequence : List α) :
    Option (List α) :=
  if type = .list then some (listMergeSort key predicate sequence)
  else
    (quickSort (pureTest key predicate) (sequence.length + 1) 0 sequence.length
      ⟨sequence, [], ()⟩).map Run.seq

end Ecl.Sequences
