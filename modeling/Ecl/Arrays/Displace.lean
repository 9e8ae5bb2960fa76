import Mathlib.Data.List.Basic
import Mathlib.Algebra.Ring.Nat

/- Arrays and displacement in array.d: si_make_pure_array, si_make_vector, displace,
cl_array_displacement, ecl_aref, ecl_aset and si_replace_array. -/
namespace Ecl.Arrays

abbrev ArrayId : Type := Nat
abbrev ConsId : Type := Nat

/-- ARANKLIM, ADIMLIM and ATOTLIM. -/
def arankLim : Nat := 64
def adimLim : Nat := 2 ^ 61 - 1
def atotLim : Nat := 2 ^ 61 - 1

def charBit : Nat := 8

/-- The element types cl_elttype. -/
inductive Elttype where
  | object | sf | df | bit | fix | index | b8 | i8 | b16 | i16 | b32 | i32 | b64 | i64 | ch | bc
  deriving DecidableEq

/-- ecl_aet_size. -/
def Elttype.size : Elttype → Nat
  | .object | .df | .fix | .index | .b64 | .i64 => 8
  | .sf | .b32 | .i32 | .ch => 4
  | .b16 | .i16 => 2
  | .b8 | .i8 | .bc => 1
  | .bit => 0

inductive ArrayType where
  | array | vector | bitvector | string | baseString
  deriving DecidableEq

/-- The structures ecl_array, ecl_vector and those of strings, which are laid out alike. -/
structure Header where
  type : ArrayType
  elttype : Elttype
  adjustable : Bool
  hasFillPointer : Bool
  displaced : Option ConsId
  dim : Nat
  dims : List Nat
  fillp : Nat
  self : Nat
  offset : Nat
  deriving DecidableEq

/-- What the field displaced points to: the array that this one is displaced to, and the
arrays that are displaced to this one. -/
structure Displaced where
  car : Option ArrayId
  cdr : List ArrayId
  deriving DecidableEq

/-- The first byte of an element, and for bits the place in it. -/
structure Cell where
  address : Nat
  bit : Nat
  deriving DecidableEq

def Header.cell (header : Header) (index : Nat) : Cell :=
  if header.elttype = .bit then
    let index := index + header.offset
    ⟨header.self + index / charBit, index % charBit⟩
  else ⟨header.self + index * header.elttype.size, 0⟩

/-- The address of the elements, and the offset of bits, from those of another array. -/
def Header.point (header base : Header) (j : Nat) : Header :=
  if header.elttype = .bit then
    let j := j + base.offset
    { header with offset := j % charBit, self := base.self + j / charBit }
  else { header with self := base.self + j * header.elttype.size }

def Header.blank : Header where
  type := .vector
  elttype := .object
  adjustable := false
  hasFillPointer := false
  displaced := none
  dim := 0
  dims := []
  fillp := 0
  self := 0
  offset := 0

structure State (α : Type) where
  header : ArrayId → Header
  count : Nat
  cons : ConsId → Displaced
  conses : Nat
  memory : Cell → α

namespace State

variable {α : Type} (st : State α)

def setHeader (d : ArrayId) (header : Header) : State α :=
  { st with header := Function.update st.header d header }

/-- The car of displaced. -/
def target (d : ArrayId) : Option ArrayId :=
  match (st.header d).displaced with
  | none => none
  | some c => (st.cons c).car

/-- The cdr of displaced. -/
def back (d : ArrayId) : List ArrayId :=
  match (st.header d).displaced with
  | none => []
  | some c => (st.cons c).cdr

def newList (d : ArrayId) (car : Option ArrayId) : State α :=
  { st with
    header := Function.update st.header d { st.header d with displaced := some st.conses }
    cons := Function.update st.cons st.conses ⟨car, []⟩
    conses := st.conses + 1 }

/-- ECL_RPLACD on the list of arrays that are displaced to one. -/
def pushBack (base origin : ArrayId) : State α :=
  match (st.header base).displaced with
  | none => st
  | some c =>
    { st with
      cons := Function.update st.cons c { st.cons c with cdr := origin :: (st.cons c).cdr } }

/-- An array is put down as displaced to another, in the lists of both. -/
def link (origin base : ArrayId) : State α :=
  let st := st.newList origin (some base)
  let st := if (st.header base).displaced = none then st.newList base none else st
  st.pushBack base origin

/-- displace, to an array. There is no state after an error. -/
def displace (origin base : ArrayId) (offset : Int) : Option (State α) :=
  let fromHeader := st.header origin
  let toHeader := st.header base
  if toHeader.elttype ≠ fromHeader.elttype then none
  else if fromHeader.dim > toHeader.dim then none
  else if offset < 0 ∨ ((toHeader.dim - fromHeader.dim : Nat) : Int) < offset then none
  else
    let st := st.link origin base
    some (st.setHeader origin ((st.header origin).point (st.header base) offset.toNat))

/-- cl_array_displacement. -/
def displacement (d : ArrayId) : Option ArrayId × Int :=
  match st.target d with
  | none => (none, 0)
  | some t =>
    let header := st.header d
    let toHeader := st.header t
    if header.elttype = .bit then
      (some t, ((header.self : Int) - toHeader.self) * charBit + header.offset - toHeader.offset)
    else (some t, ((header.self : Int) - toHeader.self) / header.elttype.size)

def aref (d : ArrayId) (index : Nat) : Option α :=
  if index < (st.header d).dim then some (st.memory ((st.header d).cell index)) else none

/-- ecl_aset, of a value that has the element type. -/
def aset (d : ArrayId) (index : Nat) (value : α) : State α :=
  if index < (st.header d).dim then
    { st with memory := fun cell =>
        if cell = (st.header d).cell index then value else st.memory cell }
  else st

end State

inductive FillPointer where
  | none
  | full
  | at (f : Int)
  deriving DecidableEq

def dimension (d : Int) : Option Nat := if 0 ≤ d ∧ d ≤ adimLim then some d.toNat else none

/-- The loop over the dimensions, with the total size in a machine word. -/
def dimensions : List Int → Nat → Option (List Nat × Nat)
  | [], s => some ([], s)
  | d :: rest, s =>
    match dimension d with
    | none => none
    | some j =>
      let s := s * j % 2 ^ 64
      if s > atotLim then none
      else (dimensions rest s).map fun (js, s) => (j :: js, s)

def vectorType : Elttype → ArrayType
  | .bc => .baseString
  | .bit => .bitvector
  | .ch => .string
  | _ => .vector

/-- The new vector of si_make_vector, before it gets its elements. -/
def makeVector (etype : Elttype) (dim : Int) (adjustable : Bool) (fillp : FillPointer) :
    Option Header :=
  match dimension dim with
  | none => none
  | some d =>
    let header := { Header.blank with
      type := vectorType etype, elttype := etype, dim := d, adjustable := adjustable }
    match fillp with
    | .none => some { header with fillp := d }
    | .full => some { header with hasFillPointer := true, fillp := d }
    | .at f =>
      if 0 ≤ f ∧ f ≤ d then some { header with hasFillPointer := true, fillp := f.toNat }
      else none

inductive Dimensions where
  | fixnum (d : Int)
  | list (ds : List Int)
  deriving DecidableEq

/-- The new array of si_make_pure_array, before it gets its elements. -/
def makePureArray (etype : Elttype) (adjustable : Bool) (fillp : FillPointer) :
    Dimensions → Option Header
  | .fixnum d => makeVector etype d adjustable fillp
  | .list ds =>
    if ds.length ≥ arankLim then none
    else
      match ds with
      | [d] => makeVector etype d adjustable fillp
      | ds =>
        if fillp ≠ .none then none
        else
          (dimensions ds 1).map fun (js, s) =>
            { Header.blank with
              type := .array, elttype := etype, adjustable := adjustable, dim := s, dims := js }

inductive Step (α : Type) where
  | make (etype : Elttype) (dims : Dimensions) (adjustable : Bool) (fillp : FillPointer)
      (displaced : Option (ArrayId × Int)) (address : Nat)
  | store (d : ArrayId) (index : Nat) (value : α)
  | replace (olda newa : ArrayId)

section

variable {α : Type}

/-- A new array. -/
def State.add (st : State α) (header : Header) : State α :=
  { st.setHeader st.count header with count := st.count + 1 }

/-- make-array: elements at an address of the allocator, or displacement. An array that cannot
be displaced is given up. -/
def State.make (st : State α) (header : Header) (displaced : Option (ArrayId × Int))
    (address : Nat) : State α :=
  match displaced with
  | none => st.add { header with self := address }
  | some (base, offset) =>
    if base < st.count then ((st.add header).displace st.count base offset).getD st else st

/-- The loop of si_replace_array over the arrays that are displaced to the old one, and
whether it came to its end. -/
def State.replaceLoop (newa : ArrayId) : State α → List ArrayId → State α × Bool
  | st, [] => (st, true)
  | st, other :: rest =>
    match st.displace other newa (st.displacement other).2 with
    | none => (st, false)
    | some st' => replaceLoop newa st' rest

/-- The tests of si_replace_array: the arrays are of one type, and the old one is adjustable. -/
def State.replaceable (st : State α) (olda newa : ArrayId) : Bool :=
  let header := st.header olda
  let header' := st.header newa
  header.type = header'.type ∧
    ¬ (header.type = .array ∧ header.dims.length ≠ header'.dims.length) ∧ header.adjustable = true

def State.replaceArray (st : State α) (olda newa : ArrayId) : State α :=
  if st.replaceable olda newa then
    match st.replaceLoop newa (st.back olda) with
    | (st', true) => st'.setHeader olda (st'.header newa)
    | (st', false) => st'
  else st

def Step.run (st : State α) : Step α → State α
  | .make etype dims adjustable fillp displaced address =>
    match makePureArray etype adjustable fillp dims with
    | none => st
    | some header => st.make header displaced address
  | .store d index value => st.aset d index value
  | .replace olda newa =>
    if olda < st.count ∧ newa < st.count then st.replaceArray olda newa else st

/-- No arrays yet. -/
def initial (memory : Cell → α) : State α where
  header := fun _ => Header.blank
  count := 0
  cons := fun _ => ⟨none, []⟩
  conses := 0
  memory := memory

/-- The states that steps reach which all meet a condition. -/
inductive Reachable (allowed : State α → Step α → Prop) : State α → Prop where
  | initial (memory : Cell → α) : Reachable allowed (initial memory)
  | step {st : State α} (step : Step α) (reached : Reachable allowed st) (meets : allowed st step) :
      Reachable allowed (step.run st)

end

end Ecl.Arrays
