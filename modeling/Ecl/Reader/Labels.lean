import Mathlib.Data.List.Basic
import Ecl.Lib.Except

/- The readers for #n= and #n#, and the patching of what was read. -/
namespace Ecl.Reader

/-- An object that do_patch_sharp returns as it is. -/
inductive Atom where
  | nil
  | fixnum (d : BitVec 62)
  | other (object : Nat)
  deriving DecidableEq

inductive Value where
  | atom (a : Atom)
  | object (x : Nat)
  deriving DecidableEq

inductive Cell where
  | cons (car cdr : Value)
  | vector (elements : List Value)
  deriving DecidableEq

namespace Cell

/-- What the traversal follows. -/
def fields : Cell → List Value
  | .cons car cdr => [car, cdr]
  | .vector elements => elements

/-- ECL_RPLACA, ECL_RPLACD and the assignment to an element. -/
def setField : Cell → Nat → Value → Cell
  | .cons _ cdr, 0, v => .cons v cdr
  | .cons car _, 1, v => .cons car v
  | .cons car cdr, _, _ => .cons car cdr
  | .vector elements, i, v => .vector (elements.set i v)

def isVector : Cell → Bool
  | .cons _ _ => false
  | .vector _ => true

def map (f : Value → Value) : Cell → Cell
  | .cons car cdr => .cons (f car) (f cdr)
  | .vector elements => .vector (elements.map f)

@[simp] theorem fields_map (f : Value → Value) (c : Cell) : (c.map f).fields = c.fields.map f := by
  cases c with
  | cons car cdr => rfl
  | vector elements => rfl

@[simp] theorem isVector_map (f : Value → Value) (c : Cell) : (c.map f).isVector = c.isVector := by
  cases c with
  | cons car cdr => rfl
  | vector elements => rfl

@[simp] theorem isVector_setField (c : Cell) (i : Nat) (v : Value) :
    (c.setField i v).isVector = c.isVector := by
  cases c with
  | cons car cdr =>
    cases i with
    | zero => rfl
    | succ i =>
      cases i with
      | zero => rfl
      | succ i => rfl
  | vector elements => rfl

@[simp] theorem fields_setField (c : Cell) (i : Nat) (v : Value) :
    (c.setField i v).fields = c.fields.set i v := by
  cases c with
  | cons car cdr =>
    cases i with
    | zero => rfl
    | succ i =>
      cases i with
      | zero => rfl
      | succ i => rfl
  | vector elements => rfl

theorem ext_fields {c d : Cell} (kind : c.isVector = d.isVector) (fields : c.fields = d.fields) :
    c = d := by
  cases c with
  | cons car cdr =>
    cases d with
    | cons car' cdr' =>
      cases fields
      rfl
    | vector elements => cases kind
  | vector elements =>
    cases d with
    | cons car cdr => cases kind
    | vector elements' =>
      cases fields
      rfl

end Cell

/-- The text that is read. -/
inductive Expression where
  | atom (a : Atom)
  | cons (car cdr : Expression)
  | vector (elements : List Expression)
  | label (n : Nat) (e : Expression)
  | ref (n : Nat)

/-- The number in front of a dispatching character, as dispatch_macro_character passes it: digits
are accumulated in a cl_fixnum, whose upper bits MAKE_FIXNUM drops. -/
def argument (n : Nat) : BitVec 62 := BitVec.ofNat 62 n

inductive ReaderError where
  | duplicateDefinitions (d : BitVec 62)
  | definedByItself (d : BitVec 62)
  | undefined (d : BitVec 62)
  deriving DecidableEq

/-- The objects made so far, and *sharp-eq-context*: its pairs, each with its CAR beside it. -/
structure ReadState where
  heap : List Cell
  context : List (BitVec 62 × Nat)
  deriving DecidableEq

namespace ReadState

/-- A new object. -/
def alloc (s : ReadState) (c : Cell) : Nat × ReadState :=
  (s.heap.length, { s with heap := s.heap ++ [c] })

/-- ecl_assq in the context. -/
def assq (s : ReadState) (d : BitVec 62) : Option Nat :=
  (s.context.find? fun pair => pair.1 == d).map Prod.snd

end ReadState

/-- sharp_eq_reader, where `read` is the ecl_read_object for what follows. -/
def sharpEqReader (d : BitVec 62) (read : ReadState → Except ReaderError (Value × ReadState))
    (s : ReadState) : Except ReaderError (Value × ReadState) := do
  if (s.assq d).isSome then .error (.duplicateDefinitions d)
  else
    let (pair, s) := s.alloc (.cons (.atom (.fixnum d)) (.atom .nil))
    let (value, s) ← read { s with context := (d, pair) :: s.context }
    if value = .object pair then .error (.definedByItself d)
    else .ok (value, { s with heap := s.heap.modify pair (·.setField 1 value) })

def sharpSharpReader (d : BitVec 62) (s : ReadState) : Except ReaderError (Value × ReadState) :=
  match s.assq d with
  | none => .error (.undefined d)
  | some pair => .ok (.object pair, s)

mutual

/-- ecl_read_object. The list that is read for a vector is garbage when the vector is made. -/
def readObject : Expression → ReadState → Except ReaderError (Value × ReadState)
  | .atom a, s => .ok (.atom a, s)
  | .cons car cdr, s => do
      let (a, s) ← readObject car s
      let (d, s) ← readObject cdr s
      let (x, s) := s.alloc (.cons a d)
      .ok (.object x, s)
  | .vector elements, s => do
      let (vs, s) ← readObjects elements s
      let (x, s) := s.alloc (.vector vs)
      .ok (.object x, s)
  | .label n e, s => sharpEqReader (argument n) (readObject e) s
  | .ref n, s => sharpSharpReader (argument n) s

def readObjects : List Expression → ReadState → Except ReaderError (List Value × ReadState)
  | [], s => .ok ([], s)
  | e :: es, s => do
      let (v, s) ← readObject e s
      let (vs, s) ← readObjects es s
      .ok (v :: vs, s)

end

/-- The objects and the eq hash table of a traversal. -/
structure Patch where
  heap : List Cell
  table : Nat → Option Value

/-- The fields from `i` on, each replaced by what the traversal returns for it. -/
def patchFields (patch : Value → Patch → Option (Value × Patch)) (x : Nat) :
    Nat → Nat → Patch → Option Patch
  | 0, _, s => some s
  | count + 1, i, s => do
      let c ← s.heap[x]?
      let field ← c.fields[i]?
      let (v, s) ← patch field s
      patchFields patch x count (i + 1) { s with heap := s.heap.modify x (·.setField i v) }

/-- do_patch_sharp, with so many nested calls. -/
def doPatchSharp : Nat → Value → Patch → Option (Value × Patch)
  | 0, _, _ => none
  | _ + 1, .atom a, s => some (.atom a, s)
  | fuel + 1, .object x, s =>
    match s.table x with
    | some y => some (y, s)
    | none => do
        let c ← s.heap[x]?
        let s ← patchFields (doPatchSharp fuel) x c.fields.length 0 s
        some (.object x, { s with table := Function.update s.table x (some (.object x)) })

def consCdr (heap : List Cell) (x : Nat) : Option Value :=
  match heap[x]? with
  | some (.cons _ cdr) => some cdr
  | _ => none

def patchSharp (fuel : Nat) (x : Value) (s : ReadState) : Option (Value × Patch) :=
  let table := s.context.foldl
    (fun table pair => Function.update table pair.2 (consCdr s.heap pair.2)) fun _ => none
  doPatchSharp fuel x ⟨s.heap, table⟩

/-- ecl_read_object_non_recursive. There is no result when the traversal needs more nested calls. -/
def eclReadObjectNonRecursive (fuel : Nat) (e : Expression) :
    Except ReaderError (Option (Value × ReadState)) := do
  let (x, s) ← readObject e ⟨[], []⟩
  if s.context = [] then .ok (some (x, s))
  else
    match patchSharp fuel x s with
    | none => .ok none
    | some (x, patched) => .ok (some (x, { s with heap := patched.heap }))

end Ecl.Reader
