import Ecl.Clos.Linearize

/- Class objects and the protocol that defines and redefines them. -/
namespace Ecl.Clos

/-- The symbols that name classes: those of boot.lsp and others. -/
inductive ClassName where
  | t
  | standardObject
  | theClass
  | stdClass
  | standardClass
  | funcallableStandardClass
  | builtInClass
  | structureObject
  | funcallableStandardObject
  | other (n : Nat)
  deriving DecidableEq

/-- A class object: the name it was made with, and how many were made with that
name before. -/
structure ClassId where
  name : Option ClassName
  index : Nat
  deriving DecidableEq

inductive Metaclass where
  | standardClass
  | funcallableStandardClass
  | structureClass
  | builtInClass
  | forwardReferencedClass
  deriving DecidableEq

/-- Where the value of a slot is: a place in the instance, or the cell that was
made for the shared slot of a class. -/
inductive Location where
  | place (i : Nat)
  | cell (owner : ClassId)
  deriving DecidableEq

/-- A slot definition, direct or effective. -/
structure Slot (Ty : Type) where
  name : Nat
  initform : Option Nat
  type : Ty
  /-- :ALLOCATION :CLASS -/
  shared : Bool
  initargs : List Nat
  readers : List Nat
  writers : List Nat
  location : Option Location

/-- SUBTYPEP, and the type (AND new old). -/
structure Types (Ty : Type) where
  subtypep : Ty → Ty → Bool
  both : Ty → Ty → Ty

structure ClassObject (Ty : Type) where
  name : Option ClassName
  metaclass : Metaclass
  directSuperclasses : List ClassId
  directSubclasses : List ClassId
  /-- `none` while the slot is unbound. -/
  precedenceList : Option (List ClassId)
  directSlots : List (Slot Ty)
  slots : Option (List (Slot Ty))
  finalized : Bool

/-- The class objects, and the table of FIND-CLASS. -/
structure World (Ty : Type) where
  classes : ClassId → ClassObject Ty
  made : Option ClassName → Nat
  find : ClassName → Option ClassId

variable {Ty : Type}

namespace World

def modify (w : World Ty) (c : ClassId) (f : ClassObject Ty → ClassObject Ty) : World Ty :=
  { w with classes := fun d => if d = c then f (w.classes c) else w.classes d }

def forward (w : World Ty) (c : ClassId) : Bool :=
  (w.classes c).metaclass = .forwardReferencedClass

def directSuperclasses (w : World Ty) (c : ClassId) : List ClassId :=
  (w.classes c).directSuperclasses

def precedenceList (w : World Ty) (c : ClassId) : Option (List ClassId) :=
  (w.classes c).precedenceList

def addDirectSubclass (child : ClassId) (w : World Ty) (parent : ClassId) : World Ty :=
  w.modify parent fun p =>
    { p with directSubclasses :=
        if child ∈ p.directSubclasses then p.directSubclasses else child :: p.directSubclasses }

def removeDirectSubclass (child : ClassId) (w : World Ty) (parent : ClassId) : World Ty :=
  w.modify parent fun p => { p with directSubclasses := p.directSubclasses.filter (· ≠ child) }

def computeClassPrecedenceList (w : World Ty) (limit : Nat) (c : ClassId) :
    Except ClassError (List ClassId) :=
  computeClosClassPrecedenceList w.directSuperclasses limit w.precedenceList c
    (w.directSuperclasses c)

end World

/-- UNION of two lists. -/
def unionList (new old : List Nat) : List Nat := new.filter (· ∉ old) ++ old

def combineSlotds (types : Types Ty) (new old : Slot Ty) : Except ClassError (Slot Ty) := do
  let location ←
    match new.location, old.location with
    | some loc1, some loc2 =>
      if loc1 = loc2 then .ok (some loc1) else .error .conflictingLocations
    | loc1, none => .ok loc1
    | none, loc2 => .ok loc2
  return { new with
    location := location
    initargs := unionList new.initargs old.initargs
    initform := if new.initform.isSome then new.initform else old.initform
    readers := unionList new.readers old.readers
    writers := unionList new.writers old.writers
    type :=
      if types.subtypep new.type old.type then new.type
      else if types.subtypep old.type new.type then old.type
      else types.both new.type old.type }

def computeEffectiveSlotDefinition (types : Types Ty) (first : Slot Ty) (rest : List (Slot Ty)) :
    Except ClassError (Slot Ty) :=
  rest.foldlM (combineSlotds types) first

/-- The loop of COMPUTE-SLOTS; `scan` holds names and is ordered from the last
slot to the first. -/
def computeSlotsLoop (types : Types Ty) (allSlots : List (Slot Ty)) :
    List Nat → List (Slot Ty) → Except ClassError (List (Slot Ty))
  | [], output => .ok output
  | name :: rest, output =>
    if name ∈ rest then computeSlotsLoop types allSlots rest output
    else
      match allSlots.reverse.filter (·.name = name) with
      | [] => computeSlotsLoop types allSlots rest output
      | first :: others => do
          let slot ← computeEffectiveSlotDefinition types first others
          computeSlotsLoop types allSlots rest (slot :: output)

def Slot.place? (slot : Slot Ty) : Option Nat :=
  match slot.shared, slot.location with
  | false, some (.place i) => some i
  | _, _ => none

def computeInstanceSize (slots : List (Slot Ty)) : Nat :=
  max (slots.countP fun slot => !slot.shared)
    (1 + (slots.filterMap Slot.place?).foldl max 0)

/-- The loop over the numbered slots: no place is given twice. -/
def numberedPlaces : List Nat → List Nat → Except ClassError (List Nat)
  | [], taken => .ok taken
  | i :: rest, taken =>
    if i ∈ taken then .error .sameLocation else numberedPlaces rest (i :: taken)

def freePlace (taken : List Nat) : Nat → Nat → Nat
  | 0, index => index
  | n + 1, index => if index ∈ taken then freePlace taken n (index + 1) else index

/-- The loop over the other instance slots. -/
def assignPlaces (size : Nat) : List (Slot Ty) → List Nat → List (Slot Ty)
  | [], _ => []
  | slot :: rest, taken =>
    if slot.shared = false ∧ slot.place? = none then
      { slot with location := some (.place (freePlace taken size 0)) } ::
        assignPlaces size rest (freePlace taken size 0 :: taken)
    else slot :: assignPlaces size rest taken

def classComputeSlots (slots : List (Slot Ty)) : Except ClassError (List (Slot Ty)) := do
  let taken ← numberedPlaces (slots.filterMap Slot.place?) []
  return assignPlaces (computeInstanceSize slots) slots taken

/-- The location of a shared slot in std-class-compute-slots: a new cell, or that
of the nearest superclass with such a slot. -/
def sharedLocation (w : World Ty) (c : ClassId) (cpl : List ClassId) (slot : Slot Ty) :
    Option Location :=
  if (w.classes c).directSlots.any (·.name = slot.name) then some (.cell c)
  else
    (cpl.filter (· ≠ c)).findSome? fun d =>
      (((w.classes d).slots.getD []).find? (·.name = slot.name)).bind fun other =>
        if other.shared then other.location else none

def stdClassComputeSlots (w : World Ty) (c : ClassId) (cpl : List ClassId)
    (slots : List (Slot Ty)) : List (Slot Ty) :=
  slots.map fun slot =>
    if slot.shared then { slot with location := (sharedLocation w c cpl slot).or slot.location }
    else slot

/-- An instance of STD-CLASS. -/
def Metaclass.isStd : Metaclass → Bool
  | .standardClass | .funcallableStandardClass => true
  | _ => false

def computeSlots (types : Types Ty) (w : World Ty) (c : ClassId) (cpl : List ClassId) :
    Except ClassError (List (Slot Ty)) := do
  let allSlots := cpl.reverse.flatMap fun d => (w.classes d).directSlots
  let slots ← computeSlotsLoop types allSlots (allSlots.map (·.name)).reverse []
  let placed ← classComputeSlots slots
  return if (w.classes c).metaclass.isStd then stdClassComputeSlots w c cpl placed else placed

end Ecl.Clos
