import Ecl.Clos.Class

/- Finalization, and the definition and redefinition of classes. -/
namespace Ecl.Clos

variable {Ty : Type}

/-- How a call ends, with the world it leaves. -/
abbrev Outcome (Ty α : Type) : Type := Except ClassError α × World Ty

/-- Sequencing: an error keeps the world it happened in. -/
def Outcome.andThen {α β : Type} (o : Outcome Ty α) (f : α → World Ty → Outcome Ty β) :
    Outcome Ty β :=
  match o with
  | (.ok x, w) => f x w
  | (.error e, w) => (.error e, w)

def finalizeUnlessForward (finalize : ClassId → World Ty → Outcome Ty Unit) (c : ClassId)
    (w : World Ty) : Outcome Ty Unit :=
  if (w.directSuperclasses c).any w.forward then (.ok (), w) else finalize c w

/-- The loop over the direct subclasses. -/
def finalizeSubclasses (finalize : ClassId → World Ty → Outcome Ty Unit) :
    List ClassId → World Ty → Outcome Ty Unit
  | [], w => (.ok (), w)
  | c :: rest, w =>
    (finalizeUnlessForward finalize c w).andThen fun _ => finalizeSubclasses finalize rest

/-- What the methods of STD-CLASS and STRUCTURE-CLASS do after the inherited one:
both read the effective slots. -/
def finishFinalization (c : ClassId) (o : Outcome Ty Unit) : Outcome Ty Unit :=
  o.andThen fun _ w =>
    match (w.classes c).metaclass with
    | .builtInClass | .forwardReferencedClass => (.ok (), w)
    | .structureClass =>
      match (w.classes c).slots with
      | none => (.error .notSequence, w)
      | some slots => if slots.any (·.shared) then (.error .sharedSlots, w) else (.ok (), w)
    | .standardClass | .funcallableStandardClass =>
      match (w.classes c).slots with
      | none => (.error .notSequence, w)
      | some _ => (.ok (), w)

/-- The slots of a class that finalization writes. -/
def World.setFinal (w : World Ty) (c : ClassId) (cpl : List ClassId) (slots : List (Slot Ty)) :
    World Ty :=
  w.modify c fun k =>
    { k with precedenceList := some cpl, slots := some slots, finalized := true }

/-- finalize-inheritance, within a limited stack. -/
def finalizeInheritance (types : Types Ty) : Nat → ClassId → World Ty → Outcome Ty Unit
  | 0, _, w => (.error .exhausted, w)
  | n + 1, c, w =>
    finishFinalization c
      (match w.computeClassPrecedenceList n c with
      | .error e => (.error e, w)
      | .ok cpl =>
        if cpl.tail.any w.forward then (.error .undefinedClass, w)
        else
          -- the top-most class that is not yet finalized, unless it is this one
          match (cpl.reverse.find? fun x => !(w.classes x).finalized).filter (· ≠ c) with
          | some x => finalizeInheritance types n x w
          | none =>
            match computeSlots types w c cpl with
            | .error e => (.error e, w.modify c fun k => { k with precedenceList := some cpl })
            | .ok slots =>
              finalizeSubclasses (finalizeInheritance types n)
                (w.classes c).directSubclasses.reverse (w.setFinal c cpl slots))

/-- FIND-CLASS of a class that must exist. -/
def World.findClass (w : World Ty) (name : ClassName) : Except ClassError ClassId :=
  match w.find name with
  | some c => .ok c
  | none => .error .noClass

def World.checkDirectSuperclasses (w : World Ty) (metaclass : Metaclass)
    (supplied : List ClassId) : Except ClassError (List ClassId) :=
  match supplied with
  | [] =>
    match metaclass with
    | .standardClass => (w.findClass .standardObject).map ([·])
    | .structureClass => (w.findClass .structureObject).map ([·])
    | .funcallableStandardClass => (w.findClass .funcallableStandardObject).map ([·])
    | _ => .error .noSuperclass
  | _ => .ok supplied

/-- The class object that is made next with a given name. -/
def World.fresh (w : World Ty) (name : Option ClassName) : ClassId := ⟨name, w.made name⟩

/-- A class object is allocated. -/
def World.allocate (w : World Ty) (name : Option ClassName) : World Ty :=
  { w with made := fun other => if other = name then w.made name + 1 else w.made other }

/-- make-instance of a metaclass, with the method of INITIALIZE-INSTANCE. -/
def makeClass (types : Types Ty) (limit : Nat) (metaclass : Metaclass) (name : Option ClassName)
    (supplied : List ClassId) (directSlots : List (Slot Ty)) (w : World Ty) :
    Outcome Ty ClassId :=
  match w.checkDirectSuperclasses metaclass supplied with
  | .error e => (.error e, w.allocate name)
  | .ok supers =>
    let c := w.fresh name
    let w := (w.allocate name).modify c fun _ =>
      { name := name, metaclass := metaclass, directSuperclasses := supers,
        directSubclasses := [], precedenceList := none, directSlots := directSlots,
        slots := none, finalized := false }
    let w := supers.foldl (World.addDirectSubclass c) w
    (finalizeUnlessForward (finalizeInheritance types limit) c w).andThen fun _ w => (.ok c, w)

/-- The inherited method of REINITIALIZE-INSTANCE stores what it finds among the
initargs of the slots. -/
def World.storeInitargs (w : World Ty) (c : ClassId) (directSuperclasses : Option (List ClassId))
    (directSlots : Option (List (Slot Ty))) : World Ty :=
  w.modify c fun k =>
    { k with
      directSuperclasses := directSuperclasses.getD k.directSuperclasses
      directSlots := directSlots.getD k.directSlots }

/-- Old superclasses are unlinked and new ones linked. -/
def relinkSuperclasses (c : ClassId) (directSuperclasses : Option (List ClassId)) (w : World Ty) :
    Outcome Ty Unit :=
  match directSuperclasses with
  | none => (.ok (), w)
  | some supplied =>
    match w.checkDirectSuperclasses (w.classes c).metaclass supplied with
    | .error e => (.error e, w)
    | .ok supers =>
      let dropped := (w.directSuperclasses c).filter (· ∉ supers)
      let w := dropped.foldl (World.removeDirectSubclass c) w
      let w := w.modify c fun k => { k with directSuperclasses := supers }
      (.ok (), supers.foldl (World.addDirectSubclass c) w)

/-- The class is finalized again. -/
def refinalize (types : Types Ty) (limit : Nat) (c : ClassId) (w : World Ty) :
    Outcome Ty ClassId :=
  (finalizeUnlessForward (finalizeInheritance types limit) c
    (w.modify c fun k => { k with finalized := false })).andThen fun _ w => (.ok c, w)

def reinitializeInstance (types : Types Ty) (limit : Nat) (c : ClassId)
    (directSuperclasses : Option (List ClassId)) (directSlots : Option (List (Slot Ty)))
    (w : World Ty) : Outcome Ty ClassId :=
  if (w.classes c).name = some .theClass ∨ (w.classes c).name = some .builtInClass then
    (.error .kernelClass, w)
  else
    (relinkSuperclasses c directSuperclasses
      (w.storeInitargs c directSuperclasses directSlots)).andThen fun _ w =>
        refinalize types limit c w

/-- (setf find-class), after the kernel is protected. -/
def setFindClass (name : ClassName) (c : ClassId) (w : World Ty) : Outcome Ty Unit :=
  if (w.find name).any (fun old => (w.classes old).metaclass = .builtInClass) ∨
      name = .theClass ∨ name = .builtInClass then
    (.error .kernelClass, w)
  else (.ok (), { w with find := fun other => if other = name then some c else w.find other })

/-- A superclass in a definition: a class object or a name. -/
inductive ClassSpec where
  | object (c : ClassId)
  | symbol (name : ClassName)

/-- coerce-to-class. A name without a class becomes a forward reference. -/
def coerceToClass (types : Types Ty) (limit : Nat) (w : World Ty) :
    ClassSpec → Outcome Ty ClassId
  | .object c => (.ok c, w)
  | .symbol name =>
    match w.find name with
    | some c => (.ok c, w)
    | none =>
      match w.findClass .standardObject with
      | .error e => (.error e, w)
      | .ok root =>
        (makeClass types limit .forwardReferencedClass (some name) [root] [] w).andThen
          fun c w => (setFindClass name c w).andThen fun _ w => (.ok c, w)

/-- The superclasses in help-ensure-class. -/
def coerceAll (types : Types Ty) (limit : Nat) :
    List ClassSpec → World Ty → Outcome Ty (List ClassId)
  | [], w => (.ok [], w)
  | spec :: specs, w =>
    (coerceToClass types limit w spec).andThen fun c w =>
      (coerceAll types limit specs w).andThen fun rest w => (.ok (c :: rest), w)

def ensureClassUsingClass (types : Types Ty) (limit : Nat) (c : ClassId) (metaclass : Metaclass)
    (supers : List ClassId) (directSlots : List (Slot Ty)) (w : World Ty) : Outcome Ty ClassId :=
  if w.forward c then
    reinitializeInstance types limit c (some supers) (some directSlots)
      (w.modify c fun k => { k with metaclass := metaclass })
  else if (w.classes c).metaclass = metaclass then
    reinitializeInstance types limit c (some supers) (some directSlots) w
  else (.error .metaclass, w)

/-- The class that ENSURE-CLASS redefines: it has the name as its proper name. -/
def World.oldClass (w : World Ty) (name : ClassName) : Option ClassId :=
  (w.find name).filter fun c => (w.classes c).name = some name

def ensureClass (types : Types Ty) (limit : Nat) (name : ClassName) (metaclass : Metaclass)
    (superclasses : List ClassSpec) (directSlots : List (Slot Ty)) (w : World Ty) :
    Outcome Ty ClassId :=
  let old := w.oldClass name
  (coerceAll types limit superclasses w).andThen fun supers w =>
    (match old with
      | none => makeClass types limit metaclass (some name) supers directSlots w
      | some c => ensureClassUsingClass types limit c metaclass supers directSlots w).andThen
      fun c w => (setFindClass name c w).andThen fun _ w => (.ok c, w)

def ClassId.first (name : ClassName) : ClassId := ⟨some name, 0⟩

/-- A class as make-empty-standard-class leaves it, with its place in the
hierarchy. The slots of the metaclasses are left out. -/
def bootClass (name : ClassName) (supers subs cpl : List ClassName) : ClassObject Ty where
  name := some name
  metaclass := if name = .t then .builtInClass else .standardClass
  directSuperclasses := supers.map .first
  directSubclasses := subs.map .first
  precedenceList := some (cpl.map .first)
  directSlots := []
  slots := some []
  finalized := true

def blankClass : ClassObject Ty where
  name := none
  metaclass := .standardClass
  directSuperclasses := []
  directSubclasses := []
  precedenceList := none
  directSlots := []
  slots := none
  finalized := false

def bootHierarchy : Option ClassName → ClassObject Ty
  | some .t => bootClass .t [] [.standardObject] [.t]
  | some .standardObject => bootClass .standardObject [.t] [.theClass] [.standardObject, .t]
  | some .theClass =>
    bootClass .theClass [.standardObject] [.standardClass] [.theClass, .standardObject, .t]
  | some .stdClass =>
    bootClass .stdClass [.theClass] [] [.stdClass, .theClass, .standardObject, .t]
  | some .standardClass =>
    bootClass .standardClass [.stdClass] []
      [.standardClass, .stdClass, .theClass, .standardObject, .t]
  | some .funcallableStandardClass =>
    bootClass .funcallableStandardClass [.stdClass] []
      [.funcallableStandardClass, .stdClass, .theClass, .standardObject, .t]
  | _ => blankClass

/-- The classes of boot.lsp. -/
def bootNames : List ClassName :=
  [.t, .standardObject, .theClass, .stdClass, .standardClass, .funcallableStandardClass]

def boot : World Ty where
  classes c := if c.index = 0 then bootHierarchy c.name else blankClass
  made name := if name.any (· ∈ bootNames) then 1 else 0
  find name := if name ∈ bootNames then some (.first name) else none

end Ecl.Clos
