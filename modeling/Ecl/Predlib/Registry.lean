import Ecl.Lib.Interaction
import Ecl.Types.Canonical

/- The objects that predlib.lsp handles: type specifiers, and the objects in them. -/
namespace Ecl.Predlib

/-- The symbols that predlib.lsp names. -/
inductive Name where
  | t | nil | star
  | and | or | not | eql | member | satisfies
  | integer | ratio | shortFloat | singleFloat | doubleFloat | longFloat | rational | float | real
  | complex | number
  | fixnum | bignum
  | symbol | keyword | package | compiledFunction | genericFunction | function
  | character | baseChar | standardChar
  | cons | atom | null | list
  | array | simpleArray | simpleVector | simpleBitVector | vector | string | baseString
  | simpleString | simpleBaseString | bitVector | sequence
  | hashTable | randomState | pathname | logicalPathname | theStructure
  | broadcastStream | concatenatedStream | echoStream | fileStream | stringStream | synonymStream
  | twoWayStream | stream | fundamentalStream
  | readtable | process | lock | foreignData | codeBlock
  | bit | byte8 | integer8 | byte16 | integer16 | byte32 | integer32 | clIndex | byte64 | integer64
  | theClass | builtInClass
  deriving DecidableEq

inductive Symbol where
  | known (n : Name)
  | other (serial : Nat)
  deriving DecidableEq

/-- Where a list was made: before the call, or as one of the lists that the call itself
makes. -/
inductive Address where
  | outside (n : Nat)
  | inside (n : Nat)
  deriving DecidableEq

abbrev ClassId : Type := Nat

/-- A Lisp object; `Obj` are the objects that are neither symbols nor classes nor conses. No
list is changed, so that two conses are EQ when they are equal with their addresses. -/
inductive Datum (Obj : Type) where
  | symbol (s : Symbol)
  | ofClass (c : ClassId)
  | cons (address : Address) (car cdr : Datum Obj)
  | object (o : Obj)
  deriving DecidableEq

namespace Datum

variable {Obj : Type}

abbrev name (n : Name) : Datum Obj := .symbol (.known n)

/-- A list that the type system itself makes, and never compares with EQ. -/
def list : List (Datum Obj) → Datum Obj
  | [] => name .nil
  | x :: rest => .cons (.outside 0) x (list rest)

/-- The elements of a list; an object that is no list has none. -/
def elements : Datum Obj → Option (List (Datum Obj))
  | .symbol (.known .nil) => some []
  | .cons _ car cdr => cdr.elements.map (car :: ·)
  | _ => none

def consp : Datum Obj → Bool
  | .cons .. => true
  | _ => false

/-- The list was made during the call. -/
def inside : Datum Obj → Bool
  | .cons (.inside _) _ _ => true
  | _ => false

/-- EQUAL, or EQUALP where `same` is EQUALP on the other objects. -/
def equalBy (same : Obj → Obj → Bool) : Datum Obj → Datum Obj → Bool
  | .symbol s, .symbol s' => s = s'
  | .ofClass c, .ofClass c' => c = c'
  | .cons _ car cdr, .cons _ car' cdr' => equalBy same car car' && equalBy same cdr cdr'
  | .object o, .object o' => same o o'
  | _, _ => false

def equal [DecidableEq Obj] : Datum Obj → Datum Obj → Bool := equalBy fun o o' => o = o'

end Datum

def upgradedArrayElementTypes : List Name :=
  [.nil, .baseChar, .character, .bit, .byte8, .integer8, .byte16, .integer16, .byte32, .integer32,
    .clIndex, .fixnum, .byte64, .integer64, .singleFloat, .doubleFloat, .t]

abbrev ElementName : Type := { n : Name // n ∈ upgradedArrayElementTypes }

def Datum.elementName {Obj : Type} : Datum Obj → Option ElementName
  | .symbol (.known n) => if member : n ∈ upgradedArrayElementTypes then some ⟨n, member⟩ else none
  | _ => none

/-- A type that is not one of +upgraded-array-element-types+. -/
abbrev OtherType (Obj : Type) : Type := { type : Datum Obj // type.elementName = none }

theorem Datum.elementName_name {Obj : Type} (n : ElementName) :
    (Datum.name n.1 : Datum Obj).elementName = some n :=
  dif_pos n.2

theorem OtherType.ne_name {Obj : Type} (type : OtherType Obj) (n : ElementName) :
    type.1 ≠ Datum.name n.1 := by
  intro same
  have none := type.2
  rw [same, Datum.elementName_name] at none
  cases none

/-- The C functions on objects that predlib.lsp calls. -/
structure Primitives (Obj : Type) where
  hashEql : List (Datum Obj) → Nat
  /-- The predicate for the objects of a built-in type: INTEGERP, CONSP and so on. -/
  isA : Name → Datum Obj → Bool
  typeOf : Datum Obj → Datum Obj
  classOf : Datum Obj → ClassId
  instancep : Datum Obj → Bool
  equalp : Obj → Obj → Bool
  /-- <= and <, of two numbers. -/
  le : Datum Obj → Datum Obj → Option Bool
  lt : Datum Obj → Datum Obj → Option Bool
  /-- The value of an integer. -/
  value : Datum Obj → Option Int
  /-- (FLOOR (1+ x)) and (CEILING x). -/
  floorNext : Datum Obj → Option (Datum Obj)
  ceiling : Datum Obj → Option (Datum Obj)
  /-- A float zero. -/
  zeroFloat : Datum Obj → Bool
  /-- The sign of a float is negative. -/
  minus : Datum Obj → Bool
  negate : Datum Obj → Datum Obj
  complexParts : Datum Obj → Option (Datum Obj × Datum Obj)
  arrayElementType : Datum Obj → Datum Obj
  arrayDimensions : Datum Obj → List Nat

/- The database of types and what is looked up outside of it, as the functions of predlib.lsp
see both. -/

open Ecl.Lib
open Ecl.Types (Database)

variable {Obj α β : Type}

/-- A function that was given to DEFTYPE. -/
abbrev FunctionId : Type := Nat

/-- What is reached outside of the variables that SUBTYPEP binds: the tables of types and
classes, and the two caches. -/
inductive Command (Obj : Type) where
  /-- (GET-SYSPROP s 'DEFTYPE-DEFINITION) -/
  | deftype (s : Symbol)
  /-- (FIND-CLASS s NIL) -/
  | findClass (s : Symbol)
  | className (c : ClassId)
  | classFinalizedP (c : ClassId)
  | classPrecedenceList (c : ClassId)
  /-- *subtypep-cache* -/
  | find (t1 t2 : Datum Obj)
  | store (t1 t2 : Datum Obj) (values : Bool × Bool)
  /-- *upgraded-array-element-type-cache* -/
  | findUpgraded (elementType : OtherType Obj)
  | storeUpgraded (elementType : OtherType Obj) (answer : Datum Obj)
  /-- UPGRADED-ARRAY-ELEMENT-TYPE of one of +upgraded-array-element-types+, that compares no
  types. -/
  | upgradedName (n : ElementName)

def Command.Answer : Command Obj → Type
  | .deftype _ => Option FunctionId
  | .findClass _ => Option ClassId
  | .className _ => Option Symbol
  | .classFinalizedP _ => Bool
  | .classPrecedenceList _ => Option (List ClassId)
  | .find _ _ => Option (Bool × Bool)
  | .store _ _ _ => Unit
  | .findUpgraded _ => Option (Datum Obj)
  | .storeUpgraded _ _ => Unit
  | .upgradedName _ => Datum Obj

/-- The errors that end a call. -/
inductive TypeError (Obj : Type) where
  /-- "~S is not a valid type specifier." -/
  | notSpecifier (type : Datum Obj)
  /-- "~S is not a valid part type for a complex." -/
  | notPartType (type : Datum Obj)
  /-- "Wrong array type designator ~S." -/
  | wrongArray (type : Datum Obj)
  /-- "Wrong rank size array type ~S." -/
  | wrongRank (type : Datum Obj)
  /-- "Wrong dimension size in array type ~S." -/
  | wrongDimension (type : Datum Obj)
  /-- "~S does not describe array dimensions." -/
  | notDimensions (pat : Datum Obj)
  /-- "Symbol ~s is a declaration specifier and cannot be used to name a new type" -/
  | declaration (name : Datum Obj)
  /-- "The class associated to the CL specifier ~S cannot be changed." -/
  | builtInClass (name : Symbol)
  /-- "The kernel CLOS class ~S cannot be changed." -/
  | kernelClass (name : Symbol)
  /-- "~A is not a class." -/
  | notClass (new : Datum Obj)
  /-- An argument of the wrong type. -/
  | wrongType
  /-- The control stack is exhausted. -/
  | exhausted
  deriving DecidableEq

/-- How a call ends: with a value, at the catch of +canonical-type-failure+, or with an error. -/
inductive Outcome (Obj α : Type) where
  | value (a : α)
  | thrown
  | error (e : TypeError Obj)
  deriving DecidableEq

/-- The variables that SUBTYPEP binds. -/
structure Binding (Obj : Type) where
  saveTypesDatabase : Bool
  types : Database (Datum Obj) (Datum Obj)

/-- The bindings in force and those around them, and the number of lists that were made. The
lists of an enclosing binding are the tails of the lists in force until they are saved. -/
structure State (Obj : Type) where
  current : Binding Obj
  enclosing : List (Binding Obj)
  conses : Nat

/-- What a call from outside finds. -/
def State.start : State Obj := ⟨⟨true, .empty⟩, [], 0⟩

/-- A call inside of SUBTYPEP. -/
def Lisp (Obj α : Type) : Type :=
  State Obj → Interaction (@Command.Answer Obj) (Outcome Obj α × State Obj)

namespace Lisp

def bind (x : Lisp Obj α) (f : α → Lisp Obj β) : Lisp Obj β := fun s =>
  (x s).bind fun
    | (.value a, s) => f a s
    | (.thrown, s) => .done (.thrown, s)
    | (.error e, s) => .done (.error e, s)

instance : Monad (Lisp Obj) where
  pure a := fun s => .done (.value a, s)
  bind := bind

def throwFailure : Lisp Obj α := fun s => .done (.thrown, s)

def error (e : TypeError Obj) : Lisp Obj α := fun s => .done (.error e, s)

def ask (q : Command Obj) : Lisp Obj q.Answer := fun s =>
  .ask q fun answer => .done (.value answer, s)

/-- A value that must be there. -/
def expect : Option α → Lisp Obj α
  | some a => pure a
  | none => error .wrongType

/-- (CATCH '+canonical-type-failure+ ...) -/
def catchFailure (x : Lisp Obj (Option α)) : Lisp Obj (Option α) := fun s =>
  (x s).bind fun
    | (.thrown, s) => .done (.value none, s)
    | result => .done result

/-- A list that the call makes. -/
def cons (car cdr : Datum Obj) : Lisp Obj (Datum Obj) := fun s =>
  .done (.value (.cons (.inside s.conses) car cdr), { s with conses := s.conses + 1 })

/-- A write to variables that are bound. -/
def modify (f : State Obj → State Obj) : Lisp Obj Unit := fun s => .done (.value (), f s)

def types : Lisp Obj (Database (Datum Obj) (Datum Obj)) := fun s =>
  .done (.value s.current.types, s)

/-- The variables are bound again to their values. -/
def bindTypes (x : Lisp Obj α) : Lisp Obj α := fun s =>
  (x { s with current := { s.current with saveTypesDatabase := true },
              enclosing := s.current :: s.enclosing }).bind fun (result, s') =>
    .done (result, { s' with current := s'.enclosing.headD s.current,
                             enclosing := s'.enclosing.tail })

end Lisp

open Lisp

def newTypeTag : Lisp Obj Int := do
  let types ← types
  modify fun s => { s with current := { s.current with types := types.newTypeTag.2 } }
  return types.newTypeTag.1

def maybeSaveTypes : Lisp Obj Unit :=
  modify fun s => { s with current := { s.current with saveTypesDatabase := false } }

/-- A write to the pairs of *elementary-types*, through all the bindings that share them. -/
def writeShared (f : Database (Datum Obj) (Datum Obj) → Database (Datum Obj) (Datum Obj)) :
    Bool → List (Binding Obj) → List (Binding Obj)
  | true, b :: rest =>
    { b with types := { b.types with elementaryTypes := (f b.types).elementaryTypes } } ::
      writeShared f b.saveTypesDatabase rest
  | _, bindings => bindings

def writeTypes (f : Database (Datum Obj) (Datum Obj) → Database (Datum Obj) (Datum Obj)) :
    Lisp Obj Unit :=
  modify fun s =>
    { s with
      current := { s.current with types := f s.current.types }
      enclosing := writeShared f s.current.saveTypesDatabase s.enclosing }

def findRegisteredTag [DecidableEq Obj] (type : Datum Obj) : Lisp Obj (Option Int) := do
  let types ← types
  return (types.elementaryTypes.find? fun i => type.equal i.1).map (·.2)

def updateTypes (typeMask newTag : Int) : Lisp Obj Unit := do
  maybeSaveTypes
  writeTypes fun types => types.updateTypes typeMask newTag

def extendTypeTag (tag minimalSupertypeTag : Int) : Lisp Obj Unit :=
  writeTypes fun types => types.extendTypeTag tag minimalSupertypeTag

def boundsRound (type : Datum Obj) (inOurFamilyP : Datum Obj → Bool)
    (typeLe : Datum Obj → Datum Obj → Lisp Obj Bool) (minimizeSuper : Bool) (b : Database.Bounds)
    (i : Datum Obj × Int) : Lisp Obj Database.Bounds := do
  if inOurFamilyP i.1 then
    if ← typeLe type i.1 then
      if minimizeSuper then
        if Int.ldiff i.2 b.supertypeTag = 0 then return { b with supertypeTag := i.2 }
        else return b
      else return { b with supertypeTag := Int.lor i.2 b.supertypeTag }
    else if ← typeLe i.1 type then return { b with subtypeTag := Int.lor i.2 b.subtypeTag }
    else return { b with disjointTag := Int.lor b.disjointTag i.2 }
  else return b

def findTypeBounds (type : Datum Obj) (inOurFamilyP : Datum Obj → Bool)
    (typeLe : Datum Obj → Datum Obj → Lisp Obj Bool) (minimizeSuper : Bool) :
    Lisp Obj (Int × Int) := do
  let types ← types
  let b ← types.elementaryTypes.foldlM (boundsRound type inOurFamilyP typeLe minimizeSuper)
    ⟨0, 0, if minimizeSuper then -1 else 0⟩
  return (if b.supertypeTag = -1 then 0
    else Int.ldiff b.supertypeTag (Int.lor b.disjointTag b.subtypeTag), b.subtypeTag)

section

variable (typep : Datum Obj → Datum Obj → Lisp Obj Bool)

def pushType (type : Datum Obj) (tag : Int) : Lisp Obj Unit := do
  let types ← types
  let tag ← types.memberTypes.foldlM
    (fun tag i => do if ← typep i.1 type then return Int.lor tag i.2 else return tag) tag
  modify fun s =>
    { s with current := { s.current with types := { s.current.types with
        elementaryTypes := (type, tag) :: s.current.types.elementaryTypes } } }

/-- A type with a new tag, below its supertypes and above its subtypes. -/
def registerNew (type : Datum Obj) (inOurFamilyP : Datum Obj → Bool)
    (typeLe : Datum Obj → Datum Obj → Lisp Obj Bool) (minimizeSuper : Bool) : Lisp Obj Int := do
  let (tagSuper, tagSub) ← findTypeBounds type inOurFamilyP typeLe minimizeSuper
  let tag ← newTypeTag
  updateTypes (Int.ldiff tagSuper tagSub) tag
  let tag := Int.lor tag tagSub
  pushType typep type tag
  return tag

def registerType [DecidableEq Obj] (type : Datum Obj) (inOurFamilyP : Datum Obj → Bool)
    (typeLe : Datum Obj → Datum Obj → Lisp Obj Bool) : Lisp Obj Int := do
  match ← findRegisteredTag type with
  | some tag => return tag
  | none => registerNew typep type inOurFamilyP typeLe false

/-- An object with a tag of its own, that the types get to which it belongs. -/
def simpleMemberType (object : Datum Obj) : Lisp Obj Int := do
  let tag ← newTypeTag
  maybeSaveTypes
  modify fun s =>
    { s with current := { s.current with types := { s.current.types with
        memberTypes := (object, tag) :: s.current.types.memberTypes } } }
  let types ← types
  let elementaryTypes ← types.elementaryTypes.mapM fun i => do
    if ← typep object i.1 then return (i.1, Int.lor tag i.2) else return i
  modify fun s =>
    { s with current := { s.current with types := { s.current.types with
        elementaryTypes := elementaryTypes } } }
  return tag

end

end Ecl.Predlib
