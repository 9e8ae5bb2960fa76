import Mathlib.Data.Rat.Floor
import Mathlib.Data.Int.Bitwise

/- Integers, symbols and other objects, the specifiers of their types, and typep on these. -/
namespace Ecl.Types

inductive Object where
  | integer (n : Int)
  | symbol (serial : Nat)
  | keyword (serial : Nat)
  | cons (address : Nat)
  | character (code : Nat)
  | other (address : Nat)
  deriving DecidableEq

inductive TypeName where
  | integer
  | symbol
  | keyword
  | cons
  | character
  deriving DecidableEq

/-- A bound of an interval: the symbol *, a number, or a list with a number. -/
inductive Bound where
  | star
  | inclusive (b : ℚ)
  | exclusive (b : ℚ)
  deriving DecidableEq

/-- What is after INTEGER in a list. -/
inductive Interval where
  | all
  | above (low : Bound)
  | between (low high : Bound)
  deriving DecidableEq

namespace Interval

def low : Interval → Bound
  | .all => .star
  | .above low => low
  | .between low _ => low

def high : Interval → Bound
  | .all => .star
  | .above _ => .star
  | .between _ high => high

end Interval

/-- What EQL and MEMBER list. -/
inductive Atom where
  | integer (n : Int)
  | symbol (serial : Nat)
  | keyword (serial : Nat)
  deriving DecidableEq

def Atom.object : Atom → Object
  | .integer n => .integer n
  | .symbol serial => .symbol serial
  | .keyword serial => .keyword serial

inductive Specifier where
  | t
  | nil
  | name (n : TypeName)
  | integer (interval : Interval)
  | member (objects : List Atom)
  | and (types : List Specifier)
  | or (types : List Specifier)
  | not (type : Specifier)

def inIntervalP (x : ℚ) (interval : Interval) : Bool :=
  (match interval.low with
    | .star => true
    | .exclusive low => !(x ≤ low)
    | .inclusive low => !(x < low)) &&
  (match interval.high with
    | .star => true
    | .exclusive high => !(high ≤ x)
    | .inclusive high => !(high < x))

def TypeName.typep : Object → TypeName → Bool
  | .integer _, .integer => true
  | .symbol _, .symbol => true
  | .keyword _, .symbol => true
  | .keyword _, .keyword => true
  | .cons _, .cons => true
  | .character _, .character => true
  | _, _ => false

def Interval.typep : Object → Interval → Bool
  | .integer n, interval => inIntervalP n interval
  | _, _ => false

mutual

def typep (object : Object) : Specifier → Bool
  | .t => true
  | .nil => false
  | .name n => n.typep object
  | .integer interval => interval.typep object
  | .member objects => objects.any fun a => a.object = object
  | .and types => typepAll object types
  | .or types => typepAny object types
  | .not type => !typep object type

def typepAll (object : Object) : List Specifier → Bool
  | [] => true
  | e :: types => typep object e && typepAll object types

def typepAny (object : Object) : List Specifier → Bool
  | [] => false
  | e :: types => typep object e || typepAny object types

end

end Ecl.Types

/- The database of types of predlib.lsp: a tag, a set of bits, for each type that is registered.
The lists are modelled as values, so that maybe-save-types, that copies them, has nothing
to do. -/
namespace Ecl.Types

/-- The variables *highest-type-tag*, *member-types* and *elementary-types*. -/
structure Database (Object Key : Type) where
  highestTypeTag : Int
  memberTypes : List (Object × Int)
  elementaryTypes : List (Key × Int)

variable {Object Key : Type}

/-- The database before anything is registered. -/
def Database.empty : Database Object Key where
  highestTypeTag := 1
  memberTypes := []
  elementaryTypes := []

namespace Database

variable (db : Database Object Key)

def newTypeTag : Int × Database Object Key :=
  (db.highestTypeTag, { db with highestTypeTag := 2 * db.highestTypeTag })

def findRegisteredTag [BEq Key] (type : Key) : Option Int := db.elementaryTypes.lookup type

def updateTypes (typeMask newTag : Int) : Database Object Key :=
  { db with
    elementaryTypes := db.elementaryTypes.map fun i =>
      if Int.land i.2 typeMask = 0 then i else (i.1, Int.lor newTag i.2) }

/-- The variables of find-type-bounds. -/
structure Bounds where
  subtypeTag : Int
  disjointTag : Int
  supertypeTag : Int

def boundsRound (type : Key) (inOurFamily : Key → Bool) (le : Key → Key → Bool)
    (minimizeSuper : Bool) (b : Bounds) (i : Key × Int) : Bounds :=
  if inOurFamily i.1 then
    if le type i.1 then
      if minimizeSuper then
        if Int.ldiff i.2 b.supertypeTag = 0 then { b with supertypeTag := i.2 } else b
      else { b with supertypeTag := Int.lor i.2 b.supertypeTag }
    else if le i.1 type then { b with subtypeTag := Int.lor i.2 b.subtypeTag }
    else { b with disjointTag := Int.lor b.disjointTag i.2 }
  else b

/-- The tag of the supertypes and the tag of the subtypes. -/
def findTypeBounds (type : Key) (inOurFamily : Key → Bool) (le : Key → Key → Bool)
    (minimizeSuper : Bool) : Int × Int :=
  let b := db.elementaryTypes.foldl (boundsRound type inOurFamily le minimizeSuper)
    ⟨0, 0, if minimizeSuper then -1 else 0⟩
  (if b.supertypeTag = -1 then 0
    else Int.ldiff b.supertypeTag (Int.lor b.disjointTag b.subtypeTag), b.subtypeTag)

/-- The type gets the tags of the objects that belong to it too. -/
def pushType (typep : Object → Key → Bool) (type : Key) (tag : Int) : Database Object Key :=
  { db with
    elementaryTypes :=
      (type, db.memberTypes.foldl (fun tag i => if typep i.1 type then Int.lor tag i.2 else tag)
        tag) :: db.elementaryTypes }

/-- A type with a new tag, below its supertypes and above its subtypes. -/
def registerNew (typep : Object → Key → Bool) (type : Key) (inOurFamily : Key → Bool)
    (le : Key → Key → Bool) (minimizeSuper : Bool) : Int × Database Object Key :=
  let (tagSuper, tagSub) := db.findTypeBounds type inOurFamily le minimizeSuper
  let (tag, db) := db.newTypeTag
  let db := db.updateTypes (Int.ldiff tagSuper tagSub) tag
  let tag := Int.lor tag tagSub
  (tag, db.pushType typep type tag)

def registerType [BEq Key] (typep : Object → Key → Bool) (type : Key) (inOurFamily : Key → Bool)
    (le : Key → Key → Bool) : Int × Database Object Key :=
  match db.findRegisteredTag type with
  | some tag => (tag, db)
  | none => db.registerNew typep type inOurFamily le false

/-- An object with a tag of its own, that the types get to which it belongs. -/
def simpleMemberType (typep : Object → Key → Bool) (object : Object) :
    Int × Database Object Key :=
  let (tag, db) := db.newTypeTag
  (tag, { db with
    memberTypes := (object, tag) :: db.memberTypes
    elementaryTypes := db.elementaryTypes.map fun i =>
      if typep object i.1 then (i.1, Int.lor tag i.2) else i })

def extendTypeTag (tag minimalSupertypeTag : Int) : Database Object Key :=
  { db with
    elementaryTypes := db.elementaryTypes.map fun i =>
      if Int.ldiff minimalSupertypeTag i.2 = 0 then (i.1, Int.lor tag i.2) else i }

end Database

end Ecl.Types

/- The function canonical-type of predlib.lsp on integer and symbol types, and fast-subtypep. -/
namespace Ecl.Types

/-- A specifier that is registered as it is: a name, a list (INTEGER b), and a list
(INTEGER low high). -/
inductive Key where
  | name (n : TypeName)
  | ray (b : Option Int)
  | between (low high : Bound)
  deriving DecidableEq

def Key.typep (object : Object) : Key → Bool
  | .name n => n.typep object
  | .ray none => Interval.typep object .all
  | .ray (some b) => Interval.typep object (.above (.inclusive b))
  | .between low high => Interval.typep object (.between low high)

/-- The variables of the type system. -/
abbrev TypeState : Type := Database Object Key

/-- Rays are the lists with two elements. -/
def Key.isRay : Key → Bool
  | .ray _ => true
  | _ => false

def boundsLe : Option Int → Option Int → Bool
  | none, _ => true
  | some _, none => false
  | some b1, some b2 => b1 ≤ b2

/-- A ray that is contained in another one. -/
def Key.rayLe : Key → Key → Bool
  | .ray b1, .ray b2 => boundsLe b2 b1
  | _, _ => false

def registerElementaryInterval (b : Option Int) (db : TypeState) : Int × TypeState :=
  match db.findRegisteredTag (.ray b) with
  | some tag => (tag, db)
  | none => db.registerNew Key.typep (.ray b) Key.isRay Key.rayLe true

/-- The first integer above a low bound. -/
def Bound.first : Bound → Option Int
  | .star => none
  | .inclusive low => some ⌈low⌉
  | .exclusive low => some ⌊1 + low⌋

/-- The first integer above an interval with a high bound. -/
def Bound.next : Bound → Option Int
  | .star => none
  | .inclusive high => some ⌊1 + high⌋
  | .exclusive high => some ⌈high⌉

/-- The tag for the high bound comes first. -/
def registerIntervalType (interval : Interval) (db : TypeState) : Int × TypeState :=
  let (tagHigh, db) :=
    match interval.high.next with
    | none => (0, db)
    | some high => registerElementaryInterval (some high) db
  let (tagLow, db) := registerElementaryInterval interval.low.first db
  let tag := Int.ldiff tagLow tagHigh
  match interval with
  | .between low high =>
    if high = .star then (tag, db) else (tag, db.pushType Key.typep (.between low high) tag)
  | _ => (tag, db)

def numberMemberType (n : Int) (db : TypeState) : Int × TypeState :=
  match db.findRegisteredTag (.between (.inclusive n) (.inclusive n)) with
  | some tag => (tag, db)
  | none => registerIntervalType (.between (.inclusive n) (.inclusive n)) db

def registerMemberType (a : Atom) (db : TypeState) : Int × TypeState :=
  match db.memberTypes.lookup a.object with
  | some tag => (tag, db)
  | none =>
    match a with
    | .integer n => numberMemberType n db
    | a => db.simpleMemberType Key.typep a.object

def registerMemberTypes : List Atom → TypeState → List Int × TypeState
  | [], db => ([], db)
  | a :: objects, db =>
    let (tag, db) := registerMemberType a db
    let (tags, db) := registerMemberTypes objects db
    (tag :: tags, db)

/-- The names of +built-in-types+ without an alias, and all below the supertype T. -/
def registerBuiltIn (name : TypeName) (db : TypeState) : Int × TypeState :=
  let (tag, db) := db.newTypeTag
  (tag, db.pushType Key.typep (.name name) tag)

/-- The function find-built-in-tag; the supertype of KEYWORD is looked up first. -/
def findBuiltInTag : TypeName → TypeState → Int × TypeState
  | .integer, db =>
    let (tag, db) := registerIntervalType (.between .star .star) db
    (tag, db.pushType Key.typep (.name .integer) tag)
  | .keyword, db =>
    let (strictSupertypeTag, db) :=
      match db.findRegisteredTag (.name .symbol) with
      | some tag => (tag, db)
      | none => registerBuiltIn .symbol db
    let (tag, db) := db.newTypeTag
    let db := db.extendTypeTag tag strictSupertypeTag
    (tag, db.pushType Key.typep (.name .keyword) tag)
  | name, db => registerBuiltIn name db

/-- The key that is EQUAL to a specifier of integers. -/
def Interval.key : Interval → Option Key
  | .above .star => some (.ray none)
  | .above (.inclusive low) => if low.den = 1 then some (.ray (some low.num)) else none
  | .between low high => some (.between low high)
  | _ => none

def canonicalInterval (interval : Interval) (db : TypeState) : Int × TypeState :=
  match interval.key.bind db.findRegisteredTag with
  | some tag => (tag, db)
  | none => registerIntervalType interval db

def canonicalName (name : TypeName) (db : TypeState) : Int × TypeState :=
  match db.findRegisteredTag (.name name) with
  | some tag => (tag, db)
  | none => findBuiltInTag name db

mutual

def canonicalType : Specifier → TypeState → Int × TypeState
  | .t, db => (-1, db)
  | .nil, db => (0, db)
  | .name name, db => canonicalName name db
  | .integer interval, db => canonicalInterval interval db
  | .member objects, db =>
    let (tags, db) := registerMemberTypes objects db
    (tags.foldr Int.lor 0, db)
  | .and types, db =>
    let (tags, db) := canonicalTypes types db
    (tags.foldr Int.land (-1), db)
  | .or types, db =>
    let (tags, db) := canonicalTypes types db
    (tags.foldr Int.lor 0, db)
  | .not type, db =>
    let (tag, db) := canonicalType type db
    (Int.lnot tag, db)

/-- A call of mapcar. -/
def canonicalTypes : List Specifier → TypeState → List Int × TypeState
  | [], db => ([], db)
  | type :: types, db =>
    let (tag, db) := canonicalType type db
    let (tags, db) := canonicalTypes types db
    (tag :: tags, db)

end

/-- The two values of fast-subtypep, and the database that it leaves. The tags are only used
when both types are registered. The specifiers are EQ or not. -/
def fastSubtypep (eq : Bool) (t1 t2 : Specifier) (db : TypeState) : (Bool × Bool) × TypeState :=
  if eq then ((true, true), db)
  else
    let (_, db) := canonicalType t1 db
    let (_, db) := canonicalType t2 db
    let (tag1, db) := canonicalType t1 db
    let (tag2, db) := canonicalType t2 db
    ((Int.ldiff tag1 tag2 = 0, true), db)

end Ecl.Types
