import Ecl.Predlib.Typep

/- The function canonical-type, and the functions that register types. -/
namespace Ecl.Predlib

open Datum Lisp

variable {Obj : Type} [DecidableEq Obj]

/-- +built-in-types+: a name, its alias or NIL, and its strict supertype. -/
def builtInTypes : List (Name × Datum Obj × Name) :=
  [(.symbol, name .nil, .t),
    (.keyword, name .nil, .symbol),
    (.package, name .nil, .t),
    (.compiledFunction, name .nil, .t),
    (.function, list [name .or, name .compiledFunction, name .genericFunction], .t),
    (.integer, list [name .integer, name .star, name .star], .t),
    (.singleFloat, list [name .singleFloat, name .star, name .star], .t),
    (.doubleFloat, list [name .doubleFloat, name .star, name .star], .t),
    (.ratio, list [name .ratio, name .star, name .star], .t),
    (.rational, list [name .or, name .integer, name .ratio], .t),
    (.float, list [name .or, name .singleFloat, name .doubleFloat], .t),
    (.real, list [name .or, name .integer, name .singleFloat, name .doubleFloat, name .ratio], .t),
    (.complex, list [name .complex, name .real], .t),
    (.number, list [name .or, name .real, name .complex], .t),
    (.character, name .nil, .t),
    (.baseChar, name .nil, .character),
    (.standardChar, name .nil, .baseChar),
    (.cons, name .nil, .t),
    (.null, list [name .member, name .nil], .t),
    (.list, list [name .or, name .cons, list [name .member, name .nil]], .t),
    (.array, list [name .array, name .star, name .star], .t),
    (.simpleArray, list [name .simpleArray, name .star, name .star], .t),
    (.simpleVector, list [name .simpleArray, name .t, list [name .star]], .t),
    (.simpleBitVector, list [name .simpleArray, name .bit, list [name .star]], .t),
    (.vector, list [name .array, name .star, list [name .star]], .t),
    (.string, list [name .array, name .character, list [name .star]], .t),
    (.baseString, list [name .array, name .baseChar, list [name .star]], .t),
    (.simpleString, list [name .simpleArray, name .character, list [name .star]], .t),
    (.simpleBaseString, list [name .simpleArray, name .baseChar, list [name .star]], .t),
    (.bitVector, list [name .array, name .bit, list [name .star]], .t),
    (.sequence, list [name .or, name .cons, list [name .member, name .nil],
      list [name .array, name .star, list [name .star]]], .t),
    (.hashTable, name .nil, .t),
    (.pathname, name .nil, .t),
    (.logicalPathname, name .nil, .pathname),
    (.broadcastStream, name .nil, .t),
    (.concatenatedStream, name .nil, .t),
    (.echoStream, name .nil, .t),
    (.fileStream, name .nil, .t),
    (.stringStream, name .nil, .t),
    (.synonymStream, name .nil, .t),
    (.twoWayStream, name .nil, .t),
    (.stream, list [name .or, name .broadcastStream, name .concatenatedStream, name .echoStream,
      name .fileStream, name .stringStream, name .synonymStream, name .twoWayStream,
      name .fundamentalStream], .t),
    (.readtable, name .nil, .t),
    (.process, name .nil, .t),
    (.lock, name .nil, .t),
    (.foreignData, name .nil, .t),
    (.codeBlock, name .nil, .t)]

section

variable (image : Image Obj) (call : Calls Obj)

/-- The types T and NIL are not registered, and a built-in type is by its name. -/
def findBuiltInTag (type : Datum Obj) : Lisp Obj (Option Int) := do
  if type = name .t then return some (-1)
  else
    match builtInTypes.find? fun i => type = name i.1 with
    | none => return none
    | some (_, aliasType, strictSupertype) =>
      let tag ←
        if aliasType ≠ name .nil then do expect (← call.canonicalType aliasType)
        else do
          let strictSupertypeTag ← call.canonicalType (name strictSupertype)
          let tag ← newTypeTag
          if strictSupertype ≠ .t then extendTypeTag tag (← expect strictSupertypeTag)
          pure tag
      pushType call.typep type tag
      return some tag

def isClass : Datum Obj → Bool
  | .ofClass _ => true
  | .symbol _ => true
  | .object o => image.instancep (.object o)
  | .cons .. => false

def classNamed : Datum Obj → Lisp Obj (Option ClassId)
  | .ofClass c => return some c
  | type => findClass type

def classLe (c1 c2 : Datum Obj) : Lisp Obj Bool := do
  match ← classNamed c1, ← classNamed c2 with
  | some c1, some c2 => subclassp c1 c2
  | _, _ => return false

def coreClassTag (c : ClassId) : Lisp Obj (Option Int) := do
  match ← className c with
  | none => return none
  | some s =>
    if (← findClass (.symbol s : Datum Obj)) = some c then
      match ← findRegisteredTag (.symbol s) with
      | some tag => return some tag
      | none => findBuiltInTag call (.symbol s)
    else return none

def registerClass (c : ClassId) : Lisp Obj Int := do
  match ← findRegisteredTag (.ofClass c) with
  | some tag => return tag
  | none =>
    match ← coreClassTag call c with
    | some tag => return tag
    | none =>
      if ← classFinalizedP c then registerType call.typep (.ofClass c) (isClass image) classLe
      else throwFailure

/-- The loop over the element types, by the tags of the types registered so far. -/
def fastUpgradedArrayElementType (type : Datum Obj) : Lisp Obj (Datum Obj) :=
  if type = name .star then return type
  else if type.elementName.isSome then return type
  else
    firstSupertype (fun other => do return (← fastSubtypep call type (name other)).1)
      upgradedArrayElementTypes

def arrayRankLimit : Int := 64

/-- The largest fixnum. -/
def arrayDimensionLimit : Int := 2 ^ 61 - 1

/-- The dimensions in canonical form. -/
def parseDimensions (input dims : Datum Obj) : Lisp Obj (Datum Obj) :=
  if image.isA .number dims then
    match image.value dims with
    | none => error .wrongType
    | some rank =>
      if -1 < rank ∧ rank < arrayRankLimit then
        return list (List.replicate rank.toNat (name .star))
      else error (.wrongRank input)
  else if dims.consp then do
    let sizes ← expect dims.elements
    if sizes.all fun i => i = name .star || (image.isA .integer i &&
        (image.value i).any fun n => -1 < n ∧ n < arrayDimensionLimit) then return dims
    else error (.wrongDimension input)
  else return dims

/-- The element type and the dimensions. -/
def parseArrayType (input : Datum Obj) (arguments : List (Datum Obj)) :
    Lisp Obj (Datum Obj × Datum Obj) := do
  let eltType ← fastUpgradedArrayElementType call (arguments[0]?.getD (name .star))
  let dims := arguments[1]?.getD (name .star)
  if arguments.length ≤ 2 then return (eltType, ← parseDimensions image input dims)
  else error (.wrongArray input)

def dimensionsLe : Datum Obj → Datum Obj → Lisp Obj Bool
  | .cons _ d dim, .cons _ p pat =>
    if p = name .star ∨ p = d then dimensionsLe dim pat else return false
  | .symbol (.known .nil), pat => return pat = name .nil
  | .cons .., .symbol (.known .nil) => return false
  | _, _ => error .wrongType

def arrayTypeP : Datum Obj → Bool
  | .cons _ (.symbol (.known .array)) _ => true
  | .cons _ (.symbol (.known .simpleArray)) _ => true
  | _ => false

def arrayTypeLe : Datum Obj → Datum Obj → Lisp Obj Bool
  | .cons _ class1 (.cons _ elt1 (.cons _ dim _)), .cons _ class2 (.cons _ elt2 (.cons _ pat _)) =>
    if (class1 = class2 ∨ class2 = name .array) ∧ elt1 = elt2 then
      if pat = name .star then return true
      else if dim = name .star then return false
      else dimensionsLe dim pat
    else return false
  | _, _ => return false

def registerArrayType (input : Datum Obj) (arrayClass : Name) (arguments : List (Datum Obj)) :
    Lisp Obj (Option Int) := do
  let (eltType, dimensions) ← parseArrayType image call input arguments
  if eltType = name .star then
    call.canonicalType (list (name .or :: upgradedArrayElementTypes.map fun type =>
      list [name arrayClass, name type, dimensions]))
  else
    some <$> registerType call.typep (list [name arrayClass, eltType, dimensions]) arrayTypeP
      arrayTypeLe

def boundsLe (b1 b2 : Datum Obj) : Lisp Obj Bool :=
  if b1 = name .star then return true
  else if b2 = name .star then return false
  else
    match b1, b2 with
    | .cons _ b1 _, .cons _ b2 _ => expect (image.le b1 b2)
    | .cons _ b1 _, b2 => expect (image.lt b1 b2)
    | b1, .cons _ b2 _ => expect (image.le b1 b2)
    | b1, b2 => expect (image.le b1 b2)

/-- A list of at most two elements. -/
def isRay : Datum Obj → Bool
  | .cons _ _ (.cons _ _ rest) => rest = name .nil
  | .cons _ _ _ => true
  | _ => false

def rayLe (i1 i2 : Datum Obj) : Lisp Obj Bool := do
  if (← carOf i1) = (← carOf i2) then
    boundsLe image (← carOf (← cdrOf i2)) (← carOf (← cdrOf i1))
  else return false

def registerElementaryInterval (type : Name) (b : Datum Obj) : Lisp Obj Int := do
  let type := list [name type, b]
  let types ← types
  match types.elementaryTypes.find? fun i => type.equalBy image.equalp i.1 with
  | some i => return i.2
  | none => registerNew call.typep type isRay (rayLe image) true

/-- The start of what is behind an interval with a high bound. -/
def behind (type : Name) : Datum Obj → Lisp Obj (Datum Obj)
  | .cons _ b _ => if type = .integer then expect (image.ceiling b) else return b
  | high => if type = .integer then expect (image.floorNext high) else return list [high]

/-- The start of an interval. -/
def front (type : Name) (low : Datum Obj) : Lisp Obj (Datum Obj) :=
  if low = name .star ∨ type ≠ .integer ∨ image.isA .integer low then return low
  else
    match low with
    | .cons _ b _ => expect (image.floorNext b)
    | low => expect (image.ceiling low)

def registerIntervalType (interval : Datum Obj) (type : Name) (bounds : List (Datum Obj)) :
    Lisp Obj Int := do
  let low := bounds[0]?.getD (name .star)
  let high := bounds[1]?.getD (name .star)
  let tagHigh ←
    if high = name .star then pure 0
    else do registerElementaryInterval image call type (← behind image type high)
  let tagLow ← registerElementaryInterval image call type (← front image type low)
  let tag := Int.ldiff tagLow tagHigh
  if high ≠ name .star then pushType call.typep interval tag
  return tag

/-- A number is the interval of itself. -/
def numberMemberType (object : Datum Obj) : Lisp Obj Int := do
  let baseType := if image.isA .integer object then name .integer else image.typeOf object
  let type := list [baseType, object, object]
  match ← findRegisteredTag type with
  | some tag => return tag
  | none =>
    match baseType with
    | .symbol (.known n) => registerIntervalType image call type n [object, object]
    | _ => error .wrongType

/-- The tag that an object has, or a new one. -/
def memberTag (object : Datum Obj) (register : Lisp Obj Int) : Lisp Obj Int := do
  let types ← types
  match types.memberTypes.lookup object with
  | some tag => return tag
  | none => register

/-- The negative zero of a float type has a tag of its own, that the other zero has not. -/
def registerMemberType (object : Datum Obj) : Lisp Obj Int :=
  memberTag object
    (if !image.isA .real object then simpleMemberType call.typep object
    else if image.zeroFloat object then
      if image.minus object then simpleMemberType call.typep object
      else do
        let tag ← numberMemberType image call object
        let negative := image.negate object
        return Int.ldiff tag (← memberTag negative (simpleMemberType call.typep negative))
    else numberMemberType image call object)

/-- The part type is compared with REAL, in the database of the type around it. -/
def upgradedComplexPartType (realType : Datum Obj) : Lisp Obj Unit := do
  if (← nestedSubtypep call realType (name .real)).1 then return ()
  else error (.notPartType realType)

def canonicalComplexType (realType : Datum Obj) : Lisp Obj Int := do
  if realType ≠ name .star then upgradedComplexPartType call realType
  let type := list [name .complex, name .real]
  match ← findRegisteredTag type with
  | some tag => return tag
  | none =>
    let tag ← newTypeTag
    pushType call.typep type tag
    return tag

def registerConsType (carType cdrType : Datum Obj) : Lisp Obj (Option Int) := do
  let carTag ← if carType = name .star then pure (-1) else do expect (← call.canonicalType carType)
  let cdrTag ← if cdrType = name .star then pure (-1) else do expect (← call.canonicalType cdrType)
  if carTag = 0 ∨ cdrTag = 0 then return some 0
  else if carTag = -1 ∧ cdrTag = -1 then call.canonicalType (name .cons)
  else throwFailure

/-- The tags of several types, that are combined only when all are there. -/
def canonicalTypes (types : List (Datum Obj)) : Lisp Obj (List Int) := do
  let tags ← types.mapM call.canonicalType
  tags.mapM expect

/-- A list of the types of numbers with the same bounds. -/
def orTypes (names : List Name) (bounds : Datum Obj) : Datum Obj :=
  list (name .or :: names.map fun n => .cons (.outside 0) (name n) bounds)

/-- The last branch of the CASE; the value NIL is none. -/
def canonicalOther (head arguments : Datum Obj) : Lisp Obj (Option Int) := do
  match ← deftypeDefinition head with
  | some expander =>
    call.canonicalType (← image.expand expander (← expect arguments.elements))
  | none =>
    if (← types).elementaryTypes.any fun i => i.1 = head then return none
    else throwFailure

/-- The CASE on the first element of a list. -/
def canonicalList (type arguments : Datum Obj) (head : Name) : Lisp Obj (Option Int) := do
  match head with
  | .and => return some ((← canonicalTypes call (← expect arguments.elements)).foldr Int.land (-1))
  | .or => return some ((← canonicalTypes call (← expect arguments.elements)).foldr Int.lor 0)
  | .not => return some (Int.lnot (← expect (← call.canonicalType (← carOf arguments))))
  | .eql | .member =>
    let tags ← (← expect arguments.elements).mapM (registerMemberType image call)
    return some (tags.foldr Int.lor 0)
  | .satisfies => throwFailure
  | .integer | .singleFloat | .doubleFloat | .ratio =>
    return some (← registerIntervalType image call type head (← expect arguments.elements))
  | .float => call.canonicalType (orTypes [.singleFloat, .doubleFloat] arguments)
  | .real => call.canonicalType (orTypes [.integer, .ratio, .singleFloat, .doubleFloat] arguments)
  | .rational => call.canonicalType (orTypes [.integer, .ratio] arguments)
  | .complex => return some (← canonicalComplexType call (← carOf arguments))
  | .cons =>
    match ← expect arguments.elements with
    | [] => registerConsType call (name .star) (name .star)
    | [carType] => registerConsType call carType (name .star)
    | [carType, cdrType] => registerConsType call carType cdrType
    | _ => error .wrongType
  | .array | .simpleArray =>
    registerArrayType image call type head (← expect arguments.elements)
  | .function => call.canonicalType (name .function)
  | _ => canonicalOther image call (name head) arguments

def canonicalSymbol (type : Datum Obj) : Lisp Obj (Option Int) := do
  match ← deftypeDefinition type with
  | some expander => call.canonicalType (← image.expand expander [])
  | none =>
    match ← findBuiltInTag call type with
    | some tag => return some tag
    | none =>
      match ← findClass type with
      | some c => return some (← registerClass image call c)
      | none => throwFailure

def canonicalType (type : Datum Obj) : Lisp Obj (Option Int) := do
  match ← findRegisteredTag type with
  | some tag => return some tag
  | none =>
    if type = name .t then return some (-1)
    else if type = name .nil then return some 0
    else
      match type with
      | .symbol _ => canonicalSymbol image call type
      | .cons _ (.symbol (.known head)) arguments => canonicalList image call type arguments head
      | .cons _ head arguments => canonicalOther image call head arguments
      | .ofClass c => return some (← registerClass image call c)
      | .object _ => errorTypeSpecifier type

end

/-- The functions with a limited control stack. -/
def Calls.within (image : Image Obj) : Nat → Calls Obj
  | 0 => { canonicalType := fun _ => error .exhausted, typep := fun _ _ => error .exhausted }
  | depth + 1 =>
    { canonicalType := Predlib.canonicalType image (within image depth)
      typep := Predlib.typep image (within image depth) }

end Ecl.Predlib
