import Ecl.Predlib.Registry

/- The functions typep, fast-subtypep and subtypep, over the functions one call further down the
control stack. -/
namespace Ecl.Predlib

open Datum Lisp

variable {Obj : Type} [DecidableEq Obj]

/-- What a program is made of beside predlib.lsp: the C functions, the functions that were given
to DEFTYPE, and the predicates in SATISFIES. -/
structure Image (Obj : Type) extends Primitives Obj where
  expand : FunctionId → List (Datum Obj) → Lisp Obj (Datum Obj)
  satisfies : Datum Obj → Datum Obj → Lisp Obj Bool
  alienDeclarations : List Symbol

/-- The functions that call each other, one call further down. -/
structure Calls (Obj : Type) where
  canonicalType : Datum Obj → Lisp Obj (Option Int)
  typep : Datum Obj → Datum Obj → Lisp Obj Bool

def deftypeDefinition : Datum Obj → Lisp Obj (Option FunctionId)
  | .symbol s => ask (.deftype s)
  | _ => return none

def findClass : Datum Obj → Lisp Obj (Option ClassId)
  | .symbol s => ask (.findClass s)
  | _ => return none

def className (c : ClassId) : Lisp Obj (Option Symbol) := ask (.className c)

def classFinalizedP (c : ClassId) : Lisp Obj Bool := ask (.classFinalizedP c)

def classPrecedenceList (c : ClassId) : Lisp Obj (Option (List ClassId)) :=
  ask (.classPrecedenceList c)

def subclassp (low high : ClassId) : Lisp Obj Bool := do
  if low = high then return true
  else
    let cpl ← expect (← classPrecedenceList low)
    return high ∈ cpl

def errorTypeSpecifier {α : Type} (type : Datum Obj) : Lisp Obj α := error (.notSpecifier type)

def carOf : Datum Obj → Lisp Obj (Datum Obj)
  | .cons _ car _ => return car
  | .symbol (.known .nil) => return name .nil
  | _ => error .wrongType

def cdrOf : Datum Obj → Lisp Obj (Datum Obj)
  | .cons _ _ cdr => return cdr
  | .symbol (.known .nil) => return name .nil
  | _ => error .wrongType

section

variable (image : Image Obj) (call : Calls Obj)

def safeCanonicalType (type : Datum Obj) : Lisp Obj (Option Int) :=
  catchFailure (call.canonicalType type)

def fastSubtypep (t1 t2 : Datum Obj) : Lisp Obj (Bool × Bool) := do
  if t1 = t2 then return (true, true)
  else
    match ← safeCanonicalType call t1, ← safeCanonicalType call t2 with
    | some _, some _ =>
      -- registering the second type can change the tag of the first
      let tag1 ← expect (← safeCanonicalType call t1)
      let tag2 ← expect (← safeCanonicalType call t2)
      return (decide (Int.ldiff tag1 tag2 = 0), true)
    | _, _ => return (false, false)

/-- SUBTYPEP, where `find` and `store` reach the cache and `compare` is FAST-SUBTYPEP. -/
def subtypepWith {m : Type → Type} [Monad m] (subclassp : ClassId → ClassId → m Bool)
    (find : m (Option (Bool × Bool))) (compare : m (Bool × Bool)) (store : Bool × Bool → m Unit)
    (t1 t2 : Datum Obj) : m (Bool × Bool) :=
  if t1 = t2 then return (true, true)
  else
    match t1, t2 with
    | .ofClass c1, .ofClass c2 => do
        let test ← subclassp c1 c2
        return (test, true)
    | _, _ => do
        match ← find with
        | some values => return values
        | none =>
          let values ← compare
          store values
          return values

/-- SUBTYPEP inside of another call, with the variables bound once more. -/
def nestedSubtypep (t1 t2 : Datum Obj) : Lisp Obj (Bool × Bool) :=
  subtypepWith subclassp (ask (.find t1 t2)) (bindTypes (fastSubtypep call t1 t2))
    (fun values => ask (.store t1 t2 values)) t1 t2

/-- The loop of UPGRADED-ARRAY-ELEMENT-TYPE. -/
def firstSupertype {m : Type → Type} [Monad m] (subtypep : Name → m Bool) :
    List Name → m (Datum Obj)
  | [] => return name .t
  | v :: rest => do
      let test ← subtypep v
      if test then return name v else firstSupertype subtypep rest

/-- UPGRADED-ARRAY-ELEMENT-TYPE, where `find` and `store` reach the cache. -/
def upgradedWith {m : Type → Type} [Monad m] (find : m (Option (Datum Obj)))
    (subtypep : Name → m Bool) (store : Datum Obj → m Unit) (elementType : Datum Obj) :
    m (Datum Obj) := do
  match ← find with
  | some answer => return answer
  | none =>
    let answer ←
      if elementType.elementName.isSome then pure elementType
      else firstSupertype subtypep upgradedArrayElementTypes
    store answer
    return answer

/-- UPGRADED-ARRAY-ELEMENT-TYPE inside of another call. -/
def nestedUpgraded (elementType : Datum Obj) : Lisp Obj (Datum Obj) :=
  match other : elementType.elementName with
  | some n => ask (.upgradedName n)
  | none =>
    upgradedWith (ask (.findUpgraded ⟨elementType, other⟩))
      (fun v => do return (← nestedSubtypep call elementType (name v)).1)
      (fun answer => ask (.storeUpgraded ⟨elementType, other⟩ answer)) elementType

def belowLow (x low : Datum Obj) : Lisp Obj Bool :=
  if low = name .star then return false
  else
    match low with
    | .cons _ b _ => expect (image.le x b)
    | b => expect (image.lt x b)

def aboveHigh (x high : Datum Obj) : Lisp Obj Bool :=
  if high = name .star then return false
  else
    match high with
    | .cons _ b _ => expect (image.le b x)
    | b => expect (image.lt b x)

def inIntervalP (x interval : Datum Obj) : Lisp Obj Bool := do
  let (low, high) :=
    match ← expect interval.elements with
    | [] => (name .star, name .star)
    | [low] => (low, name .star)
    | low :: high :: _ => (low, high)
  if ← belowLow image x low then return false
  else return !(← aboveHigh image x high)

/-- The loop of match-dimensions. -/
def matchPattern : List Nat → Datum Obj → Bool
  | [], pat => pat = name .nil
  | n :: dims, .cons _ car cdr =>
    (car = name .star || (image.isA .integer car && image.value car = some n)) &&
      matchPattern dims cdr
  | _ :: _, _ => false

def matchDimensions (array pat : Datum Obj) : Lisp Obj Bool :=
  if pat = name .star then return true
  else if image.isA .number pat then
    return image.value pat = some (image.arrayDimensions array).length
  else if pat.consp || pat = name .nil then
    return matchPattern image (image.arrayDimensions array) pat
  else error (.notDimensions pat)

def knownTypepPredicates : List Name :=
  [.array, .atom, .baseChar, .baseString, .bitVector, .character, .compiledFunction, .complex,
    .cons, .float, .function, .hashTable, .integer, .fixnum, .keyword, .list, .logicalPathname,
    .nil, .null, .number, .package, .randomState, .rational, .pathname, .readtable, .real,
    .simpleArray, .simpleString, .simpleVector, .stream, .string, .theStructure,
      .symbol, .t, .vector]

/-- The element type and the dimensions of an array type. -/
def matchArray (object i : Datum Obj) : Lisp Obj Bool := do
  if i = name .nil then return true
  else
    let element ← carOf i
    let dims ← cdrOf i
    let matched ←
      if element = name .star then pure true
      else do pure (decide (image.arrayElementType object = (← nestedUpgraded call element)))
    if !matched then return false
    else if dims = name .nil then return true
    else matchDimensions image object (← carOf dims)

def typepAny (object : Datum Obj) : List (Datum Obj) → Lisp Obj Bool
  | [] => return false
  | e :: i => do if ← call.typep object e then return true else typepAny object i

def typepAll (object : Datum Obj) : List (Datum Obj) → Lisp Obj Bool
  | [] => return true
  | e :: i => do if ← call.typep object e then typepAll object i else return false

/-- The last branch of the CASE. -/
def typepOther (object type : Datum Obj) (tp i : Datum Obj) : Lisp Obj Bool := do
  match ← deftypeDefinition tp with
  | some function =>
    call.typep object (← image.expand function (← expect i.elements))
  | none =>
    if i.consp then errorTypeSpecifier type
    else
      match ← findClass type with
      | some c => subclassp (image.classOf object) c
      | none => errorTypeSpecifier type

/-- The CASE on the name of the type, with what follows the name. -/
def typepCase (object type i : Datum Obj) (tp : Name) : Lisp Obj Bool :=
  let interval (isA : Bool) : Lisp Obj Bool :=
    if isA then inIntervalP image object i else return false
  let vector (isA : Bool) : Lisp Obj Bool :=
    if isA then if i = name .nil then return true else matchDimensions image object i
    else return false
  match tp with
  | .eql | .member => do return object ∈ (← expect i.elements)
  | .not => do return !(← call.typep object (← carOf i))
  | .or => do typepAny call object (← expect i.elements)
  | .and => do typepAll call object (← expect i.elements)
  | .satisfies => do image.satisfies (← carOf i) object
  | .t => return true
  | .nil => return false
  | .bignum => return image.isA .integer object && !image.isA .fixnum object
  | .ratio => return image.typeOf object = name .ratio
  | .standardChar => return image.isA .character object && image.isA .standardChar object
  | .integer => interval (image.isA .integer object)
  | .rational => interval (image.isA .rational object)
  | .float => interval (image.isA .float object)
  | .real => interval (image.isA .rational object || image.isA .float object)
  | .singleFloat | .shortFloat => interval (image.typeOf object = name .singleFloat)
  | .doubleFloat | .longFloat => interval (image.typeOf object = name .doubleFloat)
  | .complex =>
    match image.complexParts object with
    | none => return false
    | some (realpart, imagpart) => do
        if i = name .nil then return true
        else if ← call.typep realpart (← carOf i) then call.typep imagpart (← carOf i)
        else return false
  | .sequence => return image.isA .list object || image.isA .vector object
  | .cons =>
    match object with
    | .cons _ car cdr => do
        if i = name .nil then return true
        else if ← call.typep car (← carOf i) then
          let i ← cdrOf i
          if i = name .nil then return true else call.typep cdr (← carOf i)
        else return false
    | _ => return false
  | .baseString => vector (image.isA .baseString object)
  | .string => vector (image.isA .string object)
  | .bitVector => vector (image.isA .bitVector object)
  | .simpleBaseString => vector (image.isA .baseString object && image.isA .simpleString object)
  | .simpleString => vector (image.isA .simpleString object)
  | .simpleBitVector => vector (image.isA .simpleBitVector object)
  | .simpleVector => vector (image.isA .simpleVector object)
  | .simpleArray =>
      if image.isA .simpleArray object then matchArray image call object i else return false
  | .array => if image.isA .array object then matchArray image call object i else return false
  | _ => typepOther image call object type (name tp) i

def typep (object type : Datum Obj) : Lisp Obj Bool :=
  match type with
  | .symbol (.known n) =>
    if n ∈ knownTypepPredicates then return image.isA n object
    else if image.typeOf object = type then return true
    else typepCase image call object type (name .nil) n
  | .symbol (.other _) =>
    if image.typeOf object = type then return true
    else typepOther image call object type type (name .nil)
  | .cons _ (.symbol (.known n)) i => typepCase image call object type i n
  | .cons _ tp i => typepOther image call object type tp i
  | .ofClass c => subclassp (image.classOf object) c
  | .object _ => if image.instancep type then return false else errorTypeSpecifier type

end

end Ecl.Predlib
