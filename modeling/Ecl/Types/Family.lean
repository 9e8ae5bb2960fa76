import Ecl.Lib.Except
import Ecl.Clos.Linearize
import Ecl.Types.Canonical

/- The function subtypep of predlib.lsp over the caller's fast-subtypep, with its cache. The
specifiers are objects, that are compared with EQ. -/
namespace Ecl.Types

variable {Ref Err : Type}

/-- An element of *subtypep-cache*: two specifiers, and the two values. -/
structure SubtypepRecord (Ref : Type) where
  t1 : Ref
  t2 : Ref
  values : Bool × Bool

abbrev SubtypepCache (Ref : Type) : Type := Fin 256 → Option (SubtypepRecord Ref)

def SubtypepCache.empty : SubtypepCache Ref := fun _ => none

def SubtypepCache.find [DecidableEq Ref] (cache : SubtypepCache Ref) (hash : Fin 256)
    (t1 t2 : Ref) : Option (Bool × Bool) :=
  match cache hash with
  | some elt => if elt.t1 = t1 ∧ elt.t2 = t2 then some elt.values else none
  | none => none

def SubtypepCache.set (cache : SubtypepCache Ref) (hash : Fin 256) (elt : SubtypepRecord Ref) :
    SubtypepCache Ref :=
  fun i => if i = hash then some elt else cache i

/-- The value of subclassp is given where both specifiers are classes. -/
def subtypep [DecidableEq Ref] (hashEql : Ref → Ref → Nat)
    (subclassp : Ref → Ref → Option Bool)
    (fastSubtypep : Ref → Ref → Except Err (Bool × Bool)) (t1 t2 : Ref)
    (cache : SubtypepCache Ref) : Except Err ((Bool × Bool) × SubtypepCache Ref) :=
  if t1 = t2 then .ok ((true, true), cache)
  else
    match subclassp t1 t2 with
    | some test => .ok ((test, true), cache)
    | none =>
      let hash := Fin.ofNat 256 (hashEql t1 t2)
      match cache.find hash t1 t2 with
      | some values => .ok (values, cache)
      | none => do
          let values ← fastSubtypep t1 t2
          .ok (values, cache.set hash ⟨t1, t2, values⟩)

section Cache

variable [DecidableEq Ref] {hashEql : Ref → Ref → Nat} {subclassp : Ref → Ref → Option Bool}
  {fastSubtypep : Ref → Ref → Except Err (Bool × Bool)} {cache : SubtypepCache Ref} {t1 t2 : Ref}

/-- The tags of the two specifiers are computed. -/
structure Compares (hashEql : Ref → Ref → Nat) (subclassp : Ref → Ref → Option Bool)
    (cache : SubtypepCache Ref) (t1 t2 : Ref) : Prop where
  ne : t1 ≠ t2
  types : subclassp t1 t2 = none
  missing : cache.find (Fin.ofNat 256 (hashEql t1 t2)) t1 t2 = none

/-- All the values in the cache have the property. -/
def SubtypepCache.Holds (cache : SubtypepCache Ref) (p : Ref → Ref → Bool × Bool → Prop) : Prop :=
  ∀ i elt, cache i = some elt → p elt.t1 elt.t2 elt.values

variable {p : Ref → Ref → Bool × Bool → Prop}

theorem SubtypepCache.Holds.find (holds : cache.Holds p)
    {hash : Fin 256} {values : Bool × Bool} (found : cache.find hash t1 t2 = some values) :
    p t1 t2 values := by
  unfold SubtypepCache.find at found
  cases record : cache hash with
  | none =>
    rw [record] at found
    cases found
  | some elt =>
    rw [record] at found
    dsimp only at found
    split at found
    next same =>
      cases found
      exact same.1 ▸ same.2 ▸ holds hash elt record
    next => cases found

omit [DecidableEq Ref] in
theorem SubtypepCache.Holds.set (holds : cache.Holds p)
    (hash : Fin 256) {elt : SubtypepRecord Ref} (new : p elt.t1 elt.t2 elt.values) :
    (cache.set hash elt).Holds p := by
  intro i elt' record
  unfold SubtypepCache.set at record
  split at record
  · cases record
    exact new
  · exact holds i elt' record

theorem subtypep_holds (holds : cache.Holds p) (eq : ∀ t, p t t (true, true))
    (classes : ∀ t1 t2 test, subclassp t1 t2 = some test → p t1 t2 (test, true))
    (fast : Compares hashEql subclassp cache t1 t2 →
      ∀ values, fastSubtypep t1 t2 = .ok values → p t1 t2 values)
    {values : Bool × Bool} {cache' : SubtypepCache Ref}
    (returned : subtypep hashEql subclassp fastSubtypep t1 t2 cache = .ok (values, cache')) :
    p t1 t2 values ∧ cache'.Holds p := by
  unfold subtypep at returned
  split at returned
  next same =>
    cases returned
    exact ⟨same ▸ eq t1, holds⟩
  next ne =>
    cases types : subclassp t1 t2 with
    | some test =>
      rw [types] at returned
      cases returned
      exact ⟨classes t1 t2 test types, holds⟩
    | none =>
      rw [types] at returned
      dsimp only at returned
      cases found : cache.find (Fin.ofNat 256 (hashEql t1 t2)) t1 t2 with
      | some values' =>
        rw [found] at returned
        cases returned
        exact ⟨holds.find found, holds⟩
      | none =>
        rw [found] at returned
        obtain ⟨values', computed, rest⟩ := Ecl.Lib.bind_eq_ok.mp returned
        cases rest
        have new := fast ⟨ne, types, found⟩ values computed
        exact ⟨new, holds.set _ new⟩

end Cache

end Ecl.Types

/- The types of arrays and the classes: typep on these, and how predlib.lsp registers them. -/
namespace Ecl.Types.Family

/-- The element types of +upgraded-array-element-types+. -/
inductive ElementType where
  | nil
  | baseChar
  | character
  | bit
  | byte8
  | integer8
  | byte16
  | integer16
  | byte32
  | integer32
  | clIndex
  | fixnum
  | byte64
  | integer64
  | singleFloat
  | doubleFloat
  | t
  deriving DecidableEq

def upgradedArrayElementTypes : List ElementType :=
  [.nil, .baseChar, .character, .bit, .byte8, .integer8, .byte16, .integer16, .byte32, .integer32,
    .clIndex, .fixnum, .byte64, .integer64, .singleFloat, .doubleFloat, .t]

/-- An element of a list of dimensions: * or a size. -/
inductive Dimension where
  | star
  | size (n : Int)
  deriving DecidableEq

inductive Dimensions where
  | star
  | rank (n : Int)
  | list (pat : List Dimension)
  deriving DecidableEq

def arrayRankLimit : Int := 64

/-- The largest fixnum. -/
def arrayDimensionLimit : Int := 2 ^ 61 - 1

/-- Finalized classes: each has its precedence list. The class T is above all. -/
structure Hierarchy (Class : Type) where
  superiors : Class → List Class
  precedenceList : Class → List Class
  linear : ∀ c, Clos.Linear superiors c (precedenceList c)
  t : Class
  t_mem : ∀ c, t ∈ precedenceList c

inductive Object (Class : Type) where
  | array (simple : Bool) (elementType : ElementType) (dims : List Nat)
  | standard (classOf : Class)
  | other

/-- The element type * is none. -/
inductive Specifier (Class : Type) where
  | array (simple : Bool) (elementType : Option ElementType) (dims : Dimensions)
  | ofClass (c : Class)
  | and (types : List (Specifier Class))
  | or (types : List (Specifier Class))
  | not (type : Specifier Class)

section Typep

variable {Class : Type} [DecidableEq Class] (h : Hierarchy Class)

def subclassp (low high : Class) : Bool := low = high || high ∈ h.precedenceList low

def matchPattern : List Nat → List Dimension → Bool
  | [], pat => pat.isEmpty
  | _ :: _, [] => false
  | n :: array, d :: pat => (d = .star || d = .size n) && matchPattern array pat

def matchDimensions (array : List Nat) : Dimensions → Bool
  | .star => true
  | .rank n => array.length = n
  | .list pat => matchPattern array pat

mutual

/-- The class of an array is a built-in class, with only T above it of these classes. -/
def typep (object : Object Class) : Specifier Class → Bool
  | .array simple elementType dims =>
    match object with
    | .array simple' elementType' dims' =>
      (!simple || simple') && (elementType = none || elementType = some elementType') &&
        matchDimensions dims' dims
    | _ => false
  | .ofClass c =>
    match object with
    | .standard classOf => subclassp h classOf c
    | _ => c = h.t
  | .and types => typepAll object types
  | .or types => typepAny object types
  | .not type => !typep object type

def typepAll (object : Object Class) : List (Specifier Class) → Bool
  | [] => true
  | e :: types => typep object e && typepAll object types

def typepAny (object : Object Class) : List (Specifier Class) → Bool
  | [] => false
  | e :: types => typep object e || typepAny object types

end

end Typep

inductive TypeError where
  | wrongRank
  | wrongDimension
  deriving DecidableEq

def parseDimensions : Dimensions → Except TypeError (Option (List Dimension))
  | .star => .ok none
  | .rank n =>
    if -1 < n ∧ n < arrayRankLimit then .ok (some (List.replicate n.toNat .star))
    else .error .wrongRank
  | .list pat =>
    if pat.all fun
      | .star => true
      | .size i => -1 < i && i < arrayDimensionLimit
    then .ok (some pat) else .error .wrongDimension

/-- What is registered: an array type in canonical form, or a class. -/
inductive Key (Class : Type) where
  | array (simple : Bool) (elementType : ElementType) (dims : Option (List Dimension))
  | ofClass (c : Class)
  deriving DecidableEq

/-- The loop of array-type-<= over two lists. -/
def dimensionsLe : List Dimension → List Dimension → Bool
  | [], [] => true
  | d :: dim, p :: pat => (p = .star || p = d) && dimensionsLe dim pat
  | _, _ => false

section Registering

variable {Class : Type} [DecidableEq Class] (h : Hierarchy Class)

def Key.arrayTypeP : Key Class → Bool
  | .array .. => true
  | .ofClass _ => false

def arrayTypeLe : Key Class → Key Class → Bool
  | .array simple1 elementType1 dim, .array simple2 elementType2 pat =>
    (simple1 = simple2 || !simple2) && elementType1 = elementType2 &&
      match pat, dim with
      | none, _ => true
      | some _, none => false
      | some pat, some dim => dimensionsLe dim pat
  | _, _ => false

def Key.instancep : Key Class → Bool
  | .array .. => false
  | .ofClass _ => true

def classLe : Key Class → Key Class → Bool
  | .ofClass c1, .ofClass c2 => subclassp h c1 c2
  | _, _ => false

def Key.typep (object : Object Class) : Key Class → Bool
  | .array simple elementType none =>
    Family.typep h object (.array simple (some elementType) .star)
  | .array simple elementType (some pat) =>
    Family.typep h object (.array simple (some elementType) (.list pat))
  | .ofClass c => Family.typep h object (.ofClass c)

abbrev TypeState (Class : Type) : Type := Database (Object Class) (Key Class)

def registerArray (simple : Bool) (dims : Option (List Dimension)) (elementType : ElementType)
    (db : TypeState Class) : Int × TypeState Class :=
  db.registerType (Key.typep h) (.array simple elementType dims) Key.arrayTypeP arrayTypeLe

def registerArrays (simple : Bool) (dims : Option (List Dimension)) :
    List ElementType → TypeState Class → List Int × TypeState Class
  | [], db => ([], db)
  | elementType :: elementTypes, db =>
    let (tag, db) := registerArray h simple dims elementType db
    let (tags, db) := registerArrays simple dims elementTypes db
    (tag :: tags, db)

def registerArrayType (simple : Bool) (elementType : Option ElementType) (dims : Dimensions)
    (db : TypeState Class) : Except TypeError (Int × TypeState Class) := do
  let dims ← parseDimensions dims
  match elementType with
  | some elementType => .ok (registerArray h simple dims elementType db)
  | none =>
    let (tags, db) := registerArrays h simple dims upgradedArrayElementTypes db
    .ok (tags.foldr Int.lor 0, db)

/-- A class with a name that is not in +built-in-types+, or T, that find-built-in-tag knows. -/
def registerClass (c : Class) (db : TypeState Class) : Int × TypeState Class :=
  if c = h.t then (-1, db)
  else db.registerType (Key.typep h) (.ofClass c) Key.instancep (classLe h)

mutual

def canonicalType : Specifier Class → TypeState Class → Except TypeError (Int × TypeState Class)
  | .array simple elementType dims, db => registerArrayType h simple elementType dims db
  | .ofClass c, db => .ok (registerClass h c db)
  | .and types, db => do
      let (tags, db) ← canonicalTypes types db
      .ok (tags.foldr Int.land (-1), db)
  | .or types, db => do
      let (tags, db) ← canonicalTypes types db
      .ok (tags.foldr Int.lor 0, db)
  | .not type, db => do
      let (tag, db) ← canonicalType type db
      .ok (Int.lnot tag, db)

def canonicalTypes :
    List (Specifier Class) → TypeState Class → Except TypeError (List Int × TypeState Class)
  | [], db => .ok ([], db)
  | type :: types, db => do
      let (tag, db) ← canonicalType type db
      let (tags, db) ← canonicalTypes types db
      .ok (tag :: tags, db)

end

def fastSubtypep (t1 t2 : Specifier Class) (db : TypeState Class) :
    Except TypeError (Bool × Bool) := do
  let (_, db) ← canonicalType h t1 db
  let (_, db) ← canonicalType h t2 db
  let (tag1, db) ← canonicalType h t1 db
  let (tag2, _) ← canonicalType h t2 db
  .ok (Int.ldiff tag1 tag2 = 0, true)

def Specifier.subclassp : Specifier Class → Specifier Class → Option Bool
  | .ofClass c1, .ofClass c2 => some (Family.subclassp h c1 c2)
  | _, _ => none

end Registering

end Ecl.Types.Family
