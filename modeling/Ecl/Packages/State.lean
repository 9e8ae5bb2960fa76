import Mathlib.Data.List.Basic

/- The package system of package.d: packages with their two tables of symbols, the list
of packages and the home packages of symbols. -/
namespace Ecl.Packages

/-- A symbol; its name never changes. -/
structure Symbol where
  name : String
  serial : Nat
  deriving DecidableEq

abbrev PackageId : Type := Nat

/-- The symbols of a table of type htt_pack; the keys are their names. -/
abbrev SymbolTable : Type := List Symbol

def gethash (name : String) (table : SymbolTable) : Option Symbol :=
  table.find? fun s => s.name = name

def remhash (name : String) (table : SymbolTable) : SymbolTable :=
  table.filter fun s => s.name ≠ name

/-- A symbol is entered under its own name. -/
def sethash (s : Symbol) (table : SymbolTable) : SymbolTable := s :: remhash s.name table

structure Package where
  name : Option String
  nicknames : List String
  shadowings : List Symbol
  uses : List PackageId
  usedby : List PackageId
  internal : SymbolTable
  external : SymbolTable
  locked : Bool
  deriving DecidableEq

def Package.empty (name : Option String) : Package where
  name := name
  nicknames := []
  shadowings := []
  uses := []
  usedby := []
  internal := []
  external := []
  locked := false

/-- All packages ever made, the list cl_core.packages, the field hpack of every symbol and
the number of packages and symbols allocated. -/
structure World where
  pack : PackageId → Package
  packages : List PackageId
  hpack : Symbol → Option PackageId
  packageCount : Nat
  symbolCount : Nat

/-- The package system and the lock cl_core.global_lock, held by the running process or
not. -/
structure State where
  world : World
  lock : Bool

def lispPackage : PackageId := 0

def userPackage : PackageId := 1

def keywordPackage : PackageId := 2

/-- The symbol NIL. -/
def nilSymbol : Symbol := ⟨"NIL", 0⟩

namespace World

def modify (w : World) (p : PackageId) (change : Package → Package) : World :=
  { w with pack := fun q => if q = p then change (w.pack q) else w.pack q }

def setHome (w : World) (s : Symbol) (home : Option PackageId) : World :=
  { w with hpack := fun t => if t = s then home else w.hpack t }

/-- The function symbol_remove_package. -/
def symbolRemovePackage (w : World) (s : Symbol) (p : PackageId) : World :=
  if w.hpack s = some p then w.setHome s none else w

/-- The function symbol_add_package. -/
def symbolAddPackage (w : World) (s : Symbol) (p : PackageId) : World :=
  if w.hpack s = none then w.setHome s (some p) else w

/-- The names that ecl_find_package_nolock knows a package by. -/
def Named (w : World) (p : PackageId) (name : String) : Prop :=
  (w.pack p).name = some name ∨ name ∈ (w.pack p).nicknames

instance (w : World) (p : PackageId) (name : String) : Decidable (w.Named p name) :=
  inferInstanceAs (Decidable (_ ∨ _))

/-- The function ecl_find_package_nolock on a string. -/
def findPackage (w : World) (name : String) : Option PackageId :=
  w.packages.find? fun p => w.Named p name

/-- Where a symbol was found. -/
inductive Flag where
  | nothing
  | internal
  | external
  | inherited
  deriving DecidableEq

/-- The search through the packages used. -/
def findInherited (w : World) (name : String) : List PackageId → Option Symbol
  | [] => none
  | q :: uses =>
    match gethash name (w.pack q).external with
    | some s => some s
    | none => findInherited w name uses

def findSymbolInner (w : World) (name : String) (p : PackageId) : Symbol × Flag :=
  match gethash name (w.pack p).external with
  | some s => (s, .external)
  | none =>
    if p = keywordPackage then (nilSymbol, .nothing)
    else
      match gethash name (w.pack p).internal with
      | some s => (s, .internal)
      | none =>
        match w.findInherited name (w.pack p).uses with
        | some s => (s, .inherited)
        | none => (nilSymbol, .nothing)

end World

/-- What is passed as the name of a package: a string, symbol or character stands for its
string, and other objects are no designators. -/
inductive Designator where
  | string (name : String)
  | package (p : PackageId)
  | other
  deriving DecidableEq

/-- A list of designators, which may end in an atom. -/
structure DesignatorList where
  elements : List Designator
  proper : Bool
  deriving DecidableEq

/-- The errors of CEpackage_error, which a handler may continue from. -/
inductive Restart where
  | alreadyExists
  | ignoreLock
  | ignoreMissing
  | importFirst
  | ignoreConflict
  deriving DecidableEq

/-- How a call ends. A type error of cl_string is continuable: it asks for another
argument. -/
inductive Outcome where
  | returned
  | continuable
  | fatal
  deriving DecidableEq

abbrev Result : Type := State × Outcome

/-- PACKAGE_OP_LOCK. The lock is not recursive. -/
def getLock (st : State) (next : State → Result) : Result :=
  if st.lock then (st, .fatal) else next { st with lock := true }

/-- PACKAGE_OP_UNLOCK. -/
def giveupLock (st : State) (next : State → Result) : Result :=
  if st.lock then next { st with lock := false } else (st, .fatal)

/-- CEpackage_error: the handler continues, or the call is left. -/
def continuableError (st : State) (continues : Bool) (next : State → Result) : Result :=
  if continues then next st else (st, .continuable)

/-- The function si_coerce_to_package. -/
def coerceToPackage (st : State) (designator : Designator) (next : PackageId → Result) : Result :=
  match designator with
  | .package p => next p
  | .string name =>
    match st.world.findPackage name with
    | some p => next p
    | none => (st, .fatal)
  | .other => (st, .continuable)

/-- The function cl_string. -/
def clString (st : State) (designator : Designator) (next : String → Result) : Result :=
  match designator with
  | .string name => next name
  | .package _ | .other => (st, .continuable)

def State.modify (st : State) (p : PackageId) (change : Package → Package) : State :=
  { st with world := st.world.modify p change }

def checkLocked (st : State) (continues : Restart → Bool) (p : PackageId)
    (next : State → Result) : Result :=
  if (st.world.pack p).locked then continuableError st (continues .ignoreLock) next else next st

end Ecl.Packages
