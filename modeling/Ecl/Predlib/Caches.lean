import Ecl.Lib.DirectMapped
import Ecl.Predlib.Canonical

/- The caches of SUBTYPEP and UPGRADED-ARRAY-ELEMENT-TYPE, and the operations that change what
types mean. -/
namespace Ecl.Predlib

open Ecl.Lib
open Datum

variable {Obj α β : Type}

/-- The definitions of types, the table of FIND-CLASS, and the slots of class objects that are
looked up when types are compared. -/
structure Tables where
  deftype : Symbol → Option FunctionId
  findClass : Symbol → Option ClassId
  className : ClassId → Option Symbol
  classFinalizedP : ClassId → Bool
  classPrecedenceList : ClassId → Option (List ClassId)

/-- The tables at the time a record was stored, when it was not stored inside of another call.
The code has no such field, and nothing that it does depends on it. -/
abbrev Origin : Type := Option Tables

structure World (Obj : Type) where
  tables : Tables
  subtypepCache : DirectMapped 256 (Datum Obj × Datum Obj) ((Bool × Bool) × Origin)
  upgradedCache : DirectMapped 128 (Datum Obj) (Datum Obj × Origin)

namespace World

/-- The caches are empty. -/
def start (tables : Tables) : World Obj := ⟨tables, .empty, .empty⟩

def clearCache (w : World Obj) : World Obj := start w.tables

section

variable [DecidableEq Obj] (image : Image Obj) (w : World Obj)

def place (types : Datum Obj × Datum Obj) : Fin 256 :=
  ⟨image.hashEql [types.1, types.2] % 256, Nat.mod_lt _ (by decide)⟩

def upgradedPlace (elementType : Datum Obj) : Fin 128 :=
  ⟨image.hashEql [elementType] % 128, Nat.mod_lt _ (by decide)⟩

def record (t1 t2 : Datum Obj) : Option ((Bool × Bool) × Origin) :=
  w.subtypepCache.find (place image) (t1, t2)

def upgradedRecord (elementType : Datum Obj) : Option (Datum Obj × Origin) :=
  w.upgradedCache.find (upgradedPlace image) elementType

def store (t1 t2 : Datum Obj) (values : Bool × Bool) (origin : Origin) : World Obj :=
  { w with subtypepCache := w.subtypepCache.set (place image) (t1, t2) (values, origin) }

def storeUpgraded (elementType answer : Datum Obj) (origin : Origin) : World Obj :=
  { w with
    upgradedCache := w.upgradedCache.set (upgradedPlace image) elementType (answer, origin) }

/-- One of the specifiers is a list that the call made. -/
def passing (types : Datum Obj × Datum Obj) : Bool := types.1.inside || types.2.inside

/-- A call is over: no specifier of a later call is EQ to a list that it made. -/
def settle (w : World Obj) : World Obj :=
  { w with
    subtypepCache := w.subtypepCache.drop passing
    upgradedCache := w.upgradedCache.drop Datum.inside }

/-- The answer to a command, and what it stores. -/
def handle : Interaction.Handler (@Command.Answer Obj) (World Obj)
  | .deftype s, w => (w.tables.deftype s, w)
  | .findClass s, w => (w.tables.findClass s, w)
  | .className c, w => (w.tables.className c, w)
  | .classFinalizedP c, w => (w.tables.classFinalizedP c, w)
  | .classPrecedenceList c, w => (w.tables.classPrecedenceList c, w)
  | .find t1 t2, w => ((w.record image t1 t2).map (·.1), w)
  | .store t1 t2 values, w => ((), w.store image t1 t2 values none)
  | .findUpgraded elementType, w => ((w.upgradedRecord image elementType).map (·.1), w)
  | .storeUpgraded elementType answer, w => ((), w.storeUpgraded image elementType answer none)
  | .upgradedName n, w =>
    match w.upgradedRecord image (name n.1) with
    | some found => (found.1, w)
    | none => (name n.1, w.storeUpgraded image (name n.1) (name n.1) none)

end

end World

def Toplevel (Obj α : Type) : Type := World Obj → Outcome Obj α × World Obj

namespace Toplevel

def bind (x : Toplevel Obj α) (f : α → Toplevel Obj β) : Toplevel Obj β := fun w =>
  match x w with
  | (.value a, w) => f a w
  | (.thrown, w) => (.thrown, w)
  | (.error e, w) => (.error e, w)

instance : Monad (Toplevel Obj) where
  pure a := fun w => (.value a, w)
  bind := bind

def error (e : TypeError Obj) : Toplevel Obj α := fun w => (.error e, w)

def get (f : World Obj → α) : Toplevel Obj α := fun w => (.value (f w), w)

def modify (f : World Obj → World Obj) : Toplevel Obj Unit := fun w => (.value (), f w)

variable [DecidableEq Obj] (image : Image Obj)

def call (x : Lisp Obj α) : Toplevel Obj α := fun w =>
  let result := (x State.start).run (World.handle image) w
  (result.1.1, result.2.settle)

end Toplevel

section

variable [DecidableEq Obj] (image : Image Obj) (depth : Nat)

def subtypep (t1 t2 : Datum Obj) : Toplevel Obj (Bool × Bool) :=
  subtypepWith (fun c1 c2 => .call image (subclassp c1 c2))
    (.get fun w => (w.record image t1 t2).map (·.1))
    (.call image (fastSubtypep (.within image depth) t1 t2))
    (fun values => .modify fun w => w.store image t1 t2 values (some w.tables)) t1 t2

def upgradedArrayElementType (elementType : Datum Obj) : Toplevel Obj (Datum Obj) :=
  upgradedWith (.get fun w => (w.upgradedRecord image elementType).map (·.1))
    (fun v => do return (← subtypep image depth elementType (name v)).1)
    (fun answer => .modify fun w => w.storeUpgraded image elementType answer (some w.tables))
    elementType

def doDeftype (type : Datum Obj) (function : FunctionId) : Toplevel Obj Unit :=
  match type with
  | .symbol s => do
      if s ∈ image.alienDeclarations then .error (.declaration type)
      else
        .modify fun w => { w with tables := { w.tables with
          deftype := fun s' => if s' = s then some function else w.tables.deftype s' } }
        .modify World.clearCache
  | _ => .error (.notSpecifier type)

def setfFindClass (new : Datum Obj) (s : Symbol) : Toplevel Obj Unit := do
  let oldClass ← Toplevel.get fun w => (w.tables.findClass s).elim (name .nil) Datum.ofClass
  if ← Toplevel.call image ((Calls.within image depth).typep oldClass (name .builtInClass)) then
    .error (.builtInClass s)
  else if s = .known .theClass ∨ s = .known .builtInClass then .error (.kernelClass s)
  else
    let write (c : Option ClassId) : Toplevel Obj Unit :=
      .modify fun w => { w with tables := { w.tables with
        findClass := fun s' => if s' = s then c else w.tables.findClass s' } }
    match new with
    | .ofClass c => write (some c)
    | .symbol (.known .nil) => write none
    | new => .error (.notClass new)

def writeClass (c : ClassId) (className : Option Symbol) (finalized : Bool)
    (cpl : Option (List ClassId)) : Toplevel Obj Unit :=
  .modify fun w => { w with tables := { w.tables with
    className := fun d => if d = c then className else w.tables.className d
    classFinalizedP := fun d => if d = c then finalized else w.tables.classFinalizedP d
    classPrecedenceList := fun d => if d = c then cpl else w.tables.classPrecedenceList d } }

end

/-- What a program does. A definition or a redefinition of a class is a sequence of writes to
class objects, of calls of (SETF FIND-CLASS), and of SUBTYPEP on the types of slots, with a call
of subtypep-clear-cache wherever FINALIZE-INHERITANCE has finished a class. -/
inductive Event (Obj : Type) where
  | deftype (type : Datum Obj) (function : FunctionId)
  | setfFindClass (new : Datum Obj) (s : Symbol)
  | writeClass (c : ClassId) (className : Option Symbol) (finalized : Bool)
      (cpl : Option (List ClassId))
  | clearCache
  | subtypep (t1 t2 : Datum Obj)
  | upgradedArrayElementType (elementType : Datum Obj)

/-- What an event returns. -/
inductive Result (Obj : Type) where
  | done
  | values (test confident : Bool)
  | type (type : Datum Obj)
  deriving DecidableEq

/-- FINALIZE-INHERITANCE of one class, that compares the types of direct slots. -/
def finalizeInheritance (c : ClassId) (className : Option Symbol) (cpl : List ClassId)
    (slotTypes : List (Datum Obj × Datum Obj)) : List (Event Obj) :=
  .writeClass c className false (some cpl) ::
    (slotTypes.map fun types => .subtypep types.1 types.2) ++
    [.writeClass c className true (some cpl), .clearCache]

section

variable [DecidableEq Obj] (image : Image Obj) (depth : Nat)

def Event.perform : Event Obj → Toplevel Obj (Result Obj)
  | .deftype type function => do
      doDeftype image type function
      return .done
  | .setfFindClass new s => do
      Predlib.setfFindClass image depth new s
      return .done
  | .writeClass c className finalized cpl => do
      Predlib.writeClass c className finalized cpl
      return .done
  | .clearCache => do
      Toplevel.modify World.clearCache
      return .done
  | .subtypep t1 t2 => do
      let values ← Predlib.subtypep image depth t1 t2
      return .values values.1 values.2
  | .upgradedArrayElementType elementType => do
      let answer ← Predlib.upgradedArrayElementType image depth elementType
      return .type answer

end

/- What a comparison of types looks up, and two worlds that it cannot tell apart. -/

open Ecl.Lib Datum

variable {Obj α : Type} [DecidableEq Obj] {image : Image Obj}

def Tables.SameFor (old new : Tables) : Command Obj → Prop
  | .deftype s => old.deftype s = new.deftype s
  | .findClass s => old.findClass s = new.findClass s
  | .className c => old.className c = new.className c
  | .classFinalizedP c => old.classFinalizedP c = new.classFinalizedP c
  | .classPrecedenceList c => old.classPrecedenceList c = new.classPrecedenceList c
  | _ => True

/-- The command reaches no record that is compared with the specifiers of a call. -/
def Command.OnlyTables : Command Obj → Prop
  | .find _ _ | .store _ _ _ | .findUpgraded _ | .storeUpgraded _ _ => False
  | _ => True

variable (image) in
/-- The command finds no record. -/
def World.Absent (w : World Obj) : Command Obj → Prop
  | .find t1 t2 => w.record image t1 t2 = none
  | .findUpgraded type => w.upgradedRecord image type.1 = none
  | _ => True

instance (old new : Tables) : DecidablePred fun q : Command Obj => old.SameFor new q
  | .deftype s => inferInstanceAs (Decidable (old.deftype s = new.deftype s))
  | .findClass s => inferInstanceAs (Decidable (old.findClass s = new.findClass s))
  | .className c => inferInstanceAs (Decidable (old.className c = new.className c))
  | .classFinalizedP c =>
    inferInstanceAs (Decidable (old.classFinalizedP c = new.classFinalizedP c))
  | .classPrecedenceList c =>
    inferInstanceAs (Decidable (old.classPrecedenceList c = new.classPrecedenceList c))
  | .find _ _ | .store _ _ _ | .findUpgraded _ | .storeUpgraded _ _ | .upgradedName _ =>
    inferInstanceAs (Decidable True)

instance (w : World Obj) : DecidablePred (w.Absent image)
  | .find t1 t2 => inferInstanceAs (Decidable (w.record image t1 t2 = none))
  | .findUpgraded type => inferInstanceAs (Decidable (w.upgradedRecord image type.1 = none))
  | .deftype _ | .findClass _ | .className _ | .classFinalizedP _ | .classPrecedenceList _
  | .store _ _ _ | .storeUpgraded _ _ | .upgradedName _ => inferInstanceAs (Decidable True)

theorem Command.OnlyTables.absent {q : Command Obj} (only : q.OnlyTables) (w : World Obj) :
    w.Absent image q := by
  cases q with
  | find => exact only.elim
  | findUpgraded => exact only.elim
  | _ => trivial

variable (image) in
/-- The commands of a call, when the caches are empty. -/
def asks (tables : Tables) (x : Lisp Obj α) : List (Command Obj) :=
  (x State.start).asked (World.handle image) (World.start tables)

namespace World

variable {w : World Obj} {t1 t2 t1' t2' type type' : Datum Obj}

theorem record_store (values : Bool × Bool) (origin : Origin) :
    (w.store image t1 t2 values origin).record image t1' t2' =
      if place image (t1', t2') = place image (t1, t2) then
        if (t1, t2) = (t1', t2') then some (values, origin) else none
      else w.record image t1' t2' :=
  DirectMapped.find_set ..

theorem upgradedRecord_store (answer : Datum Obj) (origin : Origin) :
    (w.storeUpgraded image type answer origin).upgradedRecord image type' =
      if upgradedPlace image type' = upgradedPlace image type then
        if type = type' then some (answer, origin) else none
      else w.upgradedRecord image type' :=
  DirectMapped.find_set ..

theorem record_settle {found : (Bool × Bool) × Origin}
    (present : w.settle.record image t1 t2 = some found) : w.record image t1 t2 = some found := by
  have kept : (w.subtypepCache.drop passing).find (place image) (t1, t2) = some found := present
  exact DirectMapped.find_of_drop kept

/-- The record of a name of an element type gives the name itself. -/
def NamesKept (w : World Obj) : Prop :=
  w.upgradedCache.Holds fun type found => ∀ n, type.elementName = some n → found.1 = type

theorem NamesKept.found (names : w.NamesKept) {n : ElementName} {found : Datum Obj × Origin}
    (record : w.upgradedRecord image (name n.1) = some found) : found.1 = name n.1 :=
  DirectMapped.Holds.find names record n (elementName_name n)

omit [DecidableEq Obj] in
theorem NamesKept.store (names : w.NamesKept) (type : OtherType Obj) (answer : Datum Obj)
    (origin : Origin) : (w.storeUpgraded image type.1 answer origin).NamesKept := by
  apply DirectMapped.Holds.set names
  intro n named
  rw [type.2] at named
  cases named

omit [DecidableEq Obj] in
theorem NamesKept.storeName (names : w.NamesKept) (n : ElementName) (origin : Origin) :
    (w.storeUpgraded image (name n.1) (name n.1) origin).NamesKept :=
  DirectMapped.Holds.set names fun _ _ => rfl

theorem upgradedName_answer (names : w.NamesKept) (n : ElementName) :
    (handle image (.upgradedName n) w).1 = name n.1 := by
  rw [handle]
  cases record : w.upgradedRecord image (name n.1) with
  | none => rfl
  | some found => exact names.found record

theorem upgradedName_record (w : World Obj) (n : ElementName) (type : OtherType Obj) :
    (handle image (.upgradedName n) w).2.upgradedRecord image type.1 =
      if upgradedPlace image type.1 = upgradedPlace image (name n.1) then none
      else w.upgradedRecord image type.1 := by
  rw [handle]
  cases record : w.upgradedRecord image (name n.1) with
  | none =>
    dsimp only
    rw [upgradedRecord_store, if_neg (type.ne_name n).symm]
  | some found =>
    dsimp only
    split
    · rename_i same
      exact DirectMapped.find_of_found record same (type.ne_name n)
    · rfl

end World

variable (image) in
/-- Two worlds over the tables of a third one, that give one answer wherever this one has no
record. -/
structure Alike (w w1 w2 : World Obj) : Prop where
  tables1 : w1.tables = w.tables
  tables2 : w2.tables = w.tables
  records : ∀ t1 t2, w.record image t1 t2 = none →
    (w1.record image t1 t2).map (·.1) = (w2.record image t1 t2).map (·.1)
  upgraded : ∀ type : OtherType Obj, w.upgradedRecord image type.1 = none →
    (w1.upgradedRecord image type.1).map (·.1) = (w2.upgradedRecord image type.1).map (·.1)
  names1 : w1.NamesKept
  names2 : w2.NamesKept

namespace Alike

variable {w w1 w2 : World Obj}

theorem start (names : w.NamesKept) : Alike image w (.start w.tables) w where
  tables1 := rfl
  tables2 := rfl
  records t1 t2 none := by rw [none]; rfl
  upgraded type none := by rw [none]; rfl
  names1 := .empty
  names2 := names

theorem store (alike : Alike image w w1 w2) (t1 t2 : Datum Obj) (values : Bool × Bool) :
    Alike image w (w1.store image t1 t2 values none) (w2.store image t1 t2 values none) where
  tables1 := alike.tables1
  tables2 := alike.tables2
  records t1' t2' none := by
    rw [World.record_store, World.record_store]
    split
    · rfl
    · exact alike.records t1' t2' none
  upgraded := alike.upgraded
  names1 := alike.names1
  names2 := alike.names2

theorem storeUpgraded (alike : Alike image w w1 w2) (type : OtherType Obj) (answer : Datum Obj) :
    Alike image w (w1.storeUpgraded image type.1 answer none)
      (w2.storeUpgraded image type.1 answer none) where
  tables1 := alike.tables1
  tables2 := alike.tables2
  records := alike.records
  upgraded type' none := by
    rw [World.upgradedRecord_store, World.upgradedRecord_store]
    split
    · rfl
    · exact alike.upgraded type' none
  names1 := alike.names1.store type answer _
  names2 := alike.names2.store type answer _

theorem upgradedName (alike : Alike image w w1 w2) (n : ElementName) :
    Alike image w (World.handle image (.upgradedName n) w1).2
      (World.handle image (.upgradedName n) w2).2 := by
  have kept (v : World Obj) (names : v.NamesKept) :
      (World.handle image (.upgradedName n) v).2.tables = v.tables ∧
        (World.handle image (.upgradedName n) v).2.subtypepCache = v.subtypepCache ∧
        (World.handle image (.upgradedName n) v).2.NamesKept := by
    rw [World.handle]
    cases v.upgradedRecord image (name n.1) with
    | none => exact ⟨rfl, rfl, names.storeName n _⟩
    | some found => exact ⟨rfl, rfl, names⟩
  obtain ⟨tables1, cache1, names1⟩ := kept w1 alike.names1
  obtain ⟨tables2, cache2, names2⟩ := kept w2 alike.names2
  refine ⟨tables1.trans alike.tables1, tables2.trans alike.tables2, ?_, ?_, names1, names2⟩
  · intro t1 t2 none
    unfold World.record
    rw [cache1, cache2]
    exact alike.records t1 t2 none
  · intro type none
    rw [World.upgradedName_record, World.upgradedName_record]
    split
    · rfl
    · exact alike.upgraded type none

theorem step (q : Command Obj) (absent : w.Absent image q) (alike : Alike image w w1 w2) :
    (World.handle image q w1).1 = (World.handle image q w2).1 ∧
      Alike image w (World.handle image q w1).2 (World.handle image q w2).2 := by
  have same := alike.tables1.trans alike.tables2.symm
  cases q with
  | deftype s => exact ⟨congrArg (fun t => Tables.deftype t s) same, alike⟩
  | findClass s => exact ⟨congrArg (fun t => Tables.findClass t s) same, alike⟩
  | className c => exact ⟨congrArg (fun t => Tables.className t c) same, alike⟩
  | classFinalizedP c => exact ⟨congrArg (fun t => Tables.classFinalizedP t c) same, alike⟩
  | classPrecedenceList c => exact ⟨congrArg (fun t => Tables.classPrecedenceList t c) same, alike⟩
  | find t1 t2 => exact ⟨alike.records t1 t2 absent, alike⟩
  | store t1 t2 values => exact ⟨rfl, alike.store t1 t2 values⟩
  | findUpgraded type => exact ⟨alike.upgraded type absent, alike⟩
  | storeUpgraded type answer => exact ⟨rfl, alike.storeUpgraded type answer⟩
  | upgradedName n =>
    have answer1 : (World.handle image (.upgradedName n) w1).1 = name n.1 :=
      World.upgradedName_answer alike.names1 n
    have answer2 : (World.handle image (.upgradedName n) w2).1 = name n.1 :=
      World.upgradedName_answer alike.names2 n
    exact ⟨answer1.trans answer2.symm, alike.upgradedName n⟩

end Alike

theorem call_of_absent {w : World Obj} (names : w.NamesKept) (x : Lisp Obj α)
    (absent : ∀ q ∈ asks image w.tables x, w.Absent image q) :
    (Toplevel.call image x (.start w.tables)).1 = (Toplevel.call image x w).1 ∧
      asks image w.tables x = (x State.start).asked (World.handle image) w := by
  obtain ⟨result, same, -⟩ := Interaction.run_related
    (fun q _ _ absent alike => alike.step q absent) (x State.start) absent (Alike.start names)
  exact ⟨congrArg (·.1) result, same⟩

/-- A call returns the same under two tables with the same entries wherever it looks. -/
theorem call_of_same {old new : Tables} (x : Lisp Obj α)
    (same : ∀ q ∈ asks image old x, old.SameFor new q) :
    (Toplevel.call image x (.start old)).1 = (Toplevel.call image x (.start new)).1 ∧
      asks image old x = asks image new x := by
  have step (q : Command Obj) (w1 w2 : World Obj) (same : old.SameFor new q)
      (related : w1.tables = old ∧ w2 = { w1 with tables := new }) :
      (World.handle image q w1).1 = (World.handle image q w2).1 ∧
        ((World.handle image q w1).2.tables = old ∧
          (World.handle image q w2).2 = { (World.handle image q w1).2 with tables := new }) := by
    obtain ⟨rfl, rfl⟩ := related
    cases q with
    | upgradedName n =>
      rw [World.handle, World.handle, World.upgradedRecord, World.upgradedRecord]
      cases w1.upgradedCache.find (World.upgradedPlace image) (name n.1) with
      | none => exact ⟨rfl, rfl, rfl⟩
      | some found => exact ⟨rfl, rfl, rfl⟩
    | find t1 t2 => exact ⟨rfl, rfl, rfl⟩
    | store t1 t2 values => exact ⟨rfl, rfl, rfl⟩
    | findUpgraded type => exact ⟨rfl, rfl, rfl⟩
    | storeUpgraded type answer => exact ⟨rfl, rfl, rfl⟩
    | _ => exact ⟨same, rfl, rfl⟩
  obtain ⟨result, asked, -⟩ := Interaction.run_related step (x State.start) same ⟨rfl, rfl⟩
  exact ⟨congrArg (·.1) result, asked⟩

end Ecl.Predlib
