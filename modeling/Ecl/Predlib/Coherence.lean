import Ecl.Predlib.Caches

/- When the caches return what the tables give. -/
namespace Ecl.Predlib

open Ecl.Lib Datum

variable {Obj α β : Type} [DecidableEq Obj] {image : Image Obj} {depth : Nat}

section

variable (image depth)

/-- FAST-SUBTYPEP, in a call from outside. -/
def compare (t1 t2 : Datum Obj) : Lisp Obj (Bool × Bool) := fastSubtypep (.within image depth) t1 t2

/-- What a comparison looks up when the caches are empty. -/
def asked (tables : Tables) (t1 t2 : Datum Obj) : List (Command Obj) :=
  asks image tables (compare image depth t1 t2)

/-- What a comparison returns when the caches are empty. -/
def compared (tables : Tables) (t1 t2 : Datum Obj) : Outcome Obj (Bool × Bool) :=
  (Toplevel.call image (compare image depth t1 t2) (.start tables)).1

end

/-- The specifiers are EQ, or both are classes: SUBTYPEP does not look into its cache. -/
def direct : Datum Obj → Datum Obj → Bool
  | .ofClass _, .ofClass _ => true
  | t1, t2 => t1 = t2

instance : Monad (Outcome Obj) where
  pure := .value
  bind
    | .value a, f => f a
    | .thrown, _ => .thrown
    | .error e, _ => .error e

section

variable (image depth)

/-- The loop of UPGRADED-ARRAY-ELEMENT-TYPE over comparisons without records. -/
def firstCompared (tables : Tables) (type : Datum Obj) (names : List Name) :
    Outcome Obj (Datum Obj) :=
  firstSupertype (fun v => do return (← compared image depth tables type (name v)).1) names

/-- The property holds of every name up to the one that ends the loop. -/
def ForCompared (tables : Tables) (type : Datum Obj) (p : Name → Prop) : List Name → Prop
  | [] => True
  | v :: rest =>
    p v ∧ ((∃ sure, compared image depth tables type (name v) = .value (false, sure)) →
      ForCompared tables type p rest)

/-- The record was stored by a call from outside, and no entry of the tables that this call
looked up has changed since. -/
def Fresh (tables : Tables) (t1 t2 : Datum Obj) (origin : Origin) : Prop :=
  ∃ old, origin = some old ∧ ∀ q ∈ asked image depth old t1 t2, old.SameFor tables q

/-- The condition on SUBTYPEP: a record that it finds is fresh, and when it finds none, the
comparison finds none either. -/
def World.Current (w : World Obj) (t1 t2 : Datum Obj) : Prop :=
  match w.record image t1 t2 with
  | some found => Fresh image depth w.tables t1 t2 found.2
  | none => ∀ q ∈ asked image depth w.tables t1 t2, w.Absent image q

instance (tables : Tables) (t1 t2 : Datum Obj) :
    DecidablePred fun origin => Fresh image depth tables t1 t2 origin
  | none => .isFalse fun ⟨_, origin, _⟩ => nomatch origin
  | some old =>
    decidable_of_iff (∀ q ∈ asked image depth old t1 t2, old.SameFor tables q)
      ⟨fun same => ⟨old, rfl, same⟩, fun ⟨_, origin, same⟩ => Option.some.inj origin ▸ same⟩

instance (w : World Obj) (t1 t2 : Datum Obj) : Decidable (w.Current image depth t1 t2) :=
  match present : w.record image t1 t2 with
  | some found =>
    decidable_of_iff (Fresh image depth w.tables t1 t2 found.2) (by rw [World.Current, present])
  | none =>
    decidable_of_iff (∀ q ∈ asked image depth w.tables t1 t2, w.Absent image q)
      (by rw [World.Current, present])

/-- The comparison with the name of an element type looks for no record, and a record of it is
fresh. -/
def Settled (w : World Obj) (type : Datum Obj) (v : Name) : Prop :=
  (∀ q ∈ asked image depth w.tables type (name v), q.OnlyTables) ∧
    ∀ found, w.record image type (name v) = some found →
      Fresh image depth w.tables type (name v) found.2

/-- The condition on UPGRADED-ARRAY-ELEMENT-TYPE: a record that it finds is fresh, and when it
finds none, the records of SUBTYPEP are, and no comparison looks for a record. -/
def World.UpgradedCurrent (w : World Obj) (type : Datum Obj) : Prop :=
  match w.upgradedRecord image type with
  | some found => ∃ old, found.2 = some old ∧
      ForCompared image depth old type
        (fun v => ∀ q ∈ asked image depth old type (name v), old.SameFor w.tables q)
        upgradedArrayElementTypes
  | none => ForCompared image depth w.tables type (Settled image depth w type)
      upgradedArrayElementTypes

def Event.Current (w : World Obj) : Event Obj → Prop
  | .subtypep t1 t2 => direct t1 t2 = true ∨ w.Current image depth t1 t2
  | .upgradedArrayElementType type =>
    type.elementName.isSome = true ∨ w.UpgradedCurrent image depth type
  | _ => True

/-- The event is no comparison, or returns what it returns with empty caches. -/
def Event.Coherent (w : World Obj) : Event Obj → Prop
  | .subtypep t1 t2 =>
    ((Event.subtypep t1 t2).perform image depth w).1 =
      ((Event.subtypep t1 t2).perform image depth w.clearCache).1
  | .upgradedArrayElementType type =>
    ((Event.upgradedArrayElementType type).perform image depth w).1 =
      ((Event.upgradedArrayElementType type).perform image depth w.clearCache).1
  | _ => True

/-- The property holds of every event of a history, in the world that it finds. -/
def Throughout (p : World Obj → Event Obj → Prop) : World Obj → List (Event Obj) → Prop
  | _, [] => True
  | w, e :: events => p w e ∧ Throughout p (e.perform image depth w).2 events

/-- Every record of a call from outside is the value of a comparison without records. -/
structure World.Valid (w : World Obj) : Prop where
  records : w.subtypepCache.Holds fun types found => ∀ old, found.2 = some old →
    compared image depth old types.1 types.2 = .value found.1
  names : w.NamesKept
  upgraded : w.upgradedCache.Holds fun type found => type.elementName = none →
    ∀ old, found.2 = some old →
      firstCompared image depth old type upgradedArrayElementTypes = .value found.1 ∧
        ForCompared image depth old type
          (fun v => ∀ q ∈ asked image depth old type (name v), q.OnlyTables)
          upgradedArrayElementTypes

end

namespace World

variable {w : World Obj}

theorem Valid.start (tables : Tables) : (World.start tables).Valid image depth :=
  ⟨.empty, .empty, .empty⟩

theorem Valid.settle (valid : w.Valid image depth) : w.settle.Valid image depth :=
  ⟨valid.records.drop passing, valid.names.drop inside, valid.upgraded.drop inside⟩

theorem Valid.withTables (valid : w.Valid image depth) (tables : Tables) :
    World.Valid image depth { w with tables := tables } :=
  ⟨valid.records, valid.names, valid.upgraded⟩

theorem Valid.handle (valid : w.Valid image depth) (q : Command Obj) :
    (handle image q w).2.Valid image depth := by
  have nested (old : Tables) : (none : Origin) ≠ some old := (Option.some_ne_none old).symm
  cases q with
  | store t1 t2 values =>
    refine ⟨?_, valid.names, valid.upgraded⟩
    apply valid.records.set
    intro old inside
    exact (nested old inside).elim
  | storeUpgraded type answer =>
    refine ⟨valid.records, valid.names.store type answer _, ?_⟩
    apply valid.upgraded.set
    intro _ old inside
    exact (nested old inside).elim
  | upgradedName n =>
    rw [World.handle]
    cases w.upgradedRecord image (name n.1) with
    | some found => exact valid
    | none =>
      refine ⟨valid.records, valid.names.storeName n _, ?_⟩
      apply valid.upgraded.set
      intro _ old inside
      exact (nested old inside).elim
  | _ => exact valid

end World

theorem handle_tables (q : Command Obj) (w : World Obj) :
    (World.handle image q w).2.tables = w.tables := by
  cases q with
  | upgradedName n =>
    rw [World.handle]
    cases w.upgradedRecord image (name n.1) <;> rfl
  | _ => rfl

theorem handle_record {q : Command Obj} (only : q.OnlyTables) (w : World Obj) :
    (World.handle image q w).2.subtypepCache = w.subtypepCache := by
  cases q with
  | upgradedName n =>
    rw [World.handle]
    cases w.upgradedRecord image (name n.1) <;> rfl
  | store => exact only.elim
  | _ => rfl

namespace Toplevel

variable {w : World Obj} (x : Lisp Obj α)

theorem call_tables : (call image x w).2.tables = w.tables := by
  have keeps (q : Command Obj) (v : World Obj) (same : v.tables = w.tables) :
      (World.handle image q v).2.tables = w.tables := (handle_tables q v).trans same
  exact Interaction.run_keeps (x State.start) (fun q _ => keeps q) rfl

theorem call_valid (valid : w.Valid image depth) : (call image x w).2.Valid image depth := by
  have kept : ((x State.start).run (World.handle image) w).2.Valid image depth :=
    Interaction.run_keeps (x State.start) (fun q _ _ valid => valid.handle q) valid
  exact kept.settle

theorem call_record (only : ∀ q ∈ (x State.start).asked (World.handle image) w, q.OnlyTables)
    {t1 t2 : Datum Obj} {found : (Bool × Bool) × Origin}
    (present : (call image x w).2.record image t1 t2 = some found) :
    w.record image t1 t2 = some found := by
  have kept : ((x State.start).run (World.handle image) w).2.subtypepCache = w.subtypepCache :=
    Interaction.run_keeps (x State.start)
      (fun q member v same => (handle_record (only q member) v).trans same) rfl
  have earlier := World.record_settle present
  unfold World.record at earlier ⊢
  rwa [kept] at earlier

end Toplevel

end Ecl.Predlib
