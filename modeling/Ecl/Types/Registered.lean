import Ecl.Types.Intervals

/- What is registered for a specifier. A specifier for which all is registered has the tag of its
objects. -/
namespace Ecl.Types

open Ecl.Lib

variable {db : TypeState} {n : Nat} {cell : Object → Nat}

def Interval.Registered (db : TypeState) (interval : Interval) : Prop :=
  (∀ b ∈ interval.bounds, .ray b ∈ db.keys) ∧
    ∀ low high, interval = .between low high → high ≠ .star → .between low high ∈ db.keys

def Atom.Registered (db : TypeState) : Atom → Prop
  | .integer m => .between (.inclusive m) (.inclusive m) ∈ db.keys
  | a => a.object ∈ db.objects

mutual

def Specifier.Registered (db : TypeState) : Specifier → Prop
  | .t => True
  | .nil => True
  | .name name => .name name ∈ db.keys
  | .integer interval => interval.Registered db
  | .member objects => ∀ a ∈ objects, a.Registered db
  | .and types => RegisteredAll db types
  | .or types => RegisteredAll db types
  | .not type => type.Registered db

def RegisteredAll (db : TypeState) : List Specifier → Prop
  | [] => True
  | type :: types => type.Registered db ∧ RegisteredAll db types

end

variable {interval : Interval}

theorem Interval.Registered.grows {db' : TypeState} (grows : Grows db db')
    (registered : interval.Registered db) : interval.Registered db' :=
  ⟨fun b isIn => grows.keys (registered.1 b isIn),
    fun low high eq ne => grows.keys (registered.2 low high eq ne)⟩

theorem Atom.Registered.grows {db' : TypeState} (grows : Grows db db') {a : Atom}
    (registered : a.Registered db) : a.Registered db' := by
  cases a with
  | integer m => exact grows.keys registered
  | symbol serial => exact grows.objects registered
  | keyword serial => exact grows.objects registered

mutual

theorem Specifier.Registered.grows {db' : TypeState} (grows : Grows db db') :
    ∀ (type : Specifier), type.Registered db → type.Registered db'
  | .t, _ => trivial
  | .nil, _ => trivial
  | .name _, registered => grows.keys registered
  | .integer _, registered => Interval.Registered.grows grows registered
  | .member _, registered => fun a isIn => (registered a isIn).grows grows
  | .and types, registered => RegisteredAll.grows grows types registered
  | .or types, registered => RegisteredAll.grows grows types registered
  | .not type, registered => Specifier.Registered.grows grows type registered

theorem RegisteredAll.grows {db' : TypeState} (grows : Grows db db') :
    ∀ (types : List Specifier), RegisteredAll db types → RegisteredAll db' types
  | [], _ => trivial
  | type :: types, registered =>
    ⟨Specifier.Registered.grows grows type registered.1,
      RegisteredAll.grows grows types registered.2⟩

end

theorem RegisteredAll.append_right {types : List Specifier} (before : List Specifier)
    (registered : RegisteredAll db (before ++ types)) : RegisteredAll db types := by
  induction before with
  | nil => exact registered
  | cons type before ih => exact ih registered.2

theorem canonicalName_registered (inv : Inv db n cell) {name : TypeName}
    (registered : .name name ∈ db.keys) :
    ∃ tag, canonicalName name db = (tag, db) ∧ Denotes n cell tag fun x => name.typep x := by
  obtain ⟨tag, found, denotes⟩ := findRegisteredTag_of_mem inv registered
  exact ⟨tag, by rw [canonicalName, found], denotes⟩

theorem registerIntervalType_registered (inv : Inv db n cell)
    (registered : ∀ b ∈ interval.bounds, .ray b ∈ db.keys)
    (star : ∀ low high, interval = .between low high → high = .star) :
    ∃ tag, registerIntervalType interval db = (tag, db) ∧
      Denotes n cell tag fun x => interval.typep x := by
  have high : ∃ tag, registerHigh interval.high db = (tag, db) ∧
      Denotes n cell tag interval.high.beyond := by
    unfold registerHigh Bound.beyond
    cases next : interval.high.next with
    | none => exact ⟨0, rfl, Denotes.none n cell⟩
    | some b => exact registerElementaryInterval_of_mem inv (registered _ (interval.next_mem next))
  obtain ⟨tagHigh, eqHigh, denotesHigh⟩ := high
  obtain ⟨tagLow, eqLow, denotesLow⟩ :=
    registerElementaryInterval_of_mem inv (registered _ List.mem_cons_self)
  refine ⟨Int.ldiff tagLow tagHigh, ?_,
    (denotesLow.ldiff denotesHigh).congr fun x => (interval.typep_eq x).symm⟩
  rw [registerIntervalType_eq, eqHigh]
  dsimp only
  rw [eqLow]
  cases interval with
  | all => rfl
  | above low => rfl
  | between low high => rw [pushInterval, if_pos (star low high rfl)]

theorem Interval.typep_key {key : Key} (eq : interval.key = some key)
    (x : Object) : key.typep x = interval.typep x := by
  cases interval with
  | all => cases eq
  | between low high =>
    cases eq
    rfl
  | above low =>
    cases low with
    | star =>
      cases eq
      cases x <;> rfl
    | exclusive low => cases eq
    | inclusive low =>
      rw [Interval.key] at eq
      split at eq
      next whole =>
        cases eq
        have num : (low.num : ℚ) = low := Rat.den_eq_one_iff low |>.mp whole
        show Interval.typep x (.above (.inclusive (low.num : ℚ))) = _
        rw [num]
      next => cases eq

theorem canonicalInterval_registered (inv : Inv db n cell) (registered : interval.Registered db) :
    ∃ tag, canonicalInterval interval db = (tag, db) ∧
      Denotes n cell tag fun x => interval.typep x := by
  unfold canonicalInterval
  cases found : interval.key.bind db.findRegisteredTag with
  | some tag =>
    obtain ⟨key, eq, lookup⟩ := Option.bind_eq_some_iff.mp found
    exact ⟨tag, rfl, (inv.entry _ (Database.mem_of_lookup lookup)).congr
      (Interval.typep_key eq)⟩
  | none =>
    refine registerIntervalType_registered inv registered.1 fun low high eq => ?_
    by_contra ne
    obtain ⟨tag, lookup, -⟩ := findRegisteredTag_of_mem inv (registered.2 low high eq ne)
    rw [eq] at found
    rw [show (Interval.between low high).key.bind db.findRegisteredTag =
      db.findRegisteredTag (.between low high) from rfl, lookup] at found
    cases found

theorem typep_integer (m : Int) (x : Object) :
    (Key.between (.inclusive m) (.inclusive m)).typep x = decide (Object.integer m = x) := by
  cases x with
  | integer k =>
    rw [Key.typep_between, Key.typep_ray]
    simp only [Bound.beyond, Bound.next, Key.typep_ray, Bound.first, boundsLe, floor_le_iff,
      Int.ceil_intCast, Int.cast_lt, ← decide_not, Object.integer.injEq]
    rw [← Bool.decide_and, decide_eq_decide]
    omega
  | _ => rfl

theorem registerMemberType_registered (inv : Inv db n cell) {a : Atom}
    (registered : a.Registered db) :
    ∃ tag, registerMemberType a db = (tag, db) ∧
      Denotes n cell tag fun x => decide (a.object = x) := by
  have symbol : a.object ∈ db.objects → ∃ tag, registerMemberType a db = (tag, db) ∧
      Denotes n cell tag fun x => decide (a.object = x) := by
    intro isIn
    obtain ⟨tag, found⟩ := Database.lookup_of_mem isIn
    refine ⟨tag, by unfold registerMemberType; rw [found], ?_⟩
    exact (inv.member _ (Database.mem_of_lookup found)).congr fun x => decide_eq_decide.mpr eq_comm
  cases a with
  | symbol serial => exact symbol registered
  | keyword serial => exact symbol registered
  | integer m =>
    unfold registerMemberType numberMemberType
    cases found : db.memberTypes.lookup (Atom.integer m).object with
    | some tag =>
      exact absurd (Database.mem_objects (Database.mem_of_lookup found))
        (inv.integer_not_mem m)
    | none =>
      obtain ⟨tag, lookup, denotes⟩ := findRegisteredTag_of_mem inv registered
      refine ⟨tag, ?_, denotes.congr (typep_integer m)⟩
      dsimp only
      rw [lookup]

theorem registerMemberTypes_registered (inv : Inv db n cell) {objects : List Atom}
    (registered : ∀ a ∈ objects, a.Registered db) :
    ∃ tags, registerMemberTypes objects db = (tags, db) ∧
      Denotes n cell (tags.foldr Int.lor 0) fun x => objects.any fun a => a.object = x := by
  induction objects with
  | nil => exact ⟨[], rfl, Denotes.none n cell⟩
  | cons a objects ih =>
    obtain ⟨tag, eq, denotes⟩ := registerMemberType_registered inv
      (registered a List.mem_cons_self)
    obtain ⟨tags, eqs, rest⟩ := ih fun b isIn => registered b (List.mem_cons_of_mem a isIn)
    refine ⟨tag :: tags, ?_, denotes.lor rest⟩
    rw [registerMemberTypes, eq]
    dsimp only
    rw [eqs]

mutual

theorem canonicalType_registered (inv : Inv db n cell) :
    ∀ (type : Specifier), type.Registered db →
      ∃ tag, canonicalType type db = (tag, db) ∧ Denotes n cell tag fun x => typep x type
  | .t, _ => ⟨-1, rfl, Denotes.all n cell⟩
  | .nil, _ => ⟨0, rfl, Denotes.none n cell⟩
  | .name _, registered => canonicalName_registered inv registered
  | .integer _, registered => canonicalInterval_registered inv registered
  | .member objects, registered => by
      obtain ⟨tags, eq, denotes⟩ := registerMemberTypes_registered inv registered
      exact ⟨tags.foldr Int.lor 0, by rw [canonicalType, eq], denotes⟩
  | .and types, registered => by
      obtain ⟨tags, eq, all, -⟩ := canonicalTypes_registered inv types registered
      exact ⟨tags.foldr Int.land (-1), by rw [canonicalType, eq], all⟩
  | .or types, registered => by
      obtain ⟨tags, eq, -, any⟩ := canonicalTypes_registered inv types registered
      exact ⟨tags.foldr Int.lor 0, by rw [canonicalType, eq], any⟩
  | .not type, registered => by
      obtain ⟨tag, eq, denotes⟩ := canonicalType_registered inv type registered
      exact ⟨Int.lnot tag, by rw [canonicalType, eq], denotes.lnot⟩

theorem canonicalTypes_registered (inv : Inv db n cell) :
    ∀ (types : List Specifier), RegisteredAll db types →
      ∃ tags, canonicalTypes types db = (tags, db) ∧
        Denotes n cell (tags.foldr Int.land (-1)) (fun x => typepAll x types) ∧
        Denotes n cell (tags.foldr Int.lor 0) fun x => typepAny x types
  | [], _ => ⟨[], rfl, Denotes.all n cell, Denotes.none n cell⟩
  | type :: types, registered => by
      obtain ⟨tag, eq, denotes⟩ := canonicalType_registered inv type registered.1
      obtain ⟨tags, eqs, all, any⟩ := canonicalTypes_registered inv types registered.2
      refine ⟨tag :: tags, ?_, denotes.land all, denotes.lor any⟩
      rw [canonicalTypes, eq]
      dsimp only
      rw [eqs]

end

end Ecl.Types
