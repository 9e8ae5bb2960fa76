import Ecl.Types.FamilyTags

/- The answers of subtypep on arrays and classes. Two types of a family of which neither is below
the other one are taken for disjoint, so that an object of both needs a type of its own. -/
namespace Ecl.Types.Family

open Ecl.Lib List Prod

variable {Class : Type} [DecidableEq Class] {h : Hierarchy Class}

/-- Every object that belongs to a type that is mentioned has a registered type that is below
those to which it belongs, and below no other that is mentioned. -/
def Represented (h : Hierarchy Class) (registered mentioned : List (Key Class)) : Prop :=
  ∀ object, (∀ a ∈ mentioned, a.typep h object = false) ∨
    ∃ m ∈ registered, ∀ a ∈ mentioned, Key.le h m a = a.typep h object

variable {db : TypeState Class} {keys mentioned : List (Key Class)}

/-- The bit of the type that represents an object, or the first bit that no type has. -/
theorem Registers.exists_bit (registers : Registers h db keys)
    (represented : Represented h keys mentioned)
    (object : Object Class) : ∃ j, Represents h db object j mentioned := by
  obtain ⟨n, own, tags⟩ := registers.tags
  cases represented object with
  | inl out =>
    refine ⟨n, fun i isIn isMentioned => ?_⟩
    rw [tags.last isIn, out i.1 isMentioned]
  | inr within =>
    obtain ⟨m, registered, le⟩ := within
    refine ⟨own m, fun i isIn isMentioned => ?_⟩
    rw [tags.bit_own ((registers.mem m).mpr registered) isIn, le i.1 isMentioned]

/-- The types that the two specifiers mention are registered when the tags are compared. -/
theorem fastSubtypep_sound {t1 t2 : Specifier Class} {confident : Bool}
    (registers : Registers h db keys)
    (represented : Represented h (t1.keys h ++ t2.keys h ++ keys) (t1.keys h ++ t2.keys h))
    (returned : fastSubtypep h t1 t2 db = .ok (true, confident)) (object : Object Class)
    (isIn : typep h object t1 = true) : typep h object t2 = true := by
  unfold fastSubtypep at returned
  obtain ⟨⟨_, db1⟩, first, returned⟩ := bind_eq_ok.mp returned
  obtain ⟨⟨_, db2⟩, second, returned⟩ := bind_eq_ok.mp returned
  obtain ⟨⟨tag1, db3⟩, third, returned⟩ := bind_eq_ok.mp returned
  obtain ⟨⟨tag2, db4⟩, fourth, returned⟩ := bind_eq_ok.mp returned
  have zero : Int.ldiff tag1 tag2 = 0 :=
    of_decide_eq_true (mk.inj (Except.ok.inj returned)).1
  have all : Registers h db2 (t1.keys h ++ t2.keys h ++ keys) :=
    (canonicalType_registers t2 (canonicalType_registers t1 registers first) second).congr
      fun a => by simp only [mem_append]; tauto
  have mem : ∀ a, a ∈ t1.keys h ++ t2.keys h → a ∈ db2.keys :=
    fun a isIn => (all.mem a).mpr (mem_append_left _ isIn)
  obtain ⟨eq3, bit1⟩ := canonicalType_registered t1
    (fun a isIn => mem a (mem_append_left _ isIn)) third
  subst eq3
  obtain ⟨_, bit2⟩ := canonicalType_registered t2
    (fun a isIn => mem a (mem_append_right _ isIn)) fourth
  obtain ⟨j, represents⟩ := all.exists_bit represented object
  have bit1 := bit1 object j (represents.mono fun a isIn => mem_append_left _ isIn)
  have bit2 := bit2 object j (represents.mono fun a isIn => mem_append_right _ isIn)
  rw [← bit2]
  exact (Ecl.Lib.ldiff_eq_zero_iff tag1 tag2).mp zero j (bit1.trans isIn)

/-- A step of canonical-type on a type in canonical form. -/
def registerKey (h : Hierarchy Class) (key : Key Class) (db : TypeState Class) : TypeState Class :=
  match key with
  | .array simple elementType dims => (registerArray h simple dims elementType db).2
  | .ofClass c => (registerClass h c db).2

section Histories

variable {Ref : Type} [DecidableEq Ref] (h) (heap : Ref → Specifier Class)
  (hashEql : Ref → Ref → Nat)

/-- A call of subtypep, that binds the variables of the database. -/
def callSubtypep (t1 t2 : Ref) (db : TypeState Class) (cache : SubtypepCache Ref) :
    Except TypeError ((Bool × Bool) × SubtypepCache Ref) :=
  subtypep hashEql (fun t1 t2 => Specifier.subclassp h (heap t1) (heap t2))
    (fun t1 t2 => fastSubtypep h (heap t1) (heap t2) db) t1 t2 cache

/-- When tags are compared, the objects of the mentioned types are represented. -/
def Told (t1 t2 : Ref) (db : TypeState Class) (cache : SubtypepCache Ref) : Prop :=
  Compares hashEql (fun t1 t2 => Specifier.subclassp h (heap t1) (heap t2)) cache t1 t2 →
    Represented h ((heap t1).keys h ++ (heap t2).keys h ++ db.keys)
      ((heap t1).keys h ++ (heap t2).keys h)

/-- The database and the cache after registrations in any order and calls of subtypep. -/
inductive Reaches : TypeState Class → SubtypepCache Ref → Prop
  | start : Reaches .empty .empty
  | register {db : TypeState Class} {cache : SubtypepCache Ref} (key : Key Class) :
      Reaches db cache → Reaches (registerKey h key db) cache
  | call {db : TypeState Class} {cache cache' : SubtypepCache Ref} {t1 t2 : Ref}
      {values : Bool × Bool} : Reaches db cache → Told h heap hashEql t1 t2 db cache →
      callSubtypep h heap hashEql t1 t2 db cache = .ok (values, cache') → Reaches db cache'

end Histories

section Sound

variable {Ref : Type} [DecidableEq Ref] {heap : Ref → Specifier Class}
  {hashEql : Ref → Ref → Nat} {db : TypeState Class} {cache : SubtypepCache Ref}

/-- A first value that is T is right. -/
def Sound (h : Hierarchy Class) (heap : Ref → Specifier Class) (t1 t2 : Ref)
    (values : Bool × Bool) : Prop :=
  values.1 = true → ∀ object, typep h object (heap t1) = true → typep h object (heap t2) = true

theorem Specifier.subclassp_sound {t1 t2 : Specifier Class}
    (classes : Specifier.subclassp h t1 t2 = some true) (object : Object Class)
    (isIn : typep h object t1 = true) : typep h object t2 = true := by
  cases t1 with
  | ofClass c1 =>
    cases t2 with
    | ofClass c2 =>
      have le : Key.le h (.ofClass c1) (.ofClass c2) = true := Option.some.inj classes
      exact Key.typep_mono h le isIn
    | _ => cases classes
  | _ => cases classes

theorem registerKey_registers {keys : List (Key Class)} (registers : Registers h db keys)
    (key : Key Class) : ∃ keys', Registers h (registerKey h key db) keys' := by
  cases key with
  | array simple elementType dims =>
      exact ⟨_, registerArray_registers registers simple dims elementType⟩
  | ofClass c => exact ⟨_, registerClass_registers registers c⟩

theorem callSubtypep_sound {keys : List (Key Class)} (registers : Registers h db keys)
    (holds : cache.Holds (Sound h heap)) {t1 t2 : Ref} (told : Told h heap hashEql t1 t2 db cache)
    {values : Bool × Bool} {cache' : SubtypepCache Ref}
    (returned : callSubtypep h heap hashEql t1 t2 db cache = .ok (values, cache')) :
    Sound h heap t1 t2 values ∧ cache'.Holds (Sound h heap) := by
  refine subtypep_holds holds (fun _ _ _ isIn => isIn) ?classes ?fast returned
  case classes =>
    intro t1 t2 test classes yes object
    rw [show test = true from yes] at classes
    exact Specifier.subclassp_sound classes object
  case fast =>
    intro compares values computed yes object
    have same : Registers h db db.keys := ⟨registers.tags, fun _ => Iff.rfl⟩
    have eq : values = (true, values.2) := Prod.ext yes rfl
    rw [eq] at computed
    exact fastSubtypep_sound same (told compares) computed object

theorem Reaches.sound (reaches : Reaches h heap hashEql db cache) :
    (∃ keys, Registers h db keys) ∧ cache.Holds (Sound h heap) := by
  induction reaches with
  | start => exact ⟨⟨[], Registers.empty⟩, fun _ _ record => nomatch record⟩
  | register key _ ih =>
    obtain ⟨⟨keys, registers⟩, holds⟩ := ih
    exact ⟨registerKey_registers registers key, holds⟩
  | call _ told returned ih =>
    obtain ⟨⟨keys, registers⟩, holds⟩ := ih
    exact ⟨⟨keys, registers⟩, (callSubtypep_sound registers holds told returned).2⟩

/-- In a history where the objects are represented whenever tags are compared, subtypep returns
T only for types with all objects in common. -/
theorem subtypep_sound (reaches : Reaches h heap hashEql db cache) {t1 t2 : Ref}
    (told : Told h heap hashEql t1 t2 db cache) {cache' : SubtypepCache Ref}
    (returned : callSubtypep h heap hashEql t1 t2 db cache = .ok ((true, true), cache'))
    (object : Object Class) (isIn : typep h object (heap t1) = true) :
    typep h object (heap t2) = true := by
  have ⟨⟨keys, registers⟩, holds⟩ := reaches.sound
  exact (callSubtypep_sound registers holds told returned).1 rfl object isIn

end Sound

/-- The class T alone. -/
def onlyT : Hierarchy Unit where
  superiors _ := []
  precedenceList _ := [()]
  linear c := {
    head := ⟨[], rfl⟩
    nodup := by decide
    mem := fun _ => ⟨fun _ => .refl, fun _ => mem_cons_self⟩
    ordered := fun _ _ _ _ sub => sub }
  t := ()
  t_mem _ := mem_cons_self

/-- Two types that overlap, and one that is apart from both. -/
def overlapping : Bool → Specifier Unit
  | false => .and [.array false (some .t) (.list [.size 2, .star]),
      .array false (some .t) (.list [.star, .size 3])]
  | true => .array false (some .t) (.rank 3)

/-- A matrix of 2 rows and 3 columns belongs to both types, that are taken for disjoint. -/
theorem overlapping_dimensions :
    (callSubtypep onlyT overlapping (fun _ _ => 0) false true .empty .empty).map Prod.fst =
        .ok (true, true) ∧
      typep onlyT (.array true .t [2, 3]) (overlapping false) = true ∧
      typep onlyT (.array true .t [2, 3]) (overlapping true) = false := by
  decide +kernel

/-- A type and a part of it. -/
def nested : Bool → Specifier Unit
  | false => .array true (some .t) (.rank 2)
  | true => .array false (some .t) .star

theorem represented_pair {registered : List (Key Class)} {a b : Key Class} (left : a ∈ registered)
    (right : b ∈ registered) (le : Key.le h a b = true) (strict : Key.le h b a = false) :
    Represented h registered [a, b] := by
  intro object
  cases inA : a.typep h object with
  | true =>
    refine .inr ⟨a, left, fun c isIn => ?_⟩
    cases mem_cons.mp isIn with
    | inl eq => rw [eq, inA, (Key.ordered h).refl]
    | inr eq => rw [mem_singleton.mp eq, le, Key.typep_mono h le inA]
  | false =>
    cases inB : b.typep h object with
    | true =>
      refine .inr ⟨b, right, fun c isIn => ?_⟩
      cases mem_cons.mp isIn with
      | inl eq => rw [eq, inA, strict]
      | inr eq => rw [mem_singleton.mp eq, inB, (Key.ordered h).refl]
    | false =>
      refine .inl fun c isIn => ?_
      cases mem_cons.mp isIn with
      | inl eq => rw [eq, inA]
      | inr eq => rw [mem_singleton.mp eq, inB]

/-- The database with the smaller type. -/
def matrices : TypeState Unit := registerKey onlyT (.array true .t (some [.star, .star])) .empty

theorem exists_of_map {ε α β : Type} {x : Except ε (α × β)} {a : α}
    (eq : x.map fst = .ok a) : ∃ b, x = .ok (a, b) := by
  cases x with
  | error e => cases eq
  | ok pair => exact ⟨pair.2, congrArg (fun a => Except.ok (a, pair.2)) (Except.ok.inj eq)⟩

/-- The smaller type represents its objects, and the other one the rest. -/
theorem subtypep_sound_nested :
    ∃ cache', callSubtypep onlyT nested (fun _ _ => 0) false true matrices .empty =
        .ok ((true, true), cache') ∧
      ∀ object, typep onlyT object (nested false) = true →
        typep onlyT object (nested true) = true := by
  have answer : ∃ cache', callSubtypep onlyT nested (fun _ _ => 0) false true matrices .empty =
      .ok ((true, true), cache') := exists_of_map (by decide +kernel)
  have told : Told onlyT nested (fun _ _ => 0) false true matrices .empty := fun _ =>
    represented_pair mem_cons_self (mem_cons_of_mem _ mem_cons_self) (by decide)
      (by decide)
  obtain ⟨cache', returned⟩ := answer
  exact ⟨cache', returned, subtypep_sound (.register _ .start) told returned⟩

end Ecl.Types.Family
