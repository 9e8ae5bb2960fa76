import Ecl.Lib.Cells
import Ecl.Types.Canonical

/- What the tags of a database denote. Every registered type is a union of cells, and the cells
are what the registered types and objects tell apart. -/
namespace Ecl.Types

open Ecl.Lib List

namespace Database

variable {Object Key : Type}

def keys (db : Database Object Key) : List Key := db.elementaryTypes.map Prod.fst

def objects (db : Database Object Key) : List Object := db.memberTypes.map Prod.fst

theorem mem_keys {db : Database Object Key} {i : Key × Int} (isIn : i ∈ db.elementaryTypes) :
    i.1 ∈ db.keys :=
  mem_map_of_mem isIn

theorem mem_objects {db : Database Object Key} {i : Object × Int} (isIn : i ∈ db.memberTypes) :
    i.1 ∈ db.objects :=
  mem_map_of_mem isIn

variable {α : Type} {l : List (α × Int)} {key : α}

theorem mem_of_lookup [BEq α] [LawfulBEq α] {tag : Int}
    (found : l.lookup key = some tag) : (key, tag) ∈ l := by
  obtain ⟨before, after, rfl, -⟩ := lookup_eq_some_iff.mp found
  exact mem_append_right before mem_cons_self

theorem lookup_of_mem [BEq α] [LawfulBEq α]
    (isIn : key ∈ l.map Prod.fst) : ∃ tag, l.lookup key = some tag := by
  obtain ⟨i, member, rfl⟩ := mem_map.mp isIn
  exact Option.isSome_iff_exists.mp (lookup_isSome_iff.mpr ⟨i, member, beq_self_eq_true i.1⟩)

theorem not_mem_of_lookup [BEq α] [LawfulBEq α] (missing : l.lookup key = none) :
    key ∉ l.map Prod.fst := by
  intro isIn
  obtain ⟨tag, found⟩ := lookup_of_mem isIn
  rw [found] at missing
  cases missing

theorem keys_map (f : α × Int → α × Int) (same : ∀ i, (f i).1 = i.1)
    (l : List (α × Int)) : (l.map f).map Prod.fst = l.map Prod.fst := by
  rw [map_map]
  exact map_congr_left fun i _ => same i

theorem updateTypes_keys (db : Database Object Key) (typeMask newTag : Int) :
    (db.updateTypes typeMask newTag).keys = db.keys :=
  keys_map _ (fun i => by split <;> rfl) _

end Database

/-- No registered type and no registered object tells the two apart. -/
structure Alike (db : TypeState) (x y : Object) : Prop where
  key : ∀ key ∈ db.keys, key.typep x = key.typep y
  object : ∀ o ∈ db.objects, x = o ↔ y = o

/-- The tags denote the types. The last cell is that of the objects of no type. -/
structure Partition (db : TypeState) (n : Nat) (cell : Object → Nat) : Prop where
  highest : db.highestTypeTag = 2 ^ n
  cells : Cells n cell
  other : ∀ address, cell (.other address) = n
  entry : ∀ i ∈ db.elementaryTypes, Denotes n cell i.2 fun x => i.1.typep x
  member : ∀ i ∈ db.memberTypes, Denotes n cell i.2 fun x => decide (x = i.1)
  alike : ∀ x y, Alike db x y → cell x = cell y

/-- What is registered with each type. -/
structure Closed (db : TypeState) : Prop where
  objects : ∀ o ∈ db.objects, ∃ serial, o = .symbol serial ∨ o = .keyword serial
  low : ∀ low high, .between low high ∈ db.keys → .ray low.first ∈ db.keys
  high : ∀ low high b, .between low high ∈ db.keys → high.next = some b →
    .ray (some b) ∈ db.keys
  integer : .name .integer ∈ db.keys → .ray none ∈ db.keys
  keyword : .name .keyword ∈ db.keys → .name .symbol ∈ db.keys

structure Inv (db : TypeState) (n : Nat) (cell : Object → Nat) : Prop
    extends Partition db n cell, Closed db

/-- Nothing is forgotten. -/
structure Grows (db db' : TypeState) : Prop where
  keys : db.keys ⊆ db'.keys
  objects : db.objects ⊆ db'.objects

theorem Grows.refl (db : TypeState) : Grows db db := ⟨fun _ h => h, fun _ h => h⟩

variable {db db' : TypeState}

theorem Grows.trans {db'' : TypeState} (first : Grows db db') (second : Grows db' db'') :
    Grows db db'' :=
  ⟨fun _ h => second.keys (first.keys h), fun _ h => second.objects (first.objects h)⟩

variable {x : Object}

theorem Alike.of_grows {y : Object} (grows : Grows db db') (same : Alike db' x y) :
    Alike db x y where
  key key isIn := same.key key (grows.keys isIn)
  object o isIn := same.object o (grows.objects isIn)

theorem inv_empty : Inv .empty 0 fun _ => 0 where
  highest := rfl
  cells := ⟨fun _ => Nat.le_refl 0, fun _ none => ⟨.other 0, (Nat.le_zero.mp none).symm⟩⟩
  other _ := rfl
  entry _ isIn := nomatch isIn
  member _ isIn := nomatch isIn
  alike _ _ _ := rfl
  objects _ isIn := nomatch isIn
  low _ _ isIn := nomatch isIn
  high _ _ _ isIn := nomatch isIn
  integer isIn := nomatch isIn
  keyword isIn := nomatch isIn

theorem Key.typep_other (key : Key) (address : Nat) : key.typep (.other address) = false := by
  cases key with
  | name n => cases n <;> rfl
  | ray b => cases b <;> rfl
  | between low high => rfl

theorem Closed.integer_not_mem (closed : Closed db) (m : Int) : .integer m ∉ db.objects := by
  intro isIn
  obtain ⟨serial, eq | eq⟩ := closed.objects _ isIn <;> cases eq

theorem Closed.other_not_mem (closed : Closed db) (address : Nat) :
    .other address ∉ db.objects := by
  intro isIn
  obtain ⟨serial, eq | eq⟩ := closed.objects _ isIn <;> cases eq

theorem alike_of_not_mem {y : Object} (notX : x ∉ db.objects)
    (notY : y ∉ db.objects) (key : ∀ key ∈ db.keys, key.typep x = key.typep y) :
    Alike db x y where
  key := key
  object o isIn := by
    constructor
    · exact fun eq => absurd (eq ▸ isIn) notX
    · exact fun eq => absurd (eq ▸ isIn) notY

variable {n : Nat} {cell : Object → Nat}

theorem Inv.cell_eq (inv : Inv db n cell)
    (notIn : x ∉ db.objects) (key : ∀ key ∈ db.keys, key.typep x = false) :
    cell x = n := by
  have same : Alike db x (.other 0) :=
    alike_of_not_mem notIn (inv.other_not_mem 0) fun k isIn => by
      rw [key k isIn, Key.typep_other]
  rw [inv.alike _ _ same, inv.other]

theorem Partition.entry_last
    (partition : Partition db n cell) {i : Key × Int} (isIn : i ∈ db.elementaryTypes) :
    i.2.testBit n = false := by
  rw [← partition.other 0, (partition.entry i isIn).bit, Key.typep_other]

theorem Inv.member_last (inv : Inv db n cell) {i : Object × Int} (isIn : i ∈ db.memberTypes) :
    i.2.testBit n = false := by
  rw [← inv.other 0, (inv.member i isIn).bit, decide_eq_false_iff_not]
  intro eq
  exact inv.other_not_mem 0 (eq ▸ Database.mem_objects isIn)

theorem exists_not_mem (kind : Nat → Object) (distinct : ∀ a b, kind a = kind b → a = b)
    (objects : List Object) : ∃ serial, kind serial ∉ objects := by
  suffices bounded : ∃ bound, ∀ serial, kind serial ∈ objects → serial < bound by
    obtain ⟨bound, below⟩ := bounded
    exact ⟨bound, fun isIn => Nat.lt_irrefl bound (below bound isIn)⟩
  induction objects with
  | nil => exact ⟨0, fun _ isIn => nomatch isIn⟩
  | cons o objects ih =>
    obtain ⟨bound, below⟩ := ih
    by_cases this : ∃ serial, kind serial = o
    · obtain ⟨a, eq⟩ := this
      refine ⟨max (a + 1) bound, fun serial isIn => ?_⟩
      cases mem_cons.mp isIn with
      | inl head =>
        have := distinct serial a (head.trans eq.symm)
        omega
      | inr tail =>
        have := below serial tail
        omega
    · refine ⟨bound, fun serial isIn => ?_⟩
      cases mem_cons.mp isIn with
      | inl head => exact absurd ⟨serial, head⟩ this
      | inr tail => exact below serial tail

variable {tag : Int} {p : Object → Bool}

theorem denotes_members {members : List (Object × Int)}
    (denotes : ∀ i ∈ members, Denotes n cell i.2 fun x => decide (x = i.1)) {key : Key}
    (start : Denotes n cell tag p) :
    Denotes n cell
      (members.foldl (fun tag i => if key.typep i.1 then Int.lor tag i.2 else tag) tag)
      fun x => p x || (decide (x ∈ members.map Prod.fst) && key.typep x) := by
  induction members generalizing tag p with
  | nil => exact start.congr fun x => by simp
  | cons i members ih =>
    have rest := fun j isIn => denotes j (mem_cons_of_mem i isIn)
    rw [foldl_cons]
    split
    next belongs =>
      refine (ih rest (start.lor (denotes i mem_cons_self))).congr fun x => ?_
      by_cases eq : x = i.1
      · subst eq
        simp [belongs]
      · simp only [eq, decide_false, Bool.or_false, map_cons, mem_cons, false_or]
    next belongs =>
      refine (ih rest start).congr fun x => ?_
      by_cases eq : x = i.1
      · subst eq
        simp [belongs]
      · simp only [eq, map_cons, mem_cons, false_or]

/-- The type that is pushed, where the tag has all of the type but registered objects. -/
theorem denotes_push
    (denotes : ∀ i ∈ db.memberTypes, Denotes n cell i.2 fun x => decide (x = i.1)) (key : Key)
    (start : Denotes n cell tag p)
    (within : ∀ x, p x = true → key.typep x = true)
    (cover : ∀ x, key.typep x = true → x ∉ db.objects → p x = true) :
    ∀ i ∈ (db.pushType Key.typep key tag).elementaryTypes, i ∈ db.elementaryTypes ∨
      i.1 = key ∧ Denotes n cell i.2 fun x => key.typep x := by
  intro i isIn
  cases mem_cons.mp isIn with
  | inr tail => exact .inl tail
  | inl head =>
    refine .inr ⟨by rw [head], ?_⟩
    rw [head]
    refine (denotes_members denotes start).congr fun x => ?_
    have := within x
    have := cover x
    show (p x || (decide (x ∈ db.objects) && key.typep x)) = key.typep x
    by_cases registered : x ∈ db.objects <;> cases isP : p x <;> cases isKey : key.typep x <;>
      simp_all

theorem Inv.push (inv : Inv db n cell) (key : Key)
    (denotes : Denotes n cell tag fun x => key.typep x)
    (closed : Closed (db.pushType Key.typep key tag)) :
    Inv (db.pushType Key.typep key tag) n cell where
  toClosed := closed
  highest := inv.highest
  cells := inv.cells
  other := inv.other
  member := inv.member
  entry i isIn := by
    cases denotes_push inv.member key denotes (fun _ isIn => isIn)
      (fun _ isIn _ => isIn) i isIn with
    | inl old => exact inv.entry i old
    | inr new => exact new.1 ▸ new.2
  alike x y same := by
    have grows : Grows db (db.pushType Key.typep key tag) :=
      ⟨fun k isIn => mem_cons_of_mem key isIn, fun _ h => h⟩
    exact inv.alike x y (same.of_grows grows)

variable {c : Nat} {r : Object → Bool}

/-- A database whose types are those of another one, and some more that tell the elements of a
new cell from the others. -/
theorem Inv.split (inv : Inv db n cell) (within : ∀ x, r x = true → cell x = c)
    (some : ∃ x, r x = true)
    (rest : ∃ x, cell x = c ∧ r x = false)
    (other : ∀ address, r (.other address) = false)
    (highest : db'.highestTypeTag = 2 * db.highestTypeTag)
    (entry : ∀ i ∈ db'.elementaryTypes,
      Denotes (n + 1) (splitCell n cell r) i.2 fun x => i.1.typep x)
    (member : ∀ i ∈ db'.memberTypes,
      Denotes (n + 1) (splitCell n cell r) i.2 fun x => decide (x = i.1))
    (grows : Grows db db') (decided : ∀ x y, Alike db' x y → r x = r y)
    (closed : Closed db') : Inv db' (n + 1) (splitCell n cell r) where
  toClosed := closed
  highest := by rw [highest, inv.highest, pow_succ, mul_comm]
  cells := inv.cells.split within some rest
  other address := by rw [splitCell_of_not_mem (other address), if_pos (inv.other address)]
  entry := entry
  member := member
  alike x y same := by
    rw [splitCell, splitCell, decided x y same, inv.alike x y (same.of_grows grows)]

theorem Inv.member_split
    (inv : Inv db n cell) (within : ∀ x, r x = true → cell x = c) (some : ∃ x, r x = true)
    (fresh : ∀ o ∈ db.objects, r o = false) :
    ∀ i ∈ db.memberTypes, Denotes (n + 1) (splitCell n cell r) i.2 fun x => decide (x = i.1) := by
  intro i isIn
  refine (inv.member i isIn).split_outside within some (fun x isR => ?_) (inv.member_last isIn)
  rw [decide_eq_false_iff_not]
  intro eq
  rw [eq, fresh i.1 (Database.mem_objects isIn)] at isR
  cases isR

theorem testBit_lor_two_pow {j : Nat} (ne : j ≠ n) :
    (Int.lor (2 ^ n) tag).testBit j = tag.testBit j := by
  rw [Int.testBit_lor, testBit_two_pow, decide_eq_false (Ne.symm ne), Bool.false_or]

theorem testBit_lor_two_pow_self (n : Nat) (tag : Int) :
    (Int.lor (2 ^ n) tag).testBit n = true := by
  rw [Int.testBit_lor, testBit_two_pow, decide_eq_true rfl, Bool.true_or]

theorem Inv.entry_split
    (inv : Inv db n cell) (within : ∀ x, r x = true → cell x = c) (gets : Key × Int → Bool)
    (exact : ∀ i ∈ db.elementaryTypes, gets i = i.2.testBit c) :
    ∀ i ∈ db.elementaryTypes.map (fun i => if gets i then (i.1, Int.lor (2 ^ n) i.2) else i),
      Denotes (n + 1) (splitCell n cell r) i.2 fun x => i.1.typep x := by
  intro i' isNew
  obtain ⟨i, isIn, rfl⟩ := mem_map.mp isNew
  have last := inv.entry_last isIn
  have bit := exact i isIn
  split
  next yes =>
    exact (inv.entry i isIn).split within (by rw [testBit_lor_two_pow_self, ← bit, yes])
      fun j ne => testBit_lor_two_pow ne
  next no =>
    refine (inv.entry i isIn).split within ?_ fun _ _ => rfl
    rw [last, ← bit, Bool.eq_false_iff.mpr no]

/-- A new type with a cell of its own, in a database where only tags have been changed. -/
theorem Inv.push_new (inv : Inv db n cell) (db' : TypeState) (key : Key)
    (within : ∀ x, r x = true → cell x = c) (some : ∃ x, r x = true)
    (rest : ∃ x, cell x = c ∧ r x = false) (fresh : ∀ o ∈ db.objects, r o = false)
    (other : ∀ address, r (.other address) = false)
    (highest : db'.highestTypeTag = 2 * db.highestTypeTag)
    (members : db'.memberTypes = db.memberTypes) (keys : db'.keys = db.keys)
    (entry : ∀ i ∈ db'.elementaryTypes,
      Denotes (n + 1) (splitCell n cell r) i.2 fun x => i.1.typep x)
    (own : Denotes (n + 1) (splitCell n cell r) tag p)
    (sub : ∀ x, p x = true → key.typep x = true)
    (cover : ∀ x, key.typep x = true → x ∉ db.objects → p x = true)
    (decided : ∀ x y, Alike db x y → key.typep x = key.typep y → r x = r y)
    (closed : Closed (db'.pushType Key.typep key tag)) :
    Inv (db'.pushType Key.typep key tag) (n + 1) (splitCell n cell r) := by
  have objects : db'.objects = db.objects := congrArg (List.map Prod.fst) members
  have grows : Grows db (db'.pushType Key.typep key tag) := by
    constructor
    · intro k isIn
      show k ∈ key :: db'.keys
      exact mem_cons_of_mem _ (keys ▸ isIn)
    · intro o isIn
      show o ∈ db'.objects
      exact objects ▸ isIn
  have member : ∀ i ∈ db'.memberTypes,
      Denotes (n + 1) (splitCell n cell r) i.2 fun x => decide (x = i.1) := by
    rw [members]
    exact inv.member_split within some fresh
  refine inv.split within some rest other highest (fun i isIn => ?_) member grows
    (fun x y same => decided x y (same.of_grows grows) (same.key key mem_cons_self)) closed
  cases denotes_push member key own sub (fun x isIn notIn => cover x isIn (objects ▸ notIn)) i
      isIn with
  | inl old => exact entry i old
  | inr new => exact new.1 ▸ new.2

end Ecl.Types
