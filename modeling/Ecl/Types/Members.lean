import Ecl.Types.Partition

/- Objects and names are registered: each has a cell of its own, apart from the registered
objects that belong to it. -/
namespace Ecl.Types

open Ecl.Lib List

variable {db : TypeState} {n : Nat} {cell : Object → Nat}

theorem Key.typep_symbol (key : Key) (a b : Nat) :
    key.typep (.symbol a) = key.typep (.symbol b) := by
  cases key with
  | name n => cases n <;> rfl
  | ray b => cases b <;> rfl
  | between low high => rfl

theorem Key.typep_keyword (key : Key) (a b : Nat) :
    key.typep (.keyword a) = key.typep (.keyword b) := by
  cases key with
  | name n => cases n <;> rfl
  | ray b => cases b <;> rfl
  | between low high => rfl

theorem Inv.exists_cell_eq (inv : Inv db n cell) {o : Object} (missing : o ∉ db.objects)
    (kind : ∃ serial, o = .symbol serial ∨ o = .keyword serial) :
    ∃ x, cell x = cell o ∧ decide (x = o) = false := by
  obtain ⟨serial, rfl | rfl⟩ := kind
  · obtain ⟨a, fresh⟩ := exists_not_mem .symbol (fun _ _ eq => Object.symbol.inj eq)
      (.symbol serial :: db.objects)
    have ne : Object.symbol a ≠ .symbol serial := fun eq => fresh (eq ▸ mem_cons_self)
    have notIn : Object.symbol a ∉ db.objects := fun isIn => fresh (mem_cons_of_mem _ isIn)
    refine ⟨.symbol a, inv.alike _ _ (alike_of_not_mem notIn missing ?_), decide_eq_false ne⟩
    exact fun key _ => key.typep_symbol a serial
  · obtain ⟨a, fresh⟩ := exists_not_mem .keyword (fun _ _ eq => Object.keyword.inj eq)
      (.keyword serial :: db.objects)
    have ne : Object.keyword a ≠ .keyword serial := fun eq => fresh (eq ▸ mem_cons_self)
    have notIn : Object.keyword a ∉ db.objects := fun isIn => fresh (mem_cons_of_mem _ isIn)
    refine ⟨.keyword a, inv.alike _ _ (alike_of_not_mem notIn missing ?_), decide_eq_false ne⟩
    exact fun key _ => key.typep_keyword a serial

theorem simpleMemberType_keys (db : TypeState) (o : Object) :
    (db.simpleMemberType Key.typep o).2.keys = db.keys :=
  Database.keys_map _ (fun i => by split <;> rfl) _

theorem simpleMemberType_grows (o : Object) :
    Grows db (db.simpleMemberType Key.typep o).2 where
  keys := by rw [simpleMemberType_keys db]; exact fun _ h => h
  objects := fun _ h => mem_cons_of_mem o h

theorem simpleMemberType_inv (inv : Inv db n cell) {o : Object} (missing : o ∉ db.objects)
    (kind : ∃ serial, o = .symbol serial ∨ o = .keyword serial) :
    Inv (db.simpleMemberType Key.typep o).2 (n + 1)
      (splitCell n cell fun x => decide (x = o)) := by
  have within : ∀ x, decide (x = o) = true → cell x = cell o :=
    fun x eq => congrArg cell (of_decide_eq_true eq)
  have some : ∃ x, decide (x = o) = true := ⟨o, decide_eq_true rfl⟩
  have keys := simpleMemberType_keys db o
  refine inv.split within some (inv.exists_cell_eq missing kind) ?other rfl ?entry ?member
    (simpleMemberType_grows o) ?decided ?closed
  case other =>
    intro address
    obtain ⟨serial, rfl | rfl⟩ := kind <;> rfl
  case entry =>
    have entry := inv.entry_split within (fun i => i.1.typep o)
      fun i isIn => ((inv.entry i isIn).bit o).symm
    rw [← inv.highest] at entry
    exact entry
  case member =>
    intro i isIn
    cases mem_cons.mp isIn with
    | inl head =>
      rw [head]
      show Denotes _ _ db.highestTypeTag _
      rw [inv.highest]
      exact Denotes.two_pow
    | inr tail =>
      refine inv.member_split within some (fun o' isIn => ?_) i tail
      exact decide_eq_false fun eq => missing (eq ▸ isIn)
  case decided =>
    intro x y same
    exact decide_eq_decide.mpr (same.object o mem_cons_self)
  case closed =>
    exact {
      objects := by
        intro o' isIn
        cases mem_cons.mp isIn with
        | inl head => exact head ▸ kind
        | inr tail => exact inv.objects o' tail
      low := by rw [keys]; exact inv.low
      high := by rw [keys]; exact inv.high
      integer := by rw [keys]; exact inv.integer
      keyword := by rw [keys]; exact inv.keyword }

theorem pushType_keys (key : Key) (tag : Int) :
    (db.pushType Key.typep key tag).keys = key :: db.keys := rfl

theorem pushType_grows (key : Key) (tag : Int) : Grows db (db.pushType Key.typep key tag) where
  keys := fun _ h => mem_cons_of_mem key h
  objects := fun _ h => h

theorem Closed.name {db db' : TypeState} (closed : Closed db) {name : TypeName}
    (keys : db'.keys = .name name :: db.keys) (objects : db'.objects = db.objects)
    (integer : name = .integer → .ray none ∈ db.keys)
    (keyword : name = .keyword → .name .symbol ∈ db.keys) : Closed db' where
  objects := by rw [objects]; exact closed.objects
  low low high isIn := by
    rw [keys] at isIn ⊢
    cases mem_cons.mp isIn with
    | inl head => cases head
    | inr tail => exact mem_cons_of_mem _ (closed.low low high tail)
  high low high b isIn next := by
    rw [keys] at isIn ⊢
    cases mem_cons.mp isIn with
    | inl head => cases head
    | inr tail => exact mem_cons_of_mem _ (closed.high low high b tail next)
  integer isIn := by
    rw [keys] at isIn ⊢
    refine mem_cons_of_mem _ ?_
    cases mem_cons.mp isIn with
    | inl head => exact integer (Key.name.inj head).symm
    | inr tail => exact closed.integer tail
  keyword isIn := by
    rw [keys] at isIn ⊢
    refine mem_cons_of_mem _ ?_
    cases mem_cons.mp isIn with
    | inl head => exact keyword (Key.name.inj head).symm
    | inr tail => exact closed.keyword tail

/-- The objects of a name that are not registered. -/
def TypeName.rest (name : TypeName) (objects : List Object) (x : Object) : Bool :=
  name.typep x && !decide (x ∈ objects)

theorem TypeName.rest_iff (name : TypeName) (objects : List Object) (x : Object) :
    name.rest objects x = true ↔ name.typep x = true ∧ x ∉ objects := by
  rw [TypeName.rest, Bool.and_eq_true, Bool.not_eq_true', decide_eq_false_iff_not]

/-- A new tag for a name whose objects that are not registered are a part of a cell. -/
theorem Inv.push_name {c : Nat} (inv : Inv db n cell) (db' : TypeState) (name : TypeName)
    (within : ∀ x, name.rest db.objects x = true → cell x = c)
    (some : ∃ x, name.rest db.objects x = true)
    (rest : ∃ x, cell x = c ∧ name.rest db.objects x = false)
    (highest : db'.highestTypeTag = 2 * db.highestTypeTag)
    (members : db'.memberTypes = db.memberTypes) (keys : db'.keys = db.keys)
    (entry : ∀ i ∈ db'.elementaryTypes,
      Denotes (n + 1) (splitCell n cell (name.rest db.objects)) i.2 fun x => i.1.typep x)
    (integer : name = .integer → .ray none ∈ db.keys)
    (keyword : name = .keyword → .name .symbol ∈ db.keys) :
    Inv (db'.pushType Key.typep (.name name) db.highestTypeTag) (n + 1)
      (splitCell n cell (name.rest db.objects)) := by
  have objects : db'.objects = db.objects := congrArg (List.map Prod.fst) members
  have own : Denotes (n + 1) (splitCell n cell (name.rest db.objects)) db.highestTypeTag
      (name.rest db.objects) := by
    rw [inv.highest]
    exact Denotes.two_pow
  refine inv.push_new db' (.name name) within some rest ?fresh ?other highest members keys entry
    own (fun x isRest => ((name.rest_iff _ x).mp isRest).1)
    (fun x isIn notIn => (name.rest_iff _ x).mpr ⟨isIn, notIn⟩) ?decided
    (inv.toClosed.name (congrArg _ keys) objects integer keyword)
  case fresh =>
    intro o isIn
    rw [Bool.eq_false_iff]
    exact fun isRest => ((name.rest_iff _ o).mp isRest).2 isIn
  case other =>
    intro address
    rw [TypeName.rest, show name.typep (.other address) = false from
      Key.typep_other (.name name) address, Bool.false_and]
  case decided =>
    intro x y same key
    have object : x ∈ db.objects ↔ y ∈ db.objects := by
      constructor
      · exact fun isIn => ((same.object x isIn).mp rfl) ▸ isIn
      · exact fun isIn => ((same.object y isIn).mpr rfl) ▸ isIn
    have name : name.typep x = name.typep y := key
    rw [TypeName.rest, TypeName.rest, name, decide_eq_decide.mpr object]

theorem Key.typep_of_name (name : TypeName) {key : Key} {x : Object} (isIn : name.typep x = true)
    (notInteger : name ≠ .integer) (notKeyword : name ≠ .keyword) (belongs : key.typep x = true) :
    key = .name name ∨ name = .symbol ∧ key = .name .keyword := by
  cases key with
  | name other => cases x <;> cases name <;> cases other <;> simp_all [TypeName.typep, Key.typep]
  | ray b =>
      cases b <;> cases x <;> cases name <;> simp_all [TypeName.typep, Key.typep, Interval.typep]
  | between low high =>
      cases x <;> cases name <;> simp_all [TypeName.typep, Key.typep, Interval.typep]

theorem TypeName.exists_rest {objects : List Object}
    (closed : ∀ o ∈ objects, ∃ serial, o = .symbol serial ∨ o = .keyword serial)
    (name : TypeName) : ∃ x, name.rest objects x = true := by
  have apart : ∀ x, (∀ serial, x ≠ .symbol serial ∧ x ≠ .keyword serial) → x ∉ objects := by
    intro x ne isIn
    obtain ⟨serial, eq | eq⟩ := closed x isIn
    · exact (ne serial).1 eq
    · exact (ne serial).2 eq
  cases name with
  | integer =>
    exact ⟨.integer 0, (rest_iff _ _ _).mpr ⟨rfl, apart _ fun _ => ⟨nofun, nofun⟩⟩⟩
  | symbol =>
    obtain ⟨a, fresh⟩ := exists_not_mem .symbol (fun _ _ eq => Object.symbol.inj eq) objects
    exact ⟨.symbol a, (rest_iff _ _ _).mpr ⟨rfl, fresh⟩⟩
  | keyword =>
    obtain ⟨a, fresh⟩ := exists_not_mem .keyword (fun _ _ eq => Object.keyword.inj eq) objects
    exact ⟨.keyword a, (rest_iff _ _ _).mpr ⟨rfl, fresh⟩⟩
  | cons => exact ⟨.cons 0, (rest_iff _ _ _).mpr ⟨rfl, apart _ fun _ => ⟨nofun, nofun⟩⟩⟩
  | character => exact ⟨.character 0, (rest_iff _ _ _).mpr ⟨rfl, apart _ fun _ => ⟨nofun, nofun⟩⟩⟩

theorem registerBuiltIn_grows (name : TypeName) : Grows db (registerBuiltIn name db).2 where
  keys := fun _ h => mem_cons_of_mem _ h
  objects := fun _ h => h

/-- A name takes its objects from the cell of the objects of no type. The tag that is returned
is that of the objects that are not registered. -/
theorem registerBuiltIn_inv (inv : Inv db n cell) (name : TypeName)
    (notInteger : name ≠ .integer) (notKeyword : name ≠ .keyword) (missing : .name name ∉ db.keys) :
    Inv (registerBuiltIn name db).2 (n + 1) (splitCell n cell (name.rest db.objects)) ∧
      Denotes (n + 1) (splitCell n cell (name.rest db.objects)) (registerBuiltIn name db).1
        (name.rest db.objects) := by
  have within : ∀ x, name.rest db.objects x = true → cell x = n := by
    intro x isRest
    have ⟨isIn, notIn⟩ := (name.rest_iff _ x).mp isRest
    refine inv.cell_eq notIn fun key registered => Bool.eq_false_iff.mpr fun belongs => ?_
    cases Key.typep_of_name name isIn notInteger notKeyword belongs with
    | inl same => exact missing (same ▸ registered)
    | inr both => exact missing (both.1 ▸ inv.keyword (both.2 ▸ registered))
  constructor
  · refine inv.push_name db.newTypeTag.2 name within
      (TypeName.exists_rest inv.objects name) ⟨.other 0, inv.other 0, ?_⟩ rfl rfl rfl ?_
      (fun eq => absurd eq notInteger) (fun eq => absurd eq notKeyword)
    · rw [TypeName.rest, show name.typep (.other 0) = false from
        Key.typep_other (.name name) 0, Bool.false_and]
    · exact fun i isIn => (inv.entry i isIn).split within rfl fun _ _ => rfl
  · show Denotes _ _ db.highestTypeTag _
    rw [inv.highest]
    exact Denotes.two_pow

theorem Key.typep_symbol_iff {key : Key} {a : Nat} (belongs : key.typep (.symbol a) = true) :
    key = .name .symbol := by
  cases typep_of_name .symbol rfl nofun nofun belongs with
  | inl same => exact same
  | inr both =>
    rw [both.2] at belongs
    cases belongs

theorem Key.typep_keyword_eq {key : Key} (ne : key ≠ .name .keyword) (a b : Nat) :
    key.typep (.keyword a) = key.typep (.symbol b) := by
  cases key with
  | name n => cases n <;> first | rfl | exact absurd rfl ne
  | ray b => cases b <;> rfl
  | between low high => rfl

theorem TypeName.eq_keyword {x : Object} (isIn : TypeName.keyword.typep x = true) :
    ∃ a, x = .keyword a := by
  cases x with
  | keyword a => exact ⟨a, rfl⟩
  | _ => cases isIn

theorem extendTypeTag_keys (db : TypeState) (tag minimalSupertypeTag : Int) :
    (db.extendTypeTag tag minimalSupertypeTag).keys = db.keys :=
  Database.keys_map _ (fun i => by split <;> rfl) _

theorem extendTypeTag_inv (inv : Inv db n cell) (missing : .name .keyword ∉ db.keys)
    (symbol : .name .symbol ∈ db.keys) {strictSupertypeTag : Int} {p : Object → Bool}
    (denotes : Denotes n cell strictSupertypeTag p)
    (sub : ∀ x, p x = true → TypeName.symbol.typep x = true)
    (cover : ∀ x, TypeName.symbol.rest db.objects x = true → p x = true) :
    Inv ((db.newTypeTag.2.extendTypeTag db.highestTypeTag strictSupertypeTag).pushType Key.typep
      (.name .keyword) db.highestTypeTag) (n + 1)
      (splitCell n cell (TypeName.keyword.rest db.objects)) := by
  obtain ⟨a, fresh⟩ := exists_not_mem .symbol (fun _ _ eq => Object.symbol.inj eq) db.objects
  have within : ∀ x, TypeName.keyword.rest db.objects x = true → cell x = cell (.symbol a) := by
    intro x isRest
    have ⟨isIn, notIn⟩ := (TypeName.rest_iff _ _ x).mp isRest
    obtain ⟨b, rfl⟩ := TypeName.eq_keyword isIn
    refine inv.alike _ _ (alike_of_not_mem notIn fresh fun key registered => ?_)
    exact Key.typep_keyword_eq (fun eq => missing (eq ▸ registered)) b a
  have exact : ∀ i ∈ db.elementaryTypes,
      decide (Int.ldiff strictSupertypeTag i.2 = 0) = i.2.testBit (cell (.symbol a)) := by
    intro i isIn
    rw [(inv.entry i isIn).bit, Bool.eq_iff_iff, decide_eq_true_eq,
      denotes.ldiff_eq_zero_iff inv.cells (inv.entry i isIn)]
    constructor
    · exact fun included =>
        included _ (cover _ ((TypeName.rest_iff _ _ _).mpr ⟨rfl, fresh⟩))
    · intro belongs x isP
      rw [Key.typep_symbol_iff belongs]
      exact sub x isP
  refine inv.push_name (db.newTypeTag.2.extendTypeTag db.highestTypeTag strictSupertypeTag)
    .keyword within (TypeName.exists_rest inv.objects .keyword) ⟨.symbol a, rfl, rfl⟩ rfl rfl
    (extendTypeTag_keys db.newTypeTag.2 _ _) ?_ nofun fun _ => symbol
  have entry := inv.entry_split within
    (fun i => decide (Int.ldiff strictSupertypeTag i.2 = 0)) exact
  simp only [decide_eq_true_eq, ← inv.highest] at entry
  exact entry

theorem findBuiltInTag_keyword_inv (inv : Inv db n cell) (missing : .name .keyword ∉ db.keys) :
    ∃ n' cell', Inv (findBuiltInTag .keyword db).2 n' cell' := by
  cases found : db.findRegisteredTag (.name .symbol) with
  | some tag =>
    simp only [findBuiltInTag, found]
    have isIn := Database.mem_of_lookup found
    refine ⟨_, _, extendTypeTag_inv inv missing (Database.mem_keys isIn) (inv.entry _ isIn)
      (fun _ isIn => isIn) fun x isRest => ?_⟩
    exact ((TypeName.rest_iff _ _ x).mp isRest).1
  | none =>
    simp only [findBuiltInTag, found]
    have ⟨after, denotes⟩ := registerBuiltIn_inv inv .symbol nofun nofun
      (Database.not_mem_of_lookup found)
    refine ⟨_, _, extendTypeTag_inv after ?_ mem_cons_self denotes
      (fun x isRest => ((TypeName.rest_iff _ _ x).mp isRest).1) fun _ isRest => isRest⟩
    intro isIn
    cases mem_cons.mp isIn with
    | inl head => cases head
    | inr tail => exact missing tail

theorem findBuiltInTag_keyword_grows : Grows db (findBuiltInTag .keyword db).2 := by
  have extended : ∀ (db : TypeState) (strictSupertypeTag : Int),
      Grows db ((db.newTypeTag.2.extendTypeTag db.highestTypeTag strictSupertypeTag).pushType
        Key.typep (.name .keyword) db.highestTypeTag) := by
    intro db strictSupertypeTag
    have keys := extendTypeTag_keys db.newTypeTag.2 db.highestTypeTag strictSupertypeTag
    refine ⟨fun k isIn => ?_, fun _ h => h⟩
    rw [pushType_keys, keys]
    exact mem_cons_of_mem _ isIn
  cases found : db.findRegisteredTag (.name .symbol) with
  | some tag =>
    simp only [findBuiltInTag, found]
    exact extended db tag
  | none =>
    simp only [findBuiltInTag, found]
    exact (registerBuiltIn_grows .symbol).trans (extended _ _)

end Ecl.Types
