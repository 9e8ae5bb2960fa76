import Ecl.Types.FamilyOrder

/- What canonical-type registers for arrays and classes, and the tags of what is registered. -/
namespace Ecl.Types.Family

open Ecl.Lib List Prod Int

variable {Class : Type} [DecidableEq Class] {h : Hierarchy Class}

mutual

def Specifier.keys (h : Hierarchy Class) : Specifier Class → List (Key Class)
  | .array simple elementType dims =>
    match parseDimensions dims with
    | .error _ => []
    | .ok dims =>
      match elementType with
      | some elementType => [.array simple elementType dims]
      | none => upgradedArrayElementTypes.map fun elementType => .array simple elementType dims
  | .ofClass c => if c = h.t then [] else [.ofClass c]
  | .and types => keysAll h types
  | .or types => keysAll h types
  | .not type => type.keys h

def keysAll (h : Hierarchy Class) : List (Specifier Class) → List (Key Class)
  | [] => []
  | type :: types => type.keys h ++ keysAll h types

end

/-- The invariant of the database, with the types that are registered. -/
structure Registers (h : Hierarchy Class) (db : TypeState Class) (keys : List (Key Class)) :
    Prop where
  tags : ∃ n own, OrderTags (Key.le h) db n own
  mem : ∀ a, a ∈ db.keys ↔ a ∈ keys

theorem Registers.empty : Registers h .empty [] where
  tags := ⟨0, fun _ => 0, orderTags_empty _ _⟩
  mem _ := Iff.rfl

variable {db : TypeState Class}

theorem Registers.congr {keys keys' : List (Key Class)}
    (registers : Registers h db keys) (same : ∀ a, a ∈ keys ↔ a ∈ keys') :
    Registers h db keys' :=
  ⟨registers.tags, fun a => (registers.mem a).trans (same a)⟩

theorem registerArray_registers {keys : List (Key Class)}
    (registers : Registers h db keys) (simple : Bool) (dims : Option (List Dimension))
    (elementType : ElementType) :
    Registers h (registerArray h simple dims elementType db).2
      (.array simple elementType dims :: keys) := by
  obtain ⟨n, own, tags⟩ := registers.tags
  obtain ⟨n', own', after, mem⟩ := tags.registerType (Key.ordered h)
    (arrayFamily h simple elementType dims) (Key.typep h)
  exact ⟨⟨n', own', after⟩, fun a => (mem a).trans
    ((or_congr_right (registers.mem a)).trans mem_cons.symm)⟩

variable {simple : Bool} {dims : Option (List Dimension)}

theorem registerArrays_registers (elementTypes : List ElementType) {keys : List (Key Class)}
    (registers : Registers h db keys) :
    Registers h (registerArrays h simple dims elementTypes db).2
      (elementTypes.map (fun elementType => .array simple elementType dims) ++ keys) := by
  induction elementTypes generalizing db keys with
  | nil => exact registers
  | cons elementType elementTypes ih =>
    refine (ih (registerArray_registers registers simple dims elementType)).congr fun a => ?_
    simp only [map_cons, mem_append, mem_cons, cons_append]
    tauto

theorem registerClass_registers {keys : List (Key Class)}
    (registers : Registers h db keys) (c : Class) :
    Registers h (registerClass h c db).2 ((Specifier.ofClass c).keys h ++ keys) := by
  unfold registerClass Specifier.keys
  by_cases top : c = h.t
  · rw [if_pos top, if_pos top]
    exact registers
  · rw [if_neg top, if_neg top]
    obtain ⟨n, own, tags⟩ := registers.tags
    obtain ⟨n', own', after, mem⟩ := tags.registerType (Key.ordered h) (classFamily h c)
      (Key.typep h)
    exact ⟨⟨n', own', after⟩, fun a => (mem a).trans
      ((or_congr_right (registers.mem a)).trans mem_cons.symm)⟩

theorem registerArrayType_registers {db' : TypeState Class} {keys : List (Key Class)}
    (registers : Registers h db keys) {elementType : Option ElementType}
    {dims : Dimensions} {tag : Int}
    (returned : registerArrayType h simple elementType dims db = .ok (tag, db')) :
    Registers h db' ((Specifier.array simple elementType dims).keys h ++ keys) := by
  unfold registerArrayType at returned
  unfold Specifier.keys
  cases parsed : parseDimensions dims with
  | error e =>
    rw [parsed] at returned
    cases returned
  | ok dims =>
    rw [parsed] at returned
    cases elementType with
    | some elementType =>
      simp only [ok_bind, Except.ok.injEq] at returned
      rw [show db' = (registerArray h simple dims elementType db).2 from
        (congrArg snd returned).symm]
      exact registerArray_registers registers simple dims elementType
    | none =>
      simp only [ok_bind, Except.ok.injEq, mk.injEq] at returned
      rw [← returned.2]
      exact registerArrays_registers upgradedArrayElementTypes registers

mutual

theorem canonicalType_registers : ∀ (type : Specifier Class) {db db' : TypeState Class}
    {keys : List (Key Class)} {tag : Int}, Registers h db keys →
    canonicalType h type db = .ok (tag, db') → Registers h db' (type.keys h ++ keys)
  | .array _ _ _, _, _, _, _, registers, returned => registerArrayType_registers registers returned
  | .ofClass c, _, _, _, _, registers, returned => by
      rw [canonicalType] at returned
      obtain rfl := congrArg snd (Except.ok.inj returned)
      exact registerClass_registers registers c
  | .and types, _, _, _, _, registers, returned => by
      rw [canonicalType] at returned
      obtain ⟨⟨tags, db'⟩, first, rest⟩ := bind_eq_ok.mp returned
      cases rest
      exact canonicalTypes_registers types registers first
  | .or types, _, _, _, _, registers, returned => by
      rw [canonicalType] at returned
      obtain ⟨⟨tags, db'⟩, first, rest⟩ := bind_eq_ok.mp returned
      cases rest
      exact canonicalTypes_registers types registers first
  | .not type, _, _, _, _, registers, returned => by
      rw [canonicalType] at returned
      obtain ⟨⟨tag, db'⟩, first, rest⟩ := bind_eq_ok.mp returned
      cases rest
      exact canonicalType_registers type registers first

theorem canonicalTypes_registers : ∀ (types : List (Specifier Class)) {db db' : TypeState Class}
    {keys : List (Key Class)} {tags : List Int}, Registers h db keys →
    canonicalTypes h types db = .ok (tags, db') → Registers h db' (keysAll h types ++ keys)
  | [], _, _, _, _, registers, returned => by
      cases returned
      exact registers
  | type :: types, _, _, _, _, registers, returned => by
      rw [canonicalTypes] at returned
      obtain ⟨⟨tag, db1⟩, first, rest⟩ := bind_eq_ok.mp returned
      obtain ⟨⟨tags, db2⟩, second, rest⟩ := bind_eq_ok.mp rest
      cases rest
      have now := canonicalType_registers type registers first
      refine (canonicalTypes_registers types now second).congr fun a => ?_
      simp only [keysAll, mem_append]
      tauto

end

/-- The bit of a tag tells for each of the types whether the object belongs to it. -/
def Represents (h : Hierarchy Class) (db : TypeState Class) (object : Object Class) (j : Nat)
    (keys : List (Key Class)) : Prop :=
  ∀ i ∈ db.elementaryTypes, i.1 ∈ keys → i.2.testBit j = i.1.typep h object

theorem Represents.mono {object : Object Class} {j : Nat}
    {keys keys' : List (Key Class)} (represents : Represents h db object j keys)
    (sub : ∀ a ∈ keys', a ∈ keys) : Represents h db object j keys' :=
  fun i isIn mentioned => represents i isIn (sub i.1 mentioned)

theorem registerArray_registered {elementType : ElementType}
    (registered : .array simple elementType dims ∈ db.keys) :
    ∃ tag, registerArray h simple dims elementType db = (tag, db) ∧
      ∀ object j, Represents h db object j [.array simple elementType dims] →
        tag.testBit j = (Key.array simple elementType dims).typep h object := by
  obtain ⟨tag, eq, isIn⟩ := registerType_of_mem registered Key.arrayTypeP arrayTypeLe (Key.typep h)
  exact ⟨tag, eq, fun object j represents => represents _ isIn mem_cons_self⟩

theorem registerArrays_registered (elementTypes : List ElementType)
    (registered : ∀ elementType ∈ elementTypes, .array simple elementType dims ∈ db.keys) :
    ∃ tags, registerArrays h simple dims elementTypes db = (tags, db) ∧
      ∀ object j, Represents h db object j
          (elementTypes.map fun elementType => .array simple elementType dims) →
        (tags.foldr Int.lor 0).testBit j = elementTypes.any fun elementType =>
          (Key.array simple elementType dims).typep h object := by
  induction elementTypes with
  | nil => exact ⟨[], rfl, fun _ j _ => testBit_zero j⟩
  | cons elementType elementTypes ih =>
    obtain ⟨tag, eq, bit⟩ := registerArray_registered (h := h) (registered _ mem_cons_self)
    obtain ⟨tags, eqs, bits⟩ := ih fun e isIn => registered e (mem_cons_of_mem _ isIn)
    refine ⟨tag :: tags, ?_, fun object j represents => ?_⟩
    · rw [registerArrays, eq]
      dsimp only
      rw [eqs]
    · rw [foldr_cons, testBit_lor, any_cons,
        bit object j (represents.mono fun a isIn => ?_),
        bits object j (represents.mono fun a isIn => mem_cons_of_mem _ isIn)]
      rw [mem_singleton.mp isIn]
      exact mem_cons_self

theorem mem_upgradedArrayElementTypes (elementType : ElementType) :
    elementType ∈ upgradedArrayElementTypes := by
  cases elementType <;> decide

theorem matchPattern_replicate (array : List Nat) (n : Nat) :
    matchPattern array (List.replicate n .star) = decide (array.length = n) := by
  induction array generalizing n with
  | nil => cases n <;> rfl
  | cons d array ih =>
    cases n with
    | zero => rfl
    | succ n => simp [replicate_succ, matchPattern, ih]

theorem matchDimensions_parse {dims : Dimensions} {parsed : Option (List Dimension)}
    (returned : parseDimensions dims = .ok parsed) (array : List Nat) :
    matchDimensions array dims = true ↔ ∀ l, parsed = some l → matchPattern array l = true := by
  cases dims with
  | star =>
    cases returned
    simp [matchDimensions]
  | rank n =>
    rw [parseDimensions] at returned
    split at returned
    next inRange =>
      cases returned
      simp only [matchDimensions, Option.some.injEq, forall_eq', matchPattern_replicate,
        decide_eq_true_eq]
      omega
    next => cases returned
  | list pat =>
    rw [parseDimensions] at returned
    split at returned
    next =>
      cases returned
      simp [matchDimensions]
    next => cases returned

theorem typep_parse {dims : Dimensions} {parsed : Option (List Dimension)}
    (returned : parseDimensions dims = .ok parsed) (simple : Bool)
    (elementType : Option ElementType) (object : Object Class) :
    typep h object (.array simple elementType dims) = true ↔
      ∃ e, (elementType = none ∨ elementType = some e) ∧
        (Key.array simple e parsed).typep h object = true := by
  cases object with
  | standard c => cases parsed <;> simp [typep, Key.typep]
  | other => cases parsed <;> simp [typep, Key.typep]
  | array simple' e' dims' =>
    simp only [typep, Bool.and_eq_true, Bool.or_eq_true, Bool.not_eq_true', decide_eq_true_eq,
      matchDimensions_parse returned, Key.typep_array]
    constructor
    · rintro ⟨⟨general, element⟩, inside⟩
      exact ⟨e', element, general, rfl, inside⟩
    · rintro ⟨e, element, general, eq, inside⟩
      exact ⟨⟨general, eq ▸ element⟩, inside⟩

mutual

/-- A specifier for which all is registered leaves the database as it is, and its tag tells
whether an object belongs to it, where the tags of the types that it mentions do. -/
theorem canonicalType_registered : ∀ (type : Specifier Class) {db db' : TypeState Class}
    {tag : Int}, (∀ a ∈ type.keys h, a ∈ db.keys) → canonicalType h type db = .ok (tag, db') →
    db' = db ∧ ∀ object j, Represents h db object j (type.keys h) →
      tag.testBit j = typep h object type
  | .array simple elementType dims, db, db', tag, registered, returned => by
      rw [canonicalType, registerArrayType] at returned
      unfold Specifier.keys at registered ⊢
      cases parsed : parseDimensions dims with
      | error e =>
        rw [parsed] at returned
        cases returned
      | ok dims' =>
        rw [parsed] at returned registered
        cases elementType with
        | some elementType =>
          simp only [ok_bind] at returned
          obtain ⟨tag', eq, bit⟩ := registerArray_registered (h := h)
            (registered _ mem_cons_self)
          rw [eq] at returned
          cases returned
          refine ⟨rfl, fun object j represents => ?_⟩
          rw [bit object j represents, Bool.eq_iff_iff, typep_parse parsed]
          simp
        | none =>
          obtain ⟨tags, eq, bits⟩ := registerArrays_registered (h := h)
            upgradedArrayElementTypes fun e isIn => registered _ (mem_map_of_mem isIn)
          simp only [ok_bind, eq] at returned
          cases returned
          refine ⟨rfl, fun object j represents => ?_⟩
          rw [bits object j represents, Bool.eq_iff_iff, typep_parse parsed, any_eq_true]
          simp [mem_upgradedArrayElementTypes]
  | .ofClass c, db, db', tag, registered, returned => by
      rw [canonicalType, registerClass] at returned
      unfold Specifier.keys at registered ⊢
      by_cases top : c = h.t
      · rw [if_pos top] at returned
        cases returned
        refine ⟨rfl, fun object j _ => ?_⟩
        rw [testBit_neg_one, top]
        cases object with
        | standard c =>
          show true = subclassp h c h.t
          rw [subclassp, decide_eq_true (h.t_mem c), Bool.or_true]
        | array simple e dims => exact (decide_eq_true rfl).symm
        | other => exact (decide_eq_true rfl).symm
      · rw [if_neg top] at returned registered ⊢
        obtain ⟨tag', eq, isIn⟩ := registerType_of_mem (registered _ mem_cons_self)
          Key.instancep (classLe h) (Key.typep h)
        rw [eq] at returned
        cases returned
        exact ⟨rfl, fun object j represents => represents _ isIn mem_cons_self⟩
  | .and types, db, db', tag, registered, returned => by
      rw [canonicalType] at returned
      obtain ⟨⟨tags, db1⟩, first, rest⟩ := bind_eq_ok.mp returned
      cases rest
      have ⟨eq, bits⟩ := canonicalTypes_registered types registered first
      exact ⟨eq, fun object j represents => (bits object j represents).1⟩
  | .or types, db, db', tag, registered, returned => by
      rw [canonicalType] at returned
      obtain ⟨⟨tags, db1⟩, first, rest⟩ := bind_eq_ok.mp returned
      cases rest
      have ⟨eq, bits⟩ := canonicalTypes_registered types registered first
      exact ⟨eq, fun object j represents => (bits object j represents).2⟩
  | .not type, db, db', tag, registered, returned => by
      rw [canonicalType] at returned
      obtain ⟨⟨tag, db1⟩, first, rest⟩ := bind_eq_ok.mp returned
      cases rest
      have ⟨eq, bit⟩ := canonicalType_registered type registered first
      refine ⟨eq, fun object j represents => ?_⟩
      rw [testBit_lnot, bit object j represents, typep]

theorem canonicalTypes_registered : ∀ (types : List (Specifier Class)) {db db' : TypeState Class}
    {tags : List Int}, (∀ a ∈ keysAll h types, a ∈ db.keys) →
    canonicalTypes h types db = .ok (tags, db') →
    db' = db ∧ ∀ object j, Represents h db object j (keysAll h types) →
      (tags.foldr Int.land (-1)).testBit j = typepAll h object types ∧
        (tags.foldr Int.lor 0).testBit j = typepAny h object types
  | [], _, _, _, _, returned => by
      cases returned
      exact ⟨rfl, fun _ j _ => ⟨testBit_neg_one j, testBit_zero j⟩⟩
  | type :: types, db, _, _, registered, returned => by
      rw [canonicalTypes] at returned
      obtain ⟨⟨tag, db1⟩, first, rest⟩ := bind_eq_ok.mp returned
      obtain ⟨⟨tags, db2⟩, second, rest⟩ := bind_eq_ok.mp rest
      cases rest
      have ⟨eq, bit⟩ := canonicalType_registered type
        (fun a isIn => registered a (mem_append_left _ isIn)) first
      subst eq
      have ⟨eqs, bits⟩ := canonicalTypes_registered types
        (fun a isIn => registered a (mem_append_right _ isIn)) second
      refine ⟨eqs, fun object j represents => ?_⟩
      have now := bit object j (represents.mono fun a isIn => mem_append_left _ isIn)
      have later := bits object j (represents.mono fun a isIn => mem_append_right _ isIn)
      rw [foldr_cons, foldr_cons, testBit_land, testBit_lor, now, later.1,
        later.2, typepAll, typepAny]
      exact ⟨rfl, rfl⟩

end

end Ecl.Types.Family
