import Ecl.Types.Partition

/- The tags that register-type gives to types that are ordered: each type has a tag of its own,
and the tag of a type has those of all the types below it, in whatever order they come. -/
namespace Ecl.Types

open Ecl.Lib List Function Int Prod

variable {Object Key : Type}

/-- An order of the types, that says nothing across families. -/
structure Ordered (le : Key → Key → Bool) : Prop where
  refl : ∀ a, le a a = true
  trans : ∀ a b c, le a b = true → le b c = true → le a c = true
  antisymm : ∀ a b, le a b = true → le b a = true → a = b

/-- The family of a type, with the comparison of types of this family. -/
structure Family (le : Key → Key → Bool) (key : Key) (inOurFamily : Key → Bool)
    (familyLe : Key → Key → Bool) : Prop where
  own : inOurFamily key = true
  closed : ∀ a b, le a b = true → inOurFamily a = inOurFamily b
  below : ∀ a, familyLe key a = le key a
  above : ∀ a, familyLe a key = le a key

structure OrderTags (le : Key → Key → Bool) (db : Database Object Key) (n : Nat)
    (own : Key → Nat) : Prop where
  highest : db.highestTypeTag = 2 ^ n
  members : db.memberTypes = []
  own_lt : ∀ a ∈ db.keys, own a < n
  own_inj : ∀ a ∈ db.keys, ∀ b ∈ db.keys, own a = own b → a = b
  bit : ∀ i ∈ db.elementaryTypes, ∀ j,
    i.2.testBit j = true ↔ ∃ a ∈ db.keys, own a = j ∧ le a i.1 = true

theorem orderTags_empty (le : Key → Key → Bool) (own : Key → Nat) :
    OrderTags le (Database.empty : Database Object Key) 0 own where
  highest := rfl
  members := rfl
  own_lt _ isIn := nomatch isIn
  own_inj _ isIn := nomatch isIn
  bit _ isIn := nomatch isIn

theorem foldl_boundsRound_bits (key : Key) (inOurFamily : Key → Bool) (le : Key → Key → Bool)
    (l : List (Key × Int)) (b : Database.Bounds) (j : Nat) :
    let result := l.foldl (Database.boundsRound key inOurFamily le false) b
    (result.supertypeTag.testBit j = true ↔ b.supertypeTag.testBit j = true ∨
      ∃ i ∈ l, inOurFamily i.1 = true ∧ le key i.1 = true ∧ i.2.testBit j = true) ∧
    (result.subtypeTag.testBit j = true ↔ b.subtypeTag.testBit j = true ∨
      ∃ i ∈ l, inOurFamily i.1 = true ∧ le key i.1 = false ∧ le i.1 key = true ∧
        i.2.testBit j = true) ∧
    (result.disjointTag.testBit j = true ↔ b.disjointTag.testBit j = true ∨
      ∃ i ∈ l, inOurFamily i.1 = true ∧ le key i.1 = false ∧ le i.1 key = false ∧
        i.2.testBit j = true) := by
  induction l generalizing b with
  | nil => simp
  | cons i l ih =>
    have ⟨super, sub, disjoint⟩ := ih (Database.boundsRound key inOurFamily le false b i)
    simp only [foldl_cons, exists_mem_cons_iff]
    rw [super, sub, disjoint]
    unfold Database.boundsRound
    cases family : inOurFamily i.1 with
    | false => simp
    | true =>
      cases above : le key i.1 with
      | true => simp [testBit_lor, or_left_comm, or_assoc]
      | false =>
        cases below : le i.1 key <;> simp [testBit_lor, or_comm, or_left_comm, or_assoc]

section Registering

variable {le : Key → Key → Bool} {db : Database Object Key} {n : Nat} {own : Key → Nat}

variable {a : Key}

theorem Database.exists_entry (isIn : a ∈ db.keys) : ∃ i ∈ db.elementaryTypes, i.1 = a := by
  obtain ⟨i, isIn, eq⟩ := mem_map.mp isIn
  exact ⟨i, isIn, eq⟩

theorem OrderTags.last (tags : OrderTags le db n own) {i : Key × Int}
    (isIn : i ∈ db.elementaryTypes) : i.2.testBit n = false := by
  rw [Bool.eq_false_iff]
  intro bit
  obtain ⟨a, registered, eq, -⟩ := (tags.bit i isIn n).mp bit
  have := tags.own_lt a registered
  omega

theorem OrderTags.bit_own (tags : OrderTags le db n own) (registered : a ∈ db.keys)
    {i : Key × Int} (isIn : i ∈ db.elementaryTypes) : i.2.testBit (own a) = le a i.1 := by
  rw [Bool.eq_iff_iff, tags.bit i isIn]
  constructor
  · intro ⟨a', registered', eq, below⟩
    exact tags.own_inj a' registered' a registered eq ▸ below
  · exact fun below => ⟨a, registered, rfl, below⟩

theorem OrderTags.exists_bit (tags : OrderTags le db n own) (p : Key → Prop) (j : Nat) :
    (∃ i ∈ db.elementaryTypes, p i.1 ∧ i.2.testBit j = true) ↔
      ∃ b ∈ db.keys, p b ∧ ∃ a ∈ db.keys, own a = j ∧ le a b = true := by
  constructor
  · intro ⟨i, isIn, holds, bit⟩
    exact ⟨i.1, Database.mem_keys isIn, holds, (tags.bit i isIn j).mp bit⟩
  · intro ⟨b, registered, holds, bit⟩
    obtain ⟨i, isIn, rfl⟩ := Database.exists_entry registered
    exact ⟨i, isIn, holds, (tags.bit i isIn j).mpr bit⟩

theorem OrderTags.exists_bit_own (tags : OrderTags le db n own) (p : Key → Prop)
    (registered : a ∈ db.keys) :
    (∃ i ∈ db.elementaryTypes, p i.1 ∧ i.2.testBit (own a) = true) ↔
      ∃ b ∈ db.keys, p b ∧ le a b = true := by
  rw [tags.exists_bit]
  refine exists_congr fun b => and_congr_right fun _ => and_congr_right fun _ => ?_
  constructor
  · intro ⟨a', registered', eq, below⟩
    exact tags.own_inj a' registered' a registered eq ▸ below
  · exact fun below => ⟨a, registered, rfl, below⟩

variable {key : Key} {inOurFamily : Key → Bool} {familyLe : Key → Key → Bool}

/-- What find-type-bounds returns for a new type: the mask has the tags of the types below a
supertype, but not those below the new type or another type of the family. -/
theorem OrderTags.findTypeBounds (tags : OrderTags le db n own) (ordered : Ordered le)
    (missing : key ∉ db.keys) (family : Family le key inOurFamily familyLe) {tagSuper tagSub : Int}
    (bounds : db.findTypeBounds key inOurFamily familyLe false = (tagSuper, tagSub)) :
    (∀ j, tagSub.testBit j = true ↔ ∃ a ∈ db.keys, own a = j ∧ le a key = true) ∧
      ∀ a ∈ db.keys, (Int.ldiff tagSuper tagSub).testBit (own a) = true ↔
        (∃ b ∈ db.keys, le key b = true ∧ le a b = true) ∧
          ¬(∃ b ∈ db.keys, (inOurFamily b = true ∧ le key b = false ∧ le b key = false) ∧
            le a b = true) ∧ le a key = false := by
  have rounds := foldl_boundsRound_bits key inOurFamily familyLe db.elementaryTypes ⟨0, 0, 0⟩
  unfold Database.findTypeBounds at bounds
  dsimp only at bounds
  rw [if_neg Bool.false_ne_true] at bounds
  generalize db.elementaryTypes.foldl (Database.boundsRound key inOurFamily familyLe false)
    ⟨0, 0, 0⟩ = result at bounds rounds
  simp only [testBit_zero, Bool.false_eq_true, false_or, family.below, family.above] at rounds
  have sub : ∀ j, result.subtypeTag.testBit j = true ↔
      ∃ a ∈ db.keys, own a = j ∧ le a key = true := by
    intro j
    rw [(rounds j).2.1]
    constructor
    · intro ⟨i, isIn, _, _, below, bit⟩
      obtain ⟨a, registered, eq, le⟩ := (tags.bit i isIn j).mp bit
      exact ⟨a, registered, eq, ordered.trans _ _ _ le below⟩
    · intro ⟨a, registered, eq, below⟩
      obtain ⟨i, isIn, rfl⟩ := Database.exists_entry registered
      have notAbove : le key i.1 = false := by
        rw [Bool.eq_false_iff]
        exact fun above => missing (ordered.antisymm key i.1 above below ▸ registered)
      exact ⟨i, isIn, (family.closed i.1 key below).trans family.own, notAbove, below,
        (tags.bit i isIn j).mpr ⟨i.1, registered, eq, ordered.refl _⟩⟩
  have super : ∀ j, result.supertypeTag.testBit j = true ↔
      ∃ i ∈ db.elementaryTypes, le key i.1 = true ∧ i.2.testBit j = true := by
    intro j
    rw [(rounds j).1]
    refine exists_congr fun i => and_congr_right fun _ => and_iff_right_of_imp fun both => ?_
    exact (family.closed key i.1 both.1).symm.trans family.own
  have notAll : result.supertypeTag ≠ -1 := by
    intro all
    have bit := testBit_neg_one n
    rw [← all, super] at bit
    obtain ⟨k, isIn, -, bit⟩ := bit
    rw [tags.last isIn] at bit
    cases bit
  rw [if_neg notAll] at bounds
  rw [← (mk.inj bounds).1, ← (mk.inj bounds).2]
  refine ⟨sub, fun a registered => ?_⟩
  have disjoint := tags.exists_bit_own (fun b => inOurFamily b = true ∧ le key b = false ∧
    le b key = false) registered
  rw [← tags.exists_bit_own (fun b => le key b = true) registered, ← super, ← disjoint]
  have disjoint' := (rounds (own a)).2.2
  simp only [and_assoc] at disjoint' ⊢
  rw [← disjoint']
  have below : result.subtypeTag.testBit (own a) = true ↔ le a key = true := by
    rw [sub]
    constructor
    · intro ⟨a', registered', eq, below⟩
      exact tags.own_inj a' registered' a registered eq ▸ below
    · exact fun below => ⟨a, registered, rfl, below⟩
  rw [testBit_ldiff, testBit_ldiff, testBit_lor, Bool.eq_iff_iff.mpr below]
  simp only [Bool.and_eq_true, Bool.not_eq_true', Bool.or_eq_false_iff, Bool.not_eq_true]
  tauto

theorem OrderTags.meets_mask (tags : OrderTags le db n own) (ordered : Ordered le)
    (missing : key ∉ db.keys) (family : Family le key inOurFamily familyLe) {tagSuper tagSub : Int}
    (bounds : db.findTypeBounds key inOurFamily familyLe false = (tagSuper, tagSub))
    (i : Key × Int) (isIn : i ∈ db.elementaryTypes) :
    Int.land i.2 (Int.ldiff tagSuper tagSub) = 0 ↔ le key i.1 = false := by
  have ⟨_, mask⟩ := tags.findTypeBounds ordered missing family bounds
  have registered := Database.mem_keys isIn
  rw [Ecl.Lib.land_eq_zero_iff]
  constructor
  · intro none
    rw [Bool.eq_false_iff]
    intro above
    -- The tag of the supertype itself is in the mask.
    have bit := (tags.bit i isIn (own i.1)).mpr ⟨i.1, registered, rfl, ordered.refl _⟩
    refine Bool.eq_false_iff.mp (none _ bit) ((mask i.1 registered).mpr ⟨?_, ?_, ?_⟩)
    · exact ⟨i.1, registered, above, ordered.refl _⟩
    · intro ⟨b, _, ⟨_, notAbove, _⟩, le⟩
      rw [ordered.trans _ _ _ above le] at notAbove
      cases notAbove
    · rw [Bool.eq_false_iff]
      exact fun below => missing (ordered.antisymm key i.1 above below ▸ registered)
  · intro notAbove j bit
    obtain ⟨a, registered', rfl, le⟩ := (tags.bit i isIn j).mp bit
    rw [Bool.eq_false_iff, Ne, mask a registered']
    intro ⟨⟨b, _, above, le'⟩, notDisjoint, notBelow⟩
    have inFamily : inOurFamily i.1 = true := by
      rw [← family.closed a i.1 le, family.closed a b le', ← family.closed key b above, family.own]
    refine notDisjoint ⟨i.1, registered, ⟨inFamily, notAbove, ?_⟩, le⟩
    rw [Bool.eq_false_iff]
    intro below
    rw [ordered.trans _ _ _ le below] at notBelow
    cases notBelow

theorem exists_update [DecidableEq Key] {keys : List Key} (missing : key ∉ keys)
    (own : Key → Nat) (n j : Nat) (p : Key → Prop) :
    (∃ a ∈ key :: keys, update own key n a = j ∧ p a) ↔
      n = j ∧ p key ∨ ∃ a ∈ keys, own a = j ∧ p a := by
  rw [exists_mem_cons_iff, update_self]
  refine or_congr_right (exists_congr fun a => and_congr_right fun isIn => ?_)
  have ne : a ≠ key := fun eq => missing (eq ▸ isIn)
  rw [update_of_ne ne]

theorem OrderTags.registerNew (tags : OrderTags le db n own) (ordered : Ordered le)
    (missing : key ∉ db.keys) (family : Family le key inOurFamily familyLe) [DecidableEq Key]
    (typep : Object → Key → Bool) :
    OrderTags le (db.registerNew typep key inOurFamily familyLe false).2 (n + 1)
        (update own key n) ∧
      (db.registerNew typep key inOurFamily familyLe false).2.keys = key :: db.keys ∧
      (key, (db.registerNew typep key inOurFamily familyLe false).1) ∈
        (db.registerNew typep key inOurFamily familyLe false).2.elementaryTypes := by
  unfold Database.registerNew
  cases bounds : db.findTypeBounds key inOurFamily familyLe false with
  | mk tagSuper tagSub =>
  have ⟨sub, _⟩ := tags.findTypeBounds ordered missing family bounds
  have meets := tags.meets_mask ordered missing family bounds
  dsimp only
  generalize Int.ldiff tagSuper tagSub = mask at meets
  have keys : (db.newTypeTag.2.updateTypes mask db.highestTypeTag).keys = db.keys :=
    Database.updateTypes_keys db.newTypeTag.2 mask db.highestTypeTag
  have keys' : ((db.newTypeTag.2.updateTypes mask db.newTypeTag.1).pushType typep key
      (Int.lor db.newTypeTag.1 tagSub)).keys = key :: db.keys :=
    congrArg (key :: ·) keys
  -- No object is registered, so that the tag of the entry is the one that is returned.
  have entries : ((db.newTypeTag.2.updateTypes mask db.newTypeTag.1).pushType typep key
      (Int.lor db.newTypeTag.1 tagSub)).elementaryTypes =
      (key, Int.lor (2 ^ n) tagSub) :: db.elementaryTypes.map fun i =>
        if Int.land i.2 mask = 0 then i else (i.1, Int.lor (2 ^ n) i.2) := by
    rw [← tags.highest]
    show (key, db.memberTypes.foldl _ _) :: _ = _
    rw [tags.members]
    rfl
  refine ⟨⟨?highest, tags.members, ?own_lt, ?own_inj, ?bit⟩, keys', ?entry⟩
  case highest =>
    show 2 * db.highestTypeTag = 2 ^ (n + 1)
    rw [tags.highest, pow_succ, mul_comm]
  case own_lt =>
    intro a isIn
    rw [keys'] at isIn
    by_cases this : a = key
    · rw [this, update_self]
      omega
    · rw [update_of_ne this]
      have := tags.own_lt a ((mem_cons.mp isIn).resolve_left this)
      omega
  case own_inj =>
    have ne : ∀ a ∈ db.keys, a ≠ key := fun a isIn eq => missing (eq ▸ isIn)
    have distinct : ∀ a ∈ db.keys, update own key n a ≠ n := by
      intro a isIn eq
      rw [update_of_ne (ne a isIn)] at eq
      have := tags.own_lt a isIn
      omega
    intro a isIn b isIn' eq
    rw [keys', mem_cons] at isIn isIn'
    cases isIn with
    | inl head =>
      rw [head, update_self] at eq
      exact head.trans (isIn'.resolve_right fun tail => distinct b tail eq.symm).symm
    | inr tail =>
      cases isIn' with
      | inl head' =>
        rw [head', update_self] at eq
        exact absurd eq (distinct a tail)
      | inr tail' =>
        rw [update_of_ne (ne a tail), update_of_ne (ne b tail')] at eq
        exact tags.own_inj a tail b tail' eq
  case bit =>
    intro i isIn j
    rw [keys', exists_update missing]
    rw [entries] at isIn
    cases mem_cons.mp isIn with
    | inl head =>
      rw [head, testBit_lor, testBit_two_pow, Bool.or_eq_true, decide_eq_true_eq, sub,
        and_iff_left (ordered.refl key)]
    | inr tail =>
      obtain ⟨old, before, rfl⟩ := mem_map.mp tail
      split
      next apart =>
        rw [(meets old before).mp apart, tags.bit old before]
        simp only [Bool.false_eq_true, and_false, false_or]
      next met =>
        have above : le key old.1 = true :=
          Bool.of_not_eq_false fun no => met ((meets old before).mpr no)
        rw [testBit_lor, testBit_two_pow, Bool.or_eq_true, decide_eq_true_eq,
          tags.bit old before, and_iff_left above]
  case entry =>
    rw [entries, ← tags.highest]
    exact mem_cons_self

theorem OrderTags.registerType (tags : OrderTags le db n own) (ordered : Ordered le)
    (family : Family le key inOurFamily familyLe) [DecidableEq Key] (typep : Object → Key → Bool) :
    ∃ n' own', OrderTags le (db.registerType typep key inOurFamily familyLe).2 n' own' ∧
      ∀ a, a ∈ (db.registerType typep key inOurFamily familyLe).2.keys ↔ a = key ∨ a ∈ db.keys := by
  unfold Database.registerType
  cases found : db.findRegisteredTag key with
  | some tag =>
    refine ⟨n, own, tags, fun a => (or_iff_right_of_imp ?_).symm⟩
    exact fun eq => eq ▸ Database.mem_keys (Database.mem_of_lookup found)
  | none =>
    have ⟨after, keys, _⟩ := tags.registerNew ordered (Database.not_mem_of_lookup found) family
      typep
    exact ⟨n + 1, _, after, fun a => by rw [keys, mem_cons]⟩

theorem registerType_of_mem [DecidableEq Key] (isIn : key ∈ db.keys)
    (inOurFamily : Key → Bool) (familyLe : Key → Key → Bool) (typep : Object → Key → Bool) :
    ∃ tag, db.registerType typep key inOurFamily familyLe = (tag, db) ∧
      (key, tag) ∈ db.elementaryTypes := by
  obtain ⟨tag, found⟩ := Database.lookup_of_mem isIn
  refine ⟨tag, ?_, Database.mem_of_lookup found⟩
  rw [Database.registerType, Database.findRegisteredTag, found]

end Registering

end Ecl.Types
