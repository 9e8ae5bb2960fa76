import Ecl.Hash.Table

namespace Ecl.Hash.Table

open Cycle Option

variable {K V : Type}

/-- The slot was used at some time since the table was cleared. -/
def Used (table : Table K V) (i : Nat) : Prop :=
  (table.data i).key ≠ none ∨ (table.data i).value ≠ none

/-- Slot `i` holds a key that the test identifies with `key`. -/
def Stored (table : Table K V) (key : K) (i : Nat) : Prop :=
  i < table.size ∧ ∃ hkey, (table.data i).key = some hkey ∧ table.test.same key hkey = true

def home (table : Table K V) (key : K) : Nat := table.test.hash key % table.size

/-- Stored keys are found: no slot between the home of a key and its place is
blank, and no key is stored twice. The table may be full. -/
structure Placed (table : Table K V) : Prop where
  lawful : table.test.Lawful
  positive : 0 < table.size
  unique : ∀ {i j : Nat} {a b : K}, i < table.size → j < table.size →
    (table.data i).key = some a → (table.data j).key = some b →
    table.test.same a b = true → i = j
  reach : ∀ {i : Nat} {key : K}, i < table.size → (table.data i).key = some key →
    ∀ steps, steps < distance table.size (table.home key) i →
      table.Used (walk table.size (table.home key) steps)

/-- Every search finds what was stored: no slot between the home of a key and
its place is blank, no key is stored twice, and a slot is always free. -/
structure Sound (table : Table K V) : Prop where
  lawful : table.test.Lawful
  unique : ∀ {i j : Nat} {a b : K}, i < table.size → j < table.size →
    (table.data i).key = some a → (table.data j).key = some b →
    table.test.same a b = true → i = j
  reach : ∀ {i : Nat} {key : K}, i < table.size → (table.data i).key = some key →
    ∀ steps, steps < distance table.size (table.home key) i →
      table.Used (walk table.size (table.home key) steps)
  counted : table.entries = table.liveCount
  room : table.entries < table.size

variable {table : Table K V}

theorem exists_free_of_room (counted : table.entries = table.liveCount)
    (room : table.entries < table.size) : ∃ i, i < table.size ∧ (table.data i).key = none := by
  by_contra none
  have full : table.liveCount = table.size := by
    rw [liveCount, List.countP_eq_length.mpr, List.length_range]
    intro i inside
    have bound : i < table.size := List.mem_range.mp inside
    cases found : (table.data i).key with
    | none => exact absurd ⟨i, bound, found⟩ none
    | some key => rfl
  rw [counted, full] at room
  exact Nat.lt_irrefl _ room

variable {key : K}

theorem not_full (homeLt : table.home key < table.size)
    (free : ∃ i, i < table.size ∧ (table.data i).key = none) :
    ¬ ∀ steps < table.size, (table.data (walk table.size (table.home key) steps)).key ≠ none := by
  intro full
  obtain ⟨free, inside, keyless⟩ := free
  have late := full (distance table.size (table.home key) free) (distance_lt homeLt inside)
  rw [walk_distance homeLt inside] at late
  exact late keyless

namespace Placed

variable {table : Table K V}

theorem home_lt (placed : table.Placed) (key : K) : table.home key < table.size :=
  Nat.mod_lt _ placed.positive

theorem home_eq (placed : table.Placed) {a b : K} (same : table.test.same a b = true) :
    table.home a = table.home b := by
  rw [home, home, placed.lawful.hash_eq same]

end Placed

namespace Sound

variable {table : Table K V}

theorem positive (sound : table.Sound) : 0 < table.size :=
  Nat.lt_of_le_of_lt (Nat.zero_le _) sound.room

theorem placed (sound : table.Sound) : table.Placed :=
  ⟨sound.lawful, sound.positive, sound.unique, sound.reach⟩

theorem home_lt (sound : table.Sound) (key : K) : table.home key < table.size :=
  sound.placed.home_lt key

theorem exists_free (sound : table.Sound) : ∃ i, i < table.size ∧ (table.data i).key = none :=
  exists_free_of_room sound.counted sound.room

end Sound

/-- The search walks over used slots up to the stored key. The first deleted
slot it remembers is behind it, so it never meets that slot again. -/
theorem searchLoop_stored (placed : table.Placed) {target : Nat}
    (stored : table.Stored key target) :
    ∀ (left steps j : Nat),
      left + steps = distance table.size (table.home key) target →
      (j = table.size ∨ ∃ earlier < steps, j = walk table.size (table.home key) earlier) →
      table.searchLoop key (table.size - steps) (walk table.size (table.home key) steps) j =
        target := by
  obtain ⟨inside, hkey, present, same⟩ := stored
  have homeLt := placed.home_lt key
  have far := distance_lt homeLt inside
  intro left
  induction left with
  | zero =>
    intro steps j total _
    have here : walk table.size (table.home key) steps = target := by
      rw [show steps = distance table.size (table.home key) target by omega]
      exact walk_distance homeLt inside
    obtain ⟨k, fuel⟩ : ∃ k, table.size - steps = k + 1 := ⟨table.size - steps - 1, by omega⟩
    rw [fuel, here, searchLoop]
    simp only [present, same, ↓reduceIte]
  | succ left ih =>
    intro steps j total behind
    obtain ⟨k, fuel⟩ : ∃ k, table.size - steps = k + 1 := ⟨table.size - steps - 1, by omega⟩
    have next := fun j => ih (steps + 1) j (by omega)
    rw [show table.size - (steps + 1) = k by omega, ← walk_succ] at next
    have later : ∀ {m}, (∃ earlier < steps, m = walk table.size (table.home key) earlier) →
        ∃ earlier < steps + 1, m = walk table.size (table.home key) earlier :=
      fun ⟨earlier, before, eq⟩ => ⟨earlier, by omega, eq⟩
    have used : table.Used (walk table.size (table.home key) steps) := by
      have := placed.reach inside present steps
      rw [← placed.home_eq same] at this
      exact this (by omega)
    have fresh : j ≠ table.size → j ≠ walk table.size (table.home key) steps := by
      intro notSize meet
      obtain rfl | ⟨earlier, before, rfl⟩ := behind
      · exact notSize rfl
      · have := walk_injective homeLt (by omega) (by omega) meet
        omega
    rw [fuel, searchLoop]
    cases slot : (table.data (walk table.size (table.home key) steps)).key with
    | none =>
      have valued : (table.data (walk table.size (table.home key) steps)).value.isNone =
          false := by
        rcases used with live | valued
        · exact absurd slot live
        · exact isNone_eq_false_iff.mpr (ne_none_iff_isSome.mp valued)
      simp only [valued, Bool.false_eq_true, ↓reduceIte]
      by_cases unset : j = table.size
      · rw [if_pos unset]
        exact next _ (Or.inr ⟨steps, by omega, rfl⟩)
      · rw [if_neg unset, if_neg (fresh unset)]
        exact next _ (behind.imp_right later)
    | some other =>
      by_cases equal : table.test.same key other = true
      · have order := placed.lawful.trans (placed.lawful.symm equal) same
        have clash := placed.unique (walk_lt placed.positive) inside slot present order
        have steps_eq : steps = distance table.size (table.home key) target := by
          rw [← clash, distance_walk homeLt (by omega)]
        omega
      · simp only [equal, Bool.false_eq_true, ↓reduceIte]
        exact next _ (behind.imp_right later)

theorem Placed.searchHash_eq (placed : table.Placed) {i : Nat}
    (stored : table.Stored key i) : table.searchHash key = i := by
  have run := searchLoop_stored placed stored (distance table.size (table.home key) i) 0
    table.size rfl (Or.inl rfl)
  rw [walk_zero (placed.home_lt key), Nat.sub_zero] at run
  exact run

theorem searchHash_stored (sound : table.Sound) {i : Nat}
    (stored : table.Stored key i) : table.searchHash key = i :=
  sound.placed.searchHash_eq stored

theorem searchLoop_absent (sound : table.Sound) (absent : ∀ i, ¬ table.Stored key i) :
    ∀ (left steps j : Nat), left + steps = table.size →
      ((j = table.size ∧ ∀ earlier < steps,
          (table.data (walk table.size (table.home key) earlier)).key ≠ none) ∨
        (j < table.size ∧ (table.data j).key = none)) →
      table.searchLoop key left (walk table.size (table.home key) steps) j < table.size ∧
        (table.data (table.searchLoop key left
          (walk table.size (table.home key) steps) j)).key = none := by
  have homeLt := sound.home_lt key
  intro left
  induction left with
  | zero =>
    intro steps j total mark
    rcases mark with ⟨_, full⟩ | found
    · rw [Nat.zero_add] at total
      exact absurd (total ▸ full) (not_full homeLt sound.exists_free)
    · rw [searchLoop]
      exact found
  | succ left ih =>
    intro steps j total mark
    have next := fun j => ih (steps + 1) j (by omega)
    rw [← walk_succ] at next
    have here : walk table.size (table.home key) steps < table.size := walk_lt sound.positive
    rw [searchLoop]
    cases slot : (table.data (walk table.size (table.home key) steps)).key with
    | none =>
      simp only
      by_cases blank : (table.data (walk table.size (table.home key) steps)).value.isNone
      · rw [if_pos blank]
        rcases mark with ⟨rfl, _⟩ | found
        · simp only [↓reduceIte]
          exact ⟨here, slot⟩
        · rw [if_neg (by omega)]
          exact found
      · rw [if_neg blank]
        rcases mark with ⟨rfl, _⟩ | found
        · simp only [↓reduceIte]
          exact next _ (Or.inr ⟨here, slot⟩)
        · rw [if_neg (by omega)]
          split
          · exact ⟨here, slot⟩
          · exact next _ (Or.inr found)
    | some other =>
      have differ : ¬ table.test.same key other = true :=
        fun same => absent _ ⟨here, other, slot, same⟩
      simp only [differ, Bool.false_eq_true, ↓reduceIte]
      apply next
      refine mark.imp_left fun ⟨unset, before⟩ => ⟨unset, ?_⟩
      intro earlier bound
      by_cases last : earlier = steps
      · rw [last, slot]
        exact some_ne_none other
      · exact before earlier (by omega)

theorem searchHash_absent (sound : table.Sound) (absent : ∀ i, ¬ table.Stored key i) :
    table.searchHash key < table.size ∧ (table.data (table.searchHash key)).key = none := by
  have run := searchLoop_absent sound absent table.size 0 table.size (by omega)
    (Or.inl ⟨rfl, by omega⟩)
  rw [walk_zero (sound.home_lt key)] at run
  exact run

/-- The slot a search returns is in bounds, and it holds the key exactly when
some slot does. -/
theorem searchHash_spec (sound : table.Sound) (key : K) : table.searchHash key < table.size ∧
      ((table.Stored key (table.searchHash key)) ∨
        ((table.data (table.searchHash key)).key = none ∧ ∀ i, ¬ table.Stored key i)) := by
  by_cases present : ∃ i, table.Stored key i
  · obtain ⟨i, stored⟩ := present
    rw [searchHash_stored sound stored]
    exact ⟨stored.1, Or.inl stored⟩
  · have absent : ∀ i, ¬ table.Stored key i := fun i stored => present ⟨i, stored⟩
    obtain ⟨inside, keyless⟩ := searchHash_absent sound absent
    exact ⟨inside, Or.inr ⟨keyless, absent⟩⟩


open Cycle List Option

variable {K V : Type}

variable {table : Table K V} {key : K}

theorem lookup_eq_some (sound : table.Sound) {value : Option V} : table.lookup key = some value ↔
      ∃ i, table.Stored key i ∧ (table.data i).value = value := by
  obtain ⟨_, found | ⟨keyless, absent⟩⟩ := searchHash_spec sound key
  · have slot := found
    obtain ⟨_, hkey, present, _⟩ := slot
    simp only [lookup, present, some.injEq]
    constructor
    · intro equal
      exact ⟨_, found, equal⟩
    · rintro ⟨i, stored, rfl⟩
      rw [searchHash_stored sound stored]
  · simp only [lookup, keyless, reduceCtorEq, false_iff, not_exists, not_and]
    exact fun i stored => absurd stored (absent i)

theorem lookup_eq_none (sound : table.Sound) :
    table.lookup key = none ↔ ∀ i, ¬ table.Stored key i := by
  constructor
  · intro none i stored
    have some := (lookup_eq_some sound).mpr ⟨i, stored, rfl⟩
    rw [none] at some
    cases some
  · intro absent
    rw [lookup, (searchHash_absent sound absent).2]

@[simp] theorem store_size (table : Table K V) (i : Nat) (entry : Entry K V) :
    (table.store i entry).size = table.size := rfl

@[simp] theorem store_test (table : Table K V) (i : Nat) (entry : Entry K V) :
    (table.store i entry).test = table.test := rfl

@[simp] theorem store_entries (table : Table K V) (i : Nat) (entry : Entry K V) :
    (table.store i entry).entries = table.entries := rfl

@[simp] theorem store_home (table : Table K V) (i : Nat) (entry : Entry K V) (key : K) :
    (table.store i entry).home key = table.home key := rfl

theorem store_data (table : Table K V) (i j : Nat) (entry : Entry K V) :
    (table.store i entry).data j = if j = i then entry else table.data j := rfl

theorem countP_range_change (before after : Nat → Bool) (i : Nat)
    (same : ∀ j, j ≠ i → after j = before j) (n : Nat) (inside : i < n) :
    (List.range n).countP after + (before i).toNat =
      (List.range n).countP before + (after i).toNat := by
  induction n with
  | zero => omega
  | succ n ih =>
    rw [range_succ, countP_append, countP_append]
    by_cases last : i = n
    · subst last
      have prior : (List.range i).countP after = (List.range i).countP before :=
        countP_congr fun j member => by
          rw [same j (Nat.ne_of_lt (mem_range.mp member))]
      rw [prior]
      simp only [countP_singleton]
      cases hbefore : before i <;> cases hafter : after i <;> simp
    · have earlier := ih (by omega)
      simp only [countP_singleton, same n (Ne.symm last)]
      omega

theorem store_liveCount (table : Table K V) (i : Nat) (entry : Entry K V)
    (inside : i < table.size) :
    (table.store i entry).liveCount + (table.data i).key.isSome.toNat =
      table.liveCount + entry.key.isSome.toNat := by
  have change := countP_range_change (fun j => (table.data j).key.isSome)
    (fun j => ((table.store i entry).data j).key.isSome) i
    (fun j other => by simp only [store_data, other, ↓reduceIte]) table.size inside
  simp only [store_data, ↓reduceIte] at change
  simp only [liveCount, store_size, store_data]
  exact change

variable {i : Nat}

theorem store_reach (placed : table.Placed) {entry : Entry K V}
    (used : entry.key ≠ none ∨ entry.value ≠ none) {j : Nat} (inside : j < table.size)
    (other : j ≠ i) (present : ((table.store i entry).data j).key = some key) (steps : Nat)
    (before : steps < distance table.size (table.home key) j) :
    (table.store i entry).Used (walk table.size (table.home key) steps) := by
  rw [store_data, if_neg other] at present
  have old := placed.reach inside present steps before
  unfold Used at old ⊢
  rw [store_data]
  split
  · exact used
  · exact old

variable {hkey : K}

theorem overwrite_placed (placed : table.Placed)
    (present : (table.data i).key = some hkey) (value : Option V) :
    (table.store i ⟨some hkey, value⟩).Placed := by
  have keys : ∀ j, ((table.store i ⟨some hkey, value⟩).data j).key = (table.data j).key := by
    intro j
    rw [store_data]
    split
    · rename_i here
      rw [here, present]
    · rfl
  refine ⟨placed.lawful, placed.positive, ?_, ?_⟩
  · intro a b first second left right hfirst hsecond same
    exact placed.unique left right (keys a ▸ hfirst) (keys b ▸ hsecond) same
  · intro j key bound found steps before
    rw [keys] at found
    have old := placed.reach bound found steps before
    unfold Used at old ⊢
    rw [keys]
    rcases old with live | valued
    · exact Or.inl live
    · by_cases here : walk table.size (table.home key) steps = i
      · left
        simp only [store_size, store_home, here, present]
        exact some_ne_none hkey
      · right
        simpa only [store_data, here, ↓reduceIte, store_size, store_home] using valued

theorem overwrite_liveCount (inside : i < table.size)
    (present : (table.data i).key = some hkey) (value : Option V) :
    (table.store i ⟨some hkey, value⟩).liveCount = table.liveCount := by
  have count := store_liveCount table i ⟨some hkey, value⟩ inside
  simp only [present, isSome_some] at count
  omega

theorem overwrite_sound (sound : table.Sound)
    (inside : i < table.size) (present : (table.data i).key = some hkey) (value : Option V) :
    (table.store i ⟨some hkey, value⟩).Sound := by
  have placed := overwrite_placed sound.placed present value
  refine ⟨sound.lawful, placed.unique, placed.reach, ?_, sound.room⟩
  rw [store_entries, sound.counted, overwrite_liveCount inside present]

variable {probe : K}

/-- Tables that agree outside one slot answer alike about keys that neither
stores there. -/
theorem lookup_outside {after : Table K V} (sound : table.Sound) (sound' : after.Sound)
    (size : after.size = table.size) (test : after.test = table.test)
    (data : ∀ j, j ≠ i → after.data j = table.data j)
    (old : ¬ table.Stored probe i) (new : ¬ after.Stored probe i) :
    after.lookup probe = table.lookup probe := by
  have stored : ∀ j, j ≠ i → (after.Stored probe j ↔ table.Stored probe j) := by
    intro j other
    rw [Stored, Stored, data j other, size, test]
  apply Option.ext
  intro value
  rw [lookup_eq_some sound, lookup_eq_some sound']
  constructor
  · rintro ⟨j, member, rfl⟩
    have other : j ≠ i := fun here => new (here ▸ member)
    exact ⟨j, (stored j other).mp member, by rw [data j other]⟩
  · rintro ⟨j, member, rfl⟩
    have other : j ≠ i := fun here => old (here ▸ member)
    exact ⟨j, (stored j other).mpr member, by rw [data j other]⟩

theorem not_stored_of_key (sound : table.Sound)
    (present : (table.data i).key = some hkey) (same : table.test.same key hkey = true)
    (differ : ¬ table.test.same probe key = true) : ¬ table.Stored probe i := by
  rintro ⟨_, found, slot, match_⟩
  rw [present, some.injEq] at slot
  rw [← slot] at match_
  exact differ (sound.lawful.trans match_ (sound.lawful.symm same))

theorem not_stored_of_keyless (keyless : (table.data i).key = none) : ¬ table.Stored probe i := by
  rintro ⟨_, found, slot, _⟩
  rw [keyless] at slot
  cases slot

theorem overwrite_lookup (sound : table.Sound)
    (inside : i < table.size) (present : (table.data i).key = some hkey)
    (same : table.test.same key hkey = true) (value : Option V) (probe : K) :
    (table.store i ⟨some hkey, value⟩).lookup probe =
      if table.test.same probe key then some value else table.lookup probe := by
  have after := overwrite_sound sound inside present value
  have here : ((table.store i ⟨some hkey, value⟩).data i) = ⟨some hkey, value⟩ := by
    rw [store_data, if_pos rfl]
  by_cases equal : table.test.same probe key = true
  · rw [if_pos equal, lookup_eq_some after]
    exact ⟨i, ⟨inside, hkey, by rw [here], sound.lawful.trans equal same⟩, by rw [here]⟩
  · rw [if_neg equal]
    exact lookup_outside sound after rfl rfl
      (fun j other => by rw [store_data, if_neg other])
      (not_stored_of_key sound present same equal)
      (not_stored_of_key after (by rw [here]) same equal)

theorem delete_placed (placed : table.Placed) (i : Nat) (mark : V) :
    (table.delete i mark).Placed := by
  have live : ∀ {j key}, ((table.delete i mark).data j).key = some key →
      j ≠ i ∧ (table.data j).key = some key := by
    intro j key found
    change ((table.store i ⟨none, some mark⟩).data j).key = some key at found
    rw [store_data] at found
    split at found
    · cases found
    · rename_i other
      exact ⟨other, found⟩
  refine ⟨placed.lawful, placed.positive, ?_, ?_⟩
  · intro a b first second left right hfirst hsecond same
    exact placed.unique left right (live hfirst).2 (live hsecond).2 same
  · intro j key bound found steps before
    exact store_reach placed (Or.inr (some_ne_none mark)) bound (live found).1
      found steps before

theorem delete_counted (counted : table.entries = table.liveCount)
    (inside : i < table.size) (present : (table.data i).key = some hkey) (mark : V) :
    (table.delete i mark).entries = table.entries - 1 ∧
      (table.delete i mark).entries = (table.delete i mark).liveCount := by
  have count := store_liveCount table i ⟨none, some mark⟩ inside
  simp only [present, isSome_some, isSome_none, Bool.toNat_true,
    Bool.toNat_false] at count
  have nonzero : table.entries ≠ 0 := by
    rw [counted]
    omega
  have entries : (table.delete i mark).entries = table.entries - 1 := if_neg nonzero
  refine ⟨entries, ?_⟩
  rw [entries, counted]
  change _ = (table.store i ⟨none, some mark⟩).liveCount
  omega

theorem delete_sound (sound : table.Sound)
    (inside : i < table.size) (present : (table.data i).key = some hkey) (mark : V) :
    (table.delete i mark).Sound := by
  have placed := delete_placed sound.placed i mark
  obtain ⟨entries, counted⟩ := delete_counted sound.counted inside present mark
  refine ⟨sound.lawful, placed.unique, placed.reach, counted, ?_⟩
  rw [entries]
  have room := sound.room
  change _ < table.size
  omega

theorem delete_lookup (sound : table.Sound)
    (inside : i < table.size) (present : (table.data i).key = some hkey)
    (same : table.test.same key hkey = true) (mark : V) (probe : K) :
    (table.delete i mark).lookup probe =
      if table.test.same probe key then none else table.lookup probe := by
  have after := delete_sound sound inside present mark
  have keyless : ((table.delete i mark).data i).key = none := by
    change ((table.store i ⟨none, some mark⟩).data i).key = none
    rw [store_data, if_pos rfl]
  have outside : ∀ j, j ≠ i → (table.delete i mark).data j = table.data j := by
    intro j other
    change (table.store i ⟨none, some mark⟩).data j = table.data j
    rw [store_data, if_neg other]
  by_cases equal : table.test.same probe key = true
  · rw [if_pos equal, lookup_eq_none after]
    rintro j ⟨bound, found, slot, match_⟩
    have other : j ≠ i := by
      rintro rfl
      exact not_stored_of_keyless keyless ⟨bound, found, slot, match_⟩
    rw [outside j other] at slot
    have order := sound.lawful.trans (sound.lawful.symm match_) (sound.lawful.trans equal same)
    exact other (sound.unique bound inside slot present order)
  · rw [if_neg equal]
    exact lookup_outside sound after rfl rfl outside
      (not_stored_of_key sound present same equal) (not_stored_of_keyless keyless)

end Ecl.Hash.Table
