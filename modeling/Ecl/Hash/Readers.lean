import Ecl.Hash.History

/- What the readers of a table tell about its history. -/
namespace Ecl.Hash

open Cycle List Option

variable {K V : Type}

namespace Table

/-- A deletion marker: no key, but a value. -/
def Deleted (table : Table K V) (i : Nat) : Prop :=
  (table.data i).key = none ∧ (table.data i).value ≠ none

/-- The search for a key meets a deletion marker before a slot that was never
used. -/
def Crosses (table : Table K V) (key : K) : Prop :=
  ∃ steps < table.size, table.Deleted (walk table.size (table.home key) steps) ∧
    ∀ earlier < steps, table.Used (walk table.size (table.home key) earlier)

variable {table : Table K V} {key : K}

theorem searchLoop_marked (sound : table.Sound)
    (absent : ∀ i, ¬ table.Stored key i) {j : Nat} (marked : j ≠ table.size) :
    ∀ (left steps : Nat),
      table.searchLoop key left (walk table.size (table.home key) steps) j = j := by
  intro left
  induction left with
  | zero => intro steps; rfl
  | succ left ih =>
    intro steps
    have next := ih (steps + 1)
    rw [← walk_succ] at next
    have here : walk table.size (table.home key) steps < table.size := walk_lt sound.positive
    rw [searchLoop]
    cases slot : (table.data (walk table.size (table.home key) steps)).key with
    | none =>
      simp only [if_neg marked]
      split
      · rfl
      · split
        · rename_i same
          exact same.symm
        · exact next
    | some other =>
      have differ : ¬ table.test.same key other = true :=
        fun same => absent _ ⟨here, other, slot, same⟩
      simp only [differ, Bool.false_eq_true, if_false]
      exact next

theorem searchLoop_value (sound : table.Sound) (absent : ∀ i, ¬ table.Stored key i) :
    ∀ (left steps : Nat), left + steps = table.size →
      (∀ earlier < steps, (table.data (walk table.size (table.home key) earlier)).key ≠ none) →
      ((table.data (table.searchLoop key left (walk table.size (table.home key) steps)
        table.size)).value = none ↔ ¬ table.Crosses key) := by
  have homeLt := sound.home_lt key
  intro left
  induction left with
  | zero =>
    intro steps total full
    obtain ⟨free, inside, keyless⟩ := sound.exists_free
    have early := distance_lt homeLt inside
    exact absurd keyless (by
      simpa only [walk_distance homeLt inside] using
        full (distance table.size (table.home key) free) (by omega))
  | succ left ih =>
    intro steps total full
    have next := ih (steps + 1) (by omega)
    rw [← walk_succ] at next
    have here : walk table.size (table.home key) steps < table.size := walk_lt sound.positive
    rw [searchLoop]
    cases slot : (table.data (walk table.size (table.home key) steps)).key with
    | none =>
      dsimp only
      cases value : (table.data (walk table.size (table.home key) steps)).value with
      | none =>
        simp only [isNone_none, if_true, value, true_iff]
        rintro ⟨stop, -, ⟨keyless, marker⟩, used⟩
        rcases Nat.lt_trichotomy stop steps with less | rfl | more
        · exact full stop less keyless
        · exact marker value
        · exact (used steps more).elim (fun live => live slot) fun valued => valued value
      | some mark =>
        have back := searchLoop_marked sound absent (Nat.ne_of_lt here) left (steps + 1)
        rw [← walk_succ] at back
        have crosses : table.Crosses key :=
          ⟨steps, by omega, ⟨slot, by rw [value]; exact some_ne_none mark⟩,
            fun earlier less => .inl (full earlier less)⟩
        simp only [isNone_some, Bool.false_eq_true, if_false, if_true, back, value,
          reduceCtorEq, false_iff, not_not]
        exact crosses
    | some other =>
      have differ : ¬ table.test.same key other = true :=
        fun same => absent _ ⟨here, other, slot, same⟩
      simp only [differ, Bool.false_eq_true, if_false]
      refine next fun earlier bound => ?_
      by_cases last : earlier = steps
      · rw [last, slot]
        exact some_ne_none other
      · exact full earlier (by omega)

theorem gethash_absent (sound : table.Sound)
    (absent : table.lookup key = none) : table.gethash key = none ↔ ¬ table.Crosses key := by
  have run := searchLoop_value sound ((lookup_eq_none sound).mp absent) table.size 0 (by omega)
    (by omega)
  rwa [walk_zero (sound.home_lt key)] at run

theorem gethash_present {value : Option V}
    (present : table.lookup key = some value) : table.gethash key = value := by
  cases slot : (table.data (table.searchHash key)).key with
  | none => simp [lookup, slot] at present
  | some hkey =>
    simp only [lookup, slot, some.injEq] at present
    exact present

variable {other : Table K V}

theorem liveCount_le (sound : table.Sound) (sound' : other.Sound) (test : other.test = table.test)
    (keys : ∀ key, table.lookup key ≠ none → other.lookup key ≠ none) :
    table.liveCount ≤ other.liveCount := by
  have live : ∀ i ∈ (List.range table.size).filter fun i => (table.data i).key.isSome,
      ∃ key, i < table.size ∧ (table.data i).key = some key ∧
        other.Stored key (other.searchHash key) := by
    intro i member
    obtain ⟨inRange, isSome⟩ := mem_filter.mp member
    obtain ⟨key, found⟩ := isSome_iff_exists.mp isSome
    have inside := mem_range.mp inRange
    have stored : table.Stored key i := ⟨inside, key, found, sound.lawful.refl key⟩
    have present : table.lookup key ≠ none := fun absent =>
      (lookup_eq_none sound).mp absent i stored
    refine ⟨key, inside, found, (searchHash_spec sound' key).2.resolve_right fun absent => ?_⟩
    exact keys key present ((lookup_eq_none sound').mpr absent.2)
  -- the slot of the other table that holds the key of a slot
  let target : Nat → Nat := fun i => ((table.data i).key.map other.searchHash).getD 0
  have image : ∀ i key, (table.data i).key = some key → target i = other.searchHash key := by
    intro i key found
    simp only [target, found, map_some, getD_some]
  have nodup : (((List.range table.size).filter fun i =>
      (table.data i).key.isSome).map target).Nodup := by
    refine List.Nodup.map_on ?_ (nodup_range.filter _)
    intro i memberI j memberJ same
    obtain ⟨a, insideI, foundA, -, storedA, slotA, sameA⟩ := live i memberI
    obtain ⟨b, insideJ, foundB, -, storedB, slotB, sameB⟩ := live j memberJ
    rw [image i a foundA, image j b foundB] at same
    rw [same, slotB] at slotA
    cases slotA
    rw [test] at sameA sameB
    exact sound.unique insideI insideJ foundA foundB
      (sound.lawful.trans sameA (sound.lawful.symm sameB))
  have subset : ((List.range table.size).filter fun i => (table.data i).key.isSome).map target ⊆
      (List.range other.size).filter fun i => (other.data i).key.isSome := by
    intro slot member
    obtain ⟨i, memberI, rfl⟩ := mem_map.mp member
    obtain ⟨key, -, found, inside, hkey, slot, -⟩ := live i memberI
    rw [image i key found]
    exact mem_filter.mpr ⟨mem_range.mpr inside, by rw [slot]; rfl⟩
  have length := (nodup.subperm subset).length_le
  rw [length_map] at length
  rw [liveCount, liveCount, countP_eq_length_filter, countP_eq_length_filter]
  exact length

theorem count_congr (sound : table.Sound) (sound' : other.Sound)
    (test : other.test = table.test) (same : ∀ key, table.lookup key = other.lookup key) :
    table.count = other.count := by
  have le := liveCount_le sound sound' test fun key present => by rwa [← same]
  have ge := liveCount_le sound' sound test.symm fun key present => by rwa [same]
  rw [count, count, sound.counted, sound'.counted]
  omega

/-- Every reader returns the same on both tables, and OBJNULL or absence for a
key that is not there. -/
structure ReadersAgree (table other : Table K V) : Prop where
  gethash : ∀ key, table.gethash key = other.gethash key
  gethashSafe : ∀ key default, table.gethashSafe key default = other.gethashSafe key default
  clGethash : ∀ key noValue, table.clGethash key noValue = other.clGethash key noValue
  count : table.count = other.count
  absent : ∀ key, table.lookup key = none → table.gethash key = none ∧ other.gethash key = none

theorem readersAgree_iff (sound : table.Sound) (sound' : other.Sound)
    (test : other.test = table.test) (same : ∀ key, table.lookup key = other.lookup key) :
    table.ReadersAgree other ↔
      ∀ key, table.lookup key = none → ¬ table.Crosses key ∧ ¬ other.Crosses key := by
  constructor
  · intro agree key absent
    have absent' : other.lookup key = none := by rw [← same, absent]
    obtain ⟨none, none'⟩ := agree.absent key absent
    exact ⟨(gethash_absent sound absent).mp none, (gethash_absent sound' absent').mp none'⟩
  · intro clear
    have absent : ∀ key, table.lookup key = none →
        table.gethash key = none ∧ other.gethash key = none := by
      intro key absent
      have absent' : other.lookup key = none := by rw [← same, absent]
      exact ⟨(gethash_absent sound absent).mpr (clear key absent).1,
        (gethash_absent sound' absent').mpr (clear key absent).2⟩
    refine ⟨fun key => ?_, fun key default => ?_, fun key noValue => ?_,
      count_congr sound sound' test same, absent⟩
    · cases found : table.lookup key with
      | none =>
        obtain ⟨none, none'⟩ := absent key found
        rw [none, none']
      | some value =>
        have found' : other.lookup key = some value := by rw [← same, found]
        rw [gethash_present found, gethash_present found']
    · rw [gethashSafe_eq, gethashSafe_eq, same]
    · rw [clGethash_eq, clGethash_eq, same]

end Table

end Ecl.Hash
