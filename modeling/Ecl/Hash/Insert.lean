import Ecl.Hash.Operations

namespace Ecl.Hash.Table

open Cycle List Option

variable {K V : Type}

variable {table : Table K V}

theorem freeLoop_walk {start free : Nat} (inside : start < table.size)
    (bound : free < table.size) (keyless : (table.data free).key = none) :
    ∀ (left steps : Nat), left + steps = table.size →
      (∀ earlier < steps, (table.data (walk table.size start earlier)).key ≠ none) →
      ∃ stop < table.size,
        table.freeLoop left (walk table.size start steps) = walk table.size start stop ∧
        (table.data (walk table.size start stop)).key = none ∧
        ∀ earlier < stop, (table.data (walk table.size start earlier)).key ≠ none := by
  intro left
  induction left with
  | zero =>
    intro steps total full
    have early := distance_lt inside bound
    exact absurd keyless (by
      simpa only [walk_distance inside bound] using
        full (distance table.size start free) (by omega))
  | succ left ih =>
    intro steps total full
    rw [freeLoop]
    cases slot : (table.data (walk table.size start steps)).key with
    | none => exact ⟨steps, by omega, rfl, slot, full⟩
    | some key =>
      rw [walk_succ]
      apply ih (steps + 1) (by omega)
      intro earlier before
      by_cases last : earlier = steps
      · rw [last, slot]
        exact some_ne_none key
      · exact full earlier (by omega)

/-- Where add_new_to_hash puts a key. -/
def place (table : Table K V) (key : K) : Nat :=
  table.freeLoop table.size (table.home key)

theorem place_spec (sound : table.Sound) (key : K) :
    table.place key < table.size ∧ (table.data (table.place key)).key = none ∧
      ∀ steps < distance table.size (table.home key) (table.place key),
        (table.data (walk table.size (table.home key) steps)).key ≠ none := by
  obtain ⟨free, bound, keyless⟩ := sound.exists_free
  have homeLt := sound.home_lt key
  obtain ⟨stop, before, here, empty, full⟩ :=
    freeLoop_walk homeLt bound keyless table.size 0 rfl (by omega)
  rw [walk_zero homeLt] at here
  rw [place, here]
  refine ⟨walk_lt sound.positive, empty, ?_⟩
  rw [distance_walk homeLt before]
  exact full

theorem addNew_data (table : Table K V) (key : K) (value : Option V) (j : Nat) :
    (table.addNew key value).data j =
      if j = table.place key then ⟨some key, value⟩ else table.data j :=
  store_data table (table.place key) j ⟨some key, value⟩

@[simp] theorem addNew_size (table : Table K V) (key : K) (value : Option V) :
    (table.addNew key value).size = table.size := rfl

@[simp] theorem addNew_entries (table : Table K V) (key : K) (value : Option V) :
    (table.addNew key value).entries = table.entries + 1 := rfl

variable {key : K}

theorem addNew_placed (sound : table.Sound) (absent : ∀ i, ¬ table.Stored key i)
    (value : Option V) :
    (table.addNew key value).Placed := by
  obtain ⟨inside, keyless, walked⟩ := place_spec sound key
  refine ⟨sound.lawful, sound.positive, ?_, ?_⟩
  · -- a second slot with the new key would already have stored it
    intro a b first second left right hfirst hsecond same
    rw [addNew_data] at hfirst hsecond
    split at hfirst <;> split at hsecond
    · rename_i here there
      rw [here, there]
    · have held : first = key := (some.inj hfirst).symm
      exact absurd ⟨right, second, hsecond, held ▸ same⟩ (absent b)
    · have held : second = key := (some.inj hsecond).symm
      exact absurd ⟨left, first, hfirst, sound.lawful.symm (held ▸ same)⟩ (absent a)
    · exact sound.unique left right hfirst hsecond same
  · intro j probe bound found steps before
    by_cases here : j = table.place key
    · rw [addNew_data, if_pos here] at found
      have held : probe = key := (some.inj found).symm
      subst held here
      left
      rw [addNew_data]
      split
      · exact some_ne_none probe
      · exact walked steps before
    · exact store_reach sound.placed (Or.inl (some_ne_none key)) bound here found steps
        before

theorem addNew_counted (sound : table.Sound) (key : K) (value : Option V) :
    (table.addNew key value).entries = (table.addNew key value).liveCount := by
  obtain ⟨inside, keyless, -⟩ := place_spec sound key
  have count := store_liveCount table (table.place key) ⟨some key, value⟩ inside
  simp only [keyless, isSome_none, isSome_some, Bool.toNat_true,
    Bool.toNat_false] at count
  rw [addNew_entries, sound.counted]
  change _ = (table.store (table.place key) ⟨some key, value⟩).liveCount
  omega

theorem addNew_sound (sound : table.Sound)
    (absent : ∀ i, ¬ table.Stored key i) (space : table.entries + 1 < table.size)
    (value : Option V) : (table.addNew key value).Sound := by
  have placed := addNew_placed sound absent value
  exact ⟨sound.lawful, placed.unique, placed.reach, addNew_counted sound key value, space⟩

theorem addNew_lookup (sound : table.Sound)
    (absent : ∀ i, ¬ table.Stored key i) (space : table.entries + 1 < table.size)
    (value : Option V) (probe : K) :
    (table.addNew key value).lookup probe =
      if table.test.same probe key then some value else table.lookup probe := by
  have after := addNew_sound sound absent space value
  obtain ⟨inside, keyless, _⟩ := place_spec sound key
  have here : (table.addNew key value).data (table.place key) = ⟨some key, value⟩ := by
    rw [addNew_data, if_pos rfl]
  by_cases equal : table.test.same probe key = true
  · rw [if_pos equal, lookup_eq_some after]
    exact ⟨table.place key, ⟨inside, key, by rw [here], equal⟩, by rw [here]⟩
  · rw [if_neg equal]
    exact lookup_outside sound after rfl rfl
      (fun j other => by rw [addNew_data, if_neg other]) (not_stored_of_keyless keyless)
      (not_stored_of_key after (by rw [here]) (sound.lawful.refl key) equal)

variable {size : Nat}

theorem emptied_sound (lawful : table.test.Lawful) (positive : 0 < size) :
    (table.emptied size).Sound := by
  refine ⟨lawful, ?_, ?_, ?_, positive⟩
  · intro i j a b _ _ found
    cases found
  · intro i key _ found
    cases found
  · change 0 = (List.range size).countP fun _ => false
    rw [countP_false, Function.const_apply]

theorem emptied_lookup (lawful : table.test.Lawful)
    (positive : 0 < size) (probe : K) : (table.emptied size).lookup probe = none :=
  (lookup_eq_none (emptied_sound lawful positive)).mpr fun _ => not_stored_of_keyless rfl

/-- One round of the copying loop of ecl_extend_hashtable. -/
def copyEntry (table fresh : Table K V) (i : Nat) : Table K V :=
  match (table.data i).key with
  | none => fresh
  | some key => fresh.addNew key (table.data i).value

/-- The new table after the first `n` slots were copied. -/
structure Copied (table : Table K V) (size n : Nat) (fresh : Table K V) : Prop where
  sound : fresh.Sound
  size_eq : fresh.size = size
  test_eq : fresh.test = table.test
  policy_eq : fresh.policy = table.policy
  count : fresh.entries = (List.range n).countP fun i => (table.data i).key.isSome
  agrees : ∀ probe value, fresh.lookup probe = some value ↔
    ∃ i < n, table.Stored probe i ∧ (table.data i).value = value

theorem Copied.step (sound : table.Sound) {n : Nat}
    {fresh : Table K V} (copied : Copied table size n fresh) (bound : n < table.size)
    (fits : table.entries < size) : Copied table size (n + 1) (table.copyEntry fresh n) := by
  have count : (List.range (n + 1)).countP (fun i => (table.data i).key.isSome) =
      (List.range n).countP (fun i => (table.data i).key.isSome) +
        (table.data n).key.isSome.toNat := by
    rw [range_succ, countP_append, countP_singleton]
    cases (table.data n).key <;> rfl
  cases slot : (table.data n).key with
  | none =>
    rw [slot] at count
    have same : table.copyEntry fresh n = fresh := by rw [copyEntry, slot]
    rw [same]
    refine ⟨copied.sound, copied.size_eq, copied.test_eq, copied.policy_eq, ?_, ?_⟩
    · rw [count, copied.count]
      rfl
    · intro probe value
      rw [copied.agrees]
      constructor
      · rintro ⟨i, before, stored⟩
        exact ⟨i, by omega, stored⟩
      · rintro ⟨i, before, stored, held⟩
        have other : i ≠ n := fun here => not_stored_of_keyless slot (here ▸ stored)
        exact ⟨i, by omega, stored, held⟩
  | some key =>
    rw [slot] at count
    have same : table.copyEntry fresh n = fresh.addNew key (table.data n).value := by
      rw [copyEntry, slot]
    have absent : ∀ i, ¬ fresh.Stored key i := by
      apply (lookup_eq_none copied.sound).mp
      cases found : fresh.lookup key with
      | none => rfl
      | some value =>
        obtain ⟨i, before, ⟨inside, hkey, present, match_⟩, _⟩ :=
          (copied.agrees key value).mp found
        have clash := sound.unique inside bound present slot (sound.lawful.symm match_)
        omega
    have space : fresh.entries + 1 < fresh.size := by
      -- the keys up to this one are keys of the old table
      have few : (List.range (n + 1)).countP (fun i => (table.data i).key.isSome) ≤
          table.liveCount := List.Sublist.countP_le (range_sublist.mpr (by omega))
      have all := sound.counted
      rw [count, isSome_some, Bool.toNat_true] at few
      rw [copied.count, copied.size_eq]
      omega
    rw [same]
    refine ⟨addNew_sound copied.sound absent space _, copied.size_eq, copied.test_eq,
      copied.policy_eq, ?_, ?_⟩
    · rw [addNew_entries, count, copied.count]
      rfl
    · intro probe value
      rw [addNew_lookup copied.sound absent space, copied.test_eq]
      by_cases equal : table.test.same probe key = true
      · rw [if_pos equal, some.injEq]
        constructor
        · intro held
          exact ⟨n, by omega, ⟨bound, key, slot, equal⟩, held⟩
        · rintro ⟨i, before, ⟨inside, hkey, present, match_⟩, held⟩
          have order := sound.lawful.trans (sound.lawful.symm match_) equal
          rw [← sound.unique inside bound present slot order]
          exact held
      · rw [if_neg equal, copied.agrees]
        constructor
        · rintro ⟨i, before, stored⟩
          exact ⟨i, by omega, stored⟩
        · rintro ⟨i, before, stored, held⟩
          have other : i ≠ n := fun here =>
            not_stored_of_key sound slot (sound.lawful.refl key) equal (here ▸ stored)
          exact ⟨i, by omega, stored, held⟩

theorem Copied.run (sound : table.Sound) (fits : table.entries < size) (n : Nat)
    (bound : n ≤ table.size) :
    Copied table size n ((List.range n).foldl table.copyEntry (table.emptied size)) := by
  induction n with
  | zero =>
    have positive : 0 < size := by omega
    refine ⟨emptied_sound sound.lawful positive, rfl, rfl, rfl, rfl, ?_⟩
    intro probe value
    rw [range_zero, foldl_nil, emptied_lookup sound.lawful positive]
    constructor
    · intro found
      cases found
    · rintro ⟨i, before, _⟩
      omega
  | succ n ih =>
    rw [range_succ, foldl_append, foldl_cons, foldl_nil]
    exact (ih (by omega)).step sound (by omega) fits

theorem extend_copied (sound : table.Sound) (fits : table.entries < table.policy.grow table.size) :
    Copied table (table.policy.grow table.size) table.size table.extend :=
  Copied.run sound fits table.size (Nat.le_refl _)

theorem extend_lookup (sound : table.Sound)
    (fits : table.entries < table.policy.grow table.size) (probe : K) :
    table.extend.lookup probe = table.lookup probe := by
  apply Option.ext
  intro value
  rw [(extend_copied sound fits).agrees, lookup_eq_some sound]
  constructor
  · rintro ⟨i, _, stored⟩
    exact ⟨i, stored⟩
  · rintro ⟨i, stored, held⟩
    exact ⟨i, stored.1, stored, held⟩

theorem sethash_spec (sound : table.Sound)
    (larger : table.size < table.policy.grow table.size) (key : K) (value : Option V) :
    (table.sethash key value).Sound ∧ (table.sethash key value).test = table.test ∧
      (table.sethash key value).policy = table.policy ∧
      table.size ≤ (table.sethash key value).size ∧
      ∀ probe, (table.sethash key value).lookup probe =
        if table.test.same probe key then some value else table.lookup probe := by
  obtain ⟨inside, ⟨_, hkey, present, same⟩ | ⟨keyless, absent⟩⟩ := searchHash_spec sound key
  · simp only [sethash, present]
    exact ⟨overwrite_sound sound inside present value, rfl, rfl, Nat.le_refl _,
      overwrite_lookup sound inside present same value⟩
  · simp only [sethash, keyless]
    split
    · have fits := Nat.lt_trans sound.room larger
      have copied := extend_copied sound fits
      have gone : ∀ i, ¬ table.extend.Stored key i := by
        apply (lookup_eq_none copied.sound).mp
        rw [extend_lookup sound fits]
        exact (lookup_eq_none sound).mpr absent
      have space : table.extend.entries + 1 < table.extend.size := by
        have count : table.extend.entries = table.liveCount := copied.count
        have room := sound.room
        rw [count, copied.size_eq, ← sound.counted]
        omega
      refine ⟨addNew_sound copied.sound gone space value, copied.test_eq, copied.policy_eq,
        ?_, ?_⟩
      · rw [addNew_size, copied.size_eq]
        omega
      · intro probe
        rw [addNew_lookup copied.sound gone space, copied.test_eq, extend_lookup sound fits]
    · rename_i sparse
      have space : table.entries + 1 < table.size := by
        by_contra full
        exact sparse (Or.inl (by omega))
      exact ⟨addNew_sound sound absent space value, rfl, rfl, Nat.le_refl _,
        addNew_lookup sound absent space value⟩

end Ecl.Hash.Table
