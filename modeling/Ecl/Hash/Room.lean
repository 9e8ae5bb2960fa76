import Ecl.Hash.Insert

/- A slot without key is always left, whatever the test of the table does. -/
namespace Ecl.Hash

open Cycle List Option Nat

variable {K V : Type}

namespace Table

/-- The entries are counted, and they do not fill the table. -/
structure Roomy (table : Table K V) : Prop where
  counted : table.entries = table.liveCount
  room : table.entries < table.size

/-- The loop of add_new_to_hash, which has no bound of its own, comes to a slot
without key. -/
def Stops (table : Table K V) (key : K) : Prop :=
  ∃ steps, (table.data (walk table.size (table.home key) steps)).key = none

variable {table : Table K V}

theorem liveCount_congr {other : Table K V} (size : other.size = table.size)
    (keys : ∀ i, (other.data i).key.isSome = (table.data i).key.isSome) :
    other.liveCount = table.liveCount := by
  unfold liveCount
  rw [size]
  simp only [keys]

namespace Roomy

variable {table : Table K V}

theorem positive (roomy : table.Roomy) : 0 < table.size :=
  lt_of_le_of_lt (zero_le _) roomy.room

theorem home_lt (roomy : table.Roomy) (key : K) : table.home key < table.size :=
  mod_lt _ roomy.positive

theorem exists_free (roomy : table.Roomy) : ∃ i, i < table.size ∧ (table.data i).key = none :=
  exists_free_of_room roomy.counted roomy.room

theorem stops (roomy : table.Roomy) (key : K) : table.Stops key := by
  obtain ⟨free, bound, keyless⟩ := roomy.exists_free
  refine ⟨distance table.size (table.home key) free, ?_⟩
  rw [walk_distance (roomy.home_lt key) bound]
  exact keyless

theorem place_free (roomy : table.Roomy) (key : K) :
    table.place key < table.size ∧ (table.data (table.place key)).key = none := by
  obtain ⟨free, bound, keyless⟩ := roomy.exists_free
  have homeLt := roomy.home_lt key
  obtain ⟨stop, before, here, empty, -⟩ :=
    freeLoop_walk homeLt bound keyless table.size 0 rfl (by omega)
  rw [walk_zero homeLt] at here
  rw [place, here]
  exact ⟨walk_lt roomy.positive, empty⟩

end Roomy

/-- The loop of ecl_search_hash returns no slot beyond the table: a slot without
key stops it, or is remembered. -/
theorem searchLoop_lt (roomy : table.Roomy) (key : K) :
    ∀ (left steps j : Nat), left + steps = table.size →
      ((j = table.size ∧ ∀ earlier < steps,
          (table.data (walk table.size (table.home key) earlier)).key ≠ none) ∨
        j < table.size) →
      table.searchLoop key left (walk table.size (table.home key) steps) j < table.size := by
  have homeLt := roomy.home_lt key
  intro left
  induction left with
  | zero =>
    intro steps j total mark
    rcases mark with ⟨_, full⟩ | found
    · rw [zero_add] at total
      exact absurd (total ▸ full) (not_full homeLt roomy.exists_free)
    · rw [searchLoop]
      exact found
  | succ left ih =>
    intro steps j total mark
    have next := fun j => ih (steps + 1) j (by omega)
    rw [← walk_succ] at next
    have here : walk table.size (table.home key) steps < table.size := walk_lt roomy.positive
    rw [searchLoop]
    cases slot : (table.data (walk table.size (table.home key) steps)).key with
    | none =>
      dsimp only
      split
      · split
        · exact here
        · exact mark.resolve_left fun unset => absurd unset.1 ‹_›
      · split
        · exact next _ (.inr here)
        · split
          · exact here
          · exact next _ (.inr (mark.resolve_left fun unset => absurd unset.1 ‹_›))
    | some other =>
      dsimp only
      split
      · exact here
      · apply next
        refine mark.imp_left fun both => ⟨both.1, ?_⟩
        intro earlier bound
        by_cases last : earlier = steps
        · rw [last, slot]
          exact some_ne_none other
        · exact both.2 earlier (by omega)

theorem Roomy.searchHash_lt (roomy : table.Roomy) (key : K) :
    table.searchHash key < table.size := by
  have run := searchLoop_lt roomy key table.size 0 table.size (by omega) (.inl ⟨rfl, by omega⟩)
  rwa [walk_zero (roomy.home_lt key)] at run

theorem overwrite_roomy (roomy : table.Roomy) {i : Nat} {hkey : K}
    (present : (table.data i).key = some hkey) (value : Option V) :
    (table.store i ⟨some hkey, value⟩).Roomy := by
  have same : (table.store i ⟨some hkey, value⟩).liveCount = table.liveCount := by
    refine liveCount_congr rfl fun j => ?_
    rw [store_data]
    split
    · rename_i here
      rw [here, present]
    · rfl
  exact ⟨by rw [same]; exact roomy.counted, roomy.room⟩

theorem addNew_roomy (roomy : table.Roomy) (key : K) (value : Option V)
    (space : table.entries + 1 < table.size) : (table.addNew key value).Roomy := by
  obtain ⟨inside, keyless⟩ := roomy.place_free key
  have count := store_liveCount table (table.place key) ⟨some key, value⟩ inside
  simp only [keyless, isSome_none, isSome_some, Bool.toNat_true,
    Bool.toNat_false] at count
  have counted := roomy.counted
  refine ⟨?_, space⟩
  rw [addNew_entries]
  change _ = (table.store (table.place key) ⟨some key, value⟩).liveCount
  omega

theorem delete_roomy (roomy : table.Roomy) {i : Nat} {hkey : K}
    (inside : i < table.size) (present : (table.data i).key = some hkey) (mark : V) :
    (table.delete i mark).Roomy := by
  have count := store_liveCount table i ⟨none, some mark⟩ inside
  simp only [present, isSome_some, isSome_none, Bool.toNat_true,
    Bool.toNat_false] at count
  have counted := roomy.counted
  have room := roomy.room
  have entries : (table.delete i mark).entries = table.entries - 1 := by
    unfold delete
    dsimp only
    rw [if_neg (by omega)]
  have live : (table.delete i mark).liveCount = (table.store i ⟨none, some mark⟩).liveCount := rfl
  exact ⟨by omega, by rw [entries]; exact lt_of_le_of_lt (sub_le _ _) room⟩

theorem emptied_roomy (table : Table K V) {size : Nat} (positive : 0 < size) :
    (table.emptied size).Roomy := by
  refine ⟨?_, positive⟩
  change 0 = (List.range size).countP fun _ => false
  rw [countP_false, Function.const_apply]

/-- The new table after the first slots of the old one were copied. -/
def copied (table : Table K V) (n : Nat) : Table K V :=
  (List.range n).foldl table.copyEntry (table.emptied (table.policy.grow table.size))

theorem extend_eq_copied (table : Table K V) : table.extend = table.copied table.size := rfl

theorem copied_roomy (larger : table.size < table.policy.grow table.size) {n : Nat}
    (bound : n ≤ table.size) :
    (table.copied n).Roomy ∧ (table.copied n).size = table.policy.grow table.size ∧
      (table.copied n).entries = (List.range n).countP fun i => (table.data i).key.isSome := by
  induction n with
  | zero => exact ⟨emptied_roomy table (by omega), rfl, rfl⟩
  | succ n ih =>
    obtain ⟨roomy, size, entries⟩ := ih (by omega)
    have next : table.copied (n + 1) = table.copyEntry (table.copied n) n := by
      unfold copied
      rw [range_succ, foldl_append, foldl_cons, foldl_nil]
    have few : (List.range n).countP (fun i => (table.data i).key.isSome) ≤ n := by
      simpa only [length_range] using
        countP_le_length (p := fun i => (table.data i).key.isSome) (l := List.range n)
    rw [next, range_succ, countP_append, countP_singleton]
    unfold copyEntry
    cases (table.data n).key with
    | none => exact ⟨roomy, size, entries⟩
    | some key =>
      refine ⟨addNew_roomy roomy key _ (by omega), size, ?_⟩
      rw [addNew_entries, entries]
      rfl

theorem sethash_roomy (roomy : table.Roomy)
    (larger : table.size < table.policy.grow table.size) (key : K) (value : Option V) :
    (table.sethash key value).Roomy := by
  cases slot : (table.data (table.searchHash key)).key with
  | some old =>
    simp only [sethash, slot]
    exact overwrite_roomy roomy slot value
  | none =>
    simp only [sethash, slot]
    split
    · obtain ⟨extended, size, entries⟩ := copied_roomy larger (le_refl table.size)
      rw [extend_eq_copied]
      refine addNew_roomy extended key value ?_
      have counted : (table.copied table.size).entries = table.entries := by
        rw [entries, roomy.counted]
        rfl
      have room := roomy.room
      omega
    · rename_i sparse
      refine addNew_roomy roomy key value ?_
      by_contra full
      exact sparse (.inl (by omega))

theorem remhash_roomy (roomy : table.Roomy) (nil : V) (key : K) :
    (table.remhash nil key).Roomy := by
  unfold remhash
  cases slot : (table.data (table.searchHash key)).key with
  | none => exact roomy
  | some old => exact delete_roomy roomy (roomy.searchHash_lt key) slot nil

theorem clrhash_roomy (roomy : table.Roomy) : table.clrhash.Roomy := by
  unfold clrhash
  split
  · exact roomy
  · exact emptied_roomy table roomy.positive

@[simp] theorem remhash_policy (table : Table K V) (nil : V) (key : K) :
    (table.remhash nil key).policy = table.policy := by
  unfold remhash
  split <;> rfl

@[simp] theorem clrhash_policy (table : Table K V) : table.clrhash.policy = table.policy := by
  unfold clrhash
  split <;> rfl

theorem copied_policy (table : Table K V) (n : Nat) : (table.copied n).policy = table.policy := by
  induction n with
  | zero => rfl
  | succ n ih =>
    unfold copied at ih ⊢
    rw [range_succ, foldl_append, foldl_cons, foldl_nil]
    unfold copyEntry at ih ⊢
    cases (table.data n).key with
    | none => exact ih
    | some key => exact ih

@[simp] theorem sethash_policy (table : Table K V) (key : K) (value : Option V) :
    (table.sethash key value).policy = table.policy := by
  cases slot : (table.data (table.searchHash key)).key with
  | some old =>
    simp only [sethash, slot]
    rfl
  | none =>
    simp only [sethash, slot]
    split
    · exact copied_policy table table.size
    · rfl

end Table

/-- A table that MAKE-HASH-TABLE could have built, with room in it. -/
structure HashTable.Kept (hash : HashTable K V) : Prop where
  roomy : hash.table.Roomy
  policy : ∃ threshold, hash.table.policy = hash.rehash.policy threshold
  accepted : ∃ rehashSize : RehashSize, rehashSize.accept = some hash.rehash

variable {hash : HashTable K V}

theorem makeHashTable_eq_some {test : Test K} {size : Int} {rehashSize : RehashSize} {threshold : ℚ}
    (made : makeHashTable test size rehashSize threshold = some hash) :
    ∃ rehash, rehashSize.accept = some rehash ∧
      hash = ⟨⟨test, rehash.policy threshold, initialSize size, 0, fun _ => .blank⟩, rehash⟩ := by
  unfold makeHashTable at made
  split at made
  · cases made
  · split at made
    · cases made
    · rename_i rehash accepted
      split at made
      · cases made
      · exact ⟨rehash, accepted, (some.inj made).symm⟩

theorem initialSize_pos (size : Int) : 0 < initialSize size := by
  unfold initialSize
  split <;> omega

theorem HashTable.Kept.of_make {test : Test K} {size : Int} {rehashSize : RehashSize}
    {threshold : ℚ}
    (made : makeHashTable test size rehashSize threshold = some hash) : hash.Kept := by
  obtain ⟨rehash, accepted, rfl⟩ := makeHashTable_eq_some made
  exact ⟨Table.emptied_roomy ⟨test, rehash.policy threshold, 0, 0, fun _ => .blank⟩
    (initialSize_pos size), ⟨threshold, rfl⟩, ⟨rehashSize, accepted⟩⟩

theorem HashTable.Kept.larger (kept : hash.Kept) (enlarges : hash.rehash.enlarges = true) :
    hash.table.size < hash.table.policy.grow hash.table.size := by
  obtain ⟨threshold, policy⟩ := kept.policy
  obtain ⟨rehashSize, accepted⟩ := kept.accepted
  rw [policy]
  exact newSize_gt accepted enlarges kept.roomy.positive

theorem HashTable.apply_sethash (nil : V) (hash : HashTable K V) (key : K) (value : Option V) :
    hash.apply nil (.sethash key value) =
      if hash.fails key then hash else { hash with table := hash.table.sethash key value } := rfl

theorem HashTable.apply_rehash (nil : V) (hash : HashTable K V) (op : Op K V) :
    (hash.apply nil op).rehash = hash.rehash := by
  cases op with
  | sethash key value =>
    rw [HashTable.apply_sethash]
    split <;> rfl
  | remhash key => rfl
  | clrhash => rfl

theorem HashTable.Kept.apply (kept : hash.Kept)
    (enlarges : hash.rehash.enlarges = true) (nil : V) (op : Op K V) :
    (hash.apply nil op).Kept := by
  obtain ⟨threshold, policy⟩ := kept.policy
  refine ⟨?_, ⟨threshold, ?_⟩, ?_⟩
  · cases op with
    | sethash key value =>
      rw [HashTable.apply_sethash]
      split
      · exact kept.roomy
      · exact Table.sethash_roomy kept.roomy (kept.larger enlarges) key value
    | remhash key => exact Table.remhash_roomy kept.roomy nil key
    | clrhash => exact Table.clrhash_roomy kept.roomy
  · rw [HashTable.apply_rehash, ← policy]
    cases op with
    | sethash key value =>
      rw [HashTable.apply_sethash]
      split
      · rfl
      · exact Table.sethash_policy hash.table key value
    | remhash key => exact Table.remhash_policy hash.table nil key
    | clrhash => exact Table.clrhash_policy hash.table
  · rw [HashTable.apply_rehash]
    exact kept.accepted

theorem HashTable.Kept.applyAll (nil : V) (ops : List (Op K V)) : ∀ {hash : HashTable K V},
    hash.Kept → hash.rehash.enlarges = true →
    (hash.applyAll nil ops).Kept ∧ (hash.applyAll nil ops).rehash = hash.rehash := by
  induction ops with
  | nil => intro hash kept _; exact ⟨kept, rfl⟩
  | cons op ops ih =>
    intro hash kept enlarges
    have same := HashTable.apply_rehash nil hash op
    obtain ⟨after, rehash⟩ := ih (kept.apply enlarges nil op) (by rw [same]; exact enlarges)
    exact ⟨after, rehash.trans same⟩

/-- With a rehash-size other than 0 and 1.0 a table is never full: searches end
at a slot of the table, and every loop of add_new_to_hash stops, also while the
entries are copied to a larger table. -/
theorem entries_lt_size {test : Test K} {size : Int} {rehashSize : RehashSize} {threshold : ℚ}
    {hash : HashTable K V} (made : makeHashTable test size rehashSize threshold = some hash)
    (enlarges : hash.rehash.enlarges = true) (nil : V) (ops : List (Op K V)) :
    (hash.applyAll nil ops).table.entries < (hash.applyAll nil ops).table.size ∧
      (∀ key, (hash.applyAll nil ops).table.searchHash key < (hash.applyAll nil ops).table.size) ∧
      (∀ key, (hash.applyAll nil ops).table.Stops key) ∧
      ∀ n ≤ (hash.applyAll nil ops).table.size, ∀ key,
        ((hash.applyAll nil ops).table.copied n).Stops key := by
  obtain ⟨kept, rehash⟩ := HashTable.Kept.applyAll nil ops (.of_make made) enlarges
  have larger := kept.larger (by rw [rehash]; exact enlarges)
  exact ⟨kept.roomy.room, kept.roomy.searchHash_lt, kept.roomy.stops, fun n bound key =>
    (Table.copied_roomy larger bound).1.stops key⟩

theorem makeHashTable_growing : ∃ hash : HashTable Nat V,
    makeHashTable eqTest 16 (.float (3 / 2)) (7 / 10) = some hash ∧
      hash.rehash.enlarges = true := by
  refine ⟨⟨⟨eqTest, Rehash.policy (.double (Double.round (3 / 2))) (7 / 10), 16, 0,
    fun _ => .blank⟩, .double (Double.round (3 / 2))⟩, ?_, ?_⟩
  · have accepted : (RehashSize.float (3 / 2)).accept = some (.double (Double.round (3 / 2))) := by
      change (if (3 / 2 : ℚ) < 1 then none else some (Rehash.double (Double.round (3 / 2)))) = _
      rw [if_neg (by norm_num)]
    unfold makeHashTable
    rw [accepted, if_neg (by decide)]
    dsimp only
    rw [if_neg (by norm_num)]
    rfl
  · change (Rehash.double (Double.round (3 / 2))).enlarges = true
    decide +kernel

theorem entries_lt_size_growing :
    ∃ hash : HashTable Nat Unit, makeHashTable eqTest 16 (.float (3 / 2)) (7 / 10) = some hash ∧
      (hash.applyAll () ((List.range 20).map fun i => Op.sethash (4 * i) (some ()))).table.entries <
        (hash.applyAll ()
          ((List.range 20).map fun i => Op.sethash (4 * i) (some ()))).table.size := by
  obtain ⟨hash, made, enlarges⟩ := makeHashTable_growing (V := Unit)
  exact ⟨hash, made, (entries_lt_size made enlarges () _).1⟩

/-- With :REHASH-SIZE 0 sixteen keys fill a table of sixteen slots, and the next
search returns the slot behind the last one. -/
theorem full_table_of_rehash_zero :
    ∃ hash : HashTable Nat Unit, makeHashTable eqTest 16 (.fixnum 0) 1 = some hash ∧
      let table :=
        (hash.applyAll () ((List.range 16).map fun i => Op.sethash (4 * i) (some ()))).table
      ¬ table.entries < table.size ∧ table.searchHash 64 = table.size := by
  refine ⟨(makeHashTable eqTest 16 (.fixnum 0) 1).get (by decide +kernel),
    (Option.some_get _).symm, ?_⟩
  decide +kernel

end Ecl.Hash
