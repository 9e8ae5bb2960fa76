import Ecl.Hash.Room

/- A table is the finite map that the history of its calls describes. -/
namespace Ecl.Hash

open List

variable {K V : Type}

/-- The association of a key after some calls, the last of which comes first:
the value of the last ecl_sethash to an equal key, unless an ecl_remhash or a
cl_clrhash removed it later. -/
def remembered (test : Test K) (key : K) : List (Op K V) → Option (Option V)
  | [] => none
  | .sethash other value :: earlier =>
    if test.same key other then some value else remembered test key earlier
  | .remhash other :: earlier => if test.same key other then none else remembered test key earlier
  | .clrhash :: _ => none

/-- A call that signals an error. -/
def HashTable.signals (hash : HashTable K V) : Op K V → Bool
  | .sethash key _ => hash.fails key
  | _ => false

/-- The calls of a history that return. -/
def HashTable.completed (nil : V) : HashTable K V → List (Op K V) → List (Op K V)
  | _, [] => []
  | hash, op :: ops =>
    if hash.signals op then completed nil hash ops
    else op :: completed nil (hash.apply nil op) ops

/-- The bytes of hash.data that ecl_alloc is asked for, in a cl_index. -/
def dataBytes (size : Nat) : Nat := size * 16 % 2 ^ 64

/-- ecl_extend_hashtable clears more slots than the block of hash.data has. -/
def HashTable.destroys (hash : HashTable K V) : Op K V → Bool
  | .sethash key _ =>
    (hash.table.data (hash.table.searchHash key)).key.isNone && hash.table.full &&
      dataBytes (hash.rehash.newSize hash.table.size) < hash.rehash.newSize hash.table.size * 16
  | _ => false

/-- What becomes of a call. -/
inductive Outcome (K V : Type) where
  | returned (hash : HashTable K V)
  | error (hash : HashTable K V)
  | destroyed

def HashTable.call (nil : V) (hash : HashTable K V) (op : Op K V) : Outcome K V :=
  if hash.signals op then .error hash
  else if hash.destroys op then .destroyed
  else .returned (hash.apply nil op)

/-- The calls up to the first one that does not return. -/
def HashTable.calls (nil : V) : HashTable K V → List (Op K V) → Outcome K V
  | hash, [] => .returned hash
  | hash, op :: ops =>
    match hash.call nil op with
    | .returned hash => calls nil hash ops
    | outcome => outcome

/-- Calls on a new table, whose slots are cleared too. -/
def HashTable.history (nil : V) (hash : HashTable K V) (ops : List (Op K V)) : Outcome K V :=
  if dataBytes hash.table.size < hash.table.size * 16 then .destroyed else hash.calls nil ops

/-- A new key does not fill a table that cannot be extended: the new size is below 2^60, and as a
float it is finite. -/
def HashTable.Extensible (hash : HashTable K V) : Op K V → Prop
  | .sethash key _ =>
    (∃ i, hash.table.Stored key i) ∨ hash.table.full = false ∨
      hash.rehash.newSize hash.table.size < 2 ^ 60 ∧
        hash.rehash.overflows hash.table.size = false
  | _ => True

def HashTable.AllExtensible (nil : V) : HashTable K V → List (Op K V) → Prop
  | _, [] => True
  | hash, op :: ops => hash.Extensible op ∧ AllExtensible nil (hash.apply nil op) ops

/-- The readers give the values of a map. Each live key has exactly one slot, and the entries are
counted. -/
structure Table.Refines (table : Table K V) (map : K → Option (Option V)) : Prop where
  safe : ∀ key default, table.gethashSafe key default = (map key).getD default
  cl : ∀ key noValue, table.clGethash key noValue =
    ((map key).getD (some noValue), (map key).isSome)
  live : ∀ key, (map key).isSome = true ↔ ∃ i, table.Stored key i
  once : ∀ key i j, table.Stored key i → table.Stored key j → i = j
  entries : table.entries = table.liveCount

namespace Table

variable {table : Table K V}

theorem remhash_sound (sound : table.Sound) (nil : V) (key : K) :
    (table.remhash nil key).Sound := by
  cases slot : (table.data (table.searchHash key)).key with
  | none =>
    simp only [remhash, slot]
    exact sound
  | some hkey =>
    simp only [remhash, slot]
    exact delete_sound sound (searchHash_spec sound key).1 slot nil

theorem remhash_lookup (sound : table.Sound) (nil : V) (key probe : K) :
    (table.remhash nil key).lookup probe =
      if table.test.same probe key then none else table.lookup probe := by
  obtain ⟨inside, ⟨_, hkey, present, same⟩ | ⟨keyless, absent⟩⟩ := searchHash_spec sound key
  · simp only [remhash, present]
    exact delete_lookup sound inside present same nil probe
  · simp only [remhash, keyless]
    split
    · rename_i equal
      refine (lookup_eq_none sound).mpr ?_
      rintro i ⟨bound, hkey, present, match_⟩
      exact absent i ⟨bound, hkey, present, sound.lawful.trans (sound.lawful.symm equal) match_⟩
    · rfl

theorem clrhash_sound (sound : table.Sound) : table.clrhash.Sound := by
  unfold clrhash
  split
  · exact sound
  · exact emptied_sound sound.lawful sound.positive

theorem clrhash_lookup (sound : table.Sound) (probe : K) : table.clrhash.lookup probe = none := by
  unfold clrhash
  split
  · rename_i empty
    refine (lookup_eq_none sound).mpr ?_
    rintro i ⟨bound, hkey, present, -⟩
    have counted := sound.counted
    rw [empty, liveCount] at counted
    have none := countP_eq_zero.mp counted.symm i (mem_range.mpr bound)
    rw [present] at none
    exact none rfl
  · exact emptied_lookup sound.lawful sound.positive probe

@[simp] theorem remhash_test (table : Table K V) (nil : V) (key : K) :
    (table.remhash nil key).test = table.test := by
  unfold remhash
  split <;> rfl

@[simp] theorem clrhash_test (table : Table K V) : table.clrhash.test = table.test := by
  unfold clrhash
  split <;> rfl

end Table

structure HashTable.Represents (hash : HashTable K V) (test : Test K)
    (map : K → Option (Option V)) : Prop where
  sound : hash.table.Sound
  test : hash.table.test = test
  lookup : ∀ key, hash.table.lookup key = map key

variable {test : Test K} {hash : HashTable K V}

theorem HashTable.Represents.of_make (lawful : test.Lawful) {size : Int}
    {rehashSize : RehashSize} {threshold : ℚ}
    (made : makeHashTable test size rehashSize threshold = some hash) :
    hash.Represents test fun _ => none := by
  obtain ⟨rehash, -, rfl⟩ := makeHashTable_eq_some made
  have positive := initialSize_pos size
  let start : Table K V := ⟨test, rehash.policy threshold, 0, 0, fun _ => .blank⟩
  exact ⟨@Table.emptied_sound K V start _ lawful positive, rfl,
    @Table.emptied_lookup K V start _ lawful positive⟩

theorem HashTable.Represents.apply {earlier : List (Op K V)}
    (represents : hash.Represents test fun key => remembered test key earlier)
    (kept : hash.Kept) (enlarges : hash.rehash.enlarges = true) (nil : V) {op : Op K V}
    (returns : hash.signals op = false) :
    (hash.apply nil op).Represents test fun key => remembered test key (op :: earlier) := by
  obtain ⟨sound, isTest, lookup⟩ := represents
  cases op with
  | sethash key value =>
    obtain ⟨after, sameTest, -, -, found⟩ :=
      Table.sethash_spec sound (kept.larger enlarges) key value
    have fails : hash.fails key = false := returns
    rw [HashTable.apply_sethash, fails]
    refine ⟨after, sameTest.trans isTest, fun probe => ?_⟩
    rw [if_neg (by simp), found, lookup, isTest]
    rfl
  | remhash key =>
    refine ⟨Table.remhash_sound sound nil key, (Table.remhash_test _ _ _).trans isTest,
      fun probe => ?_⟩
    change (hash.table.remhash nil key).lookup probe = _
    rw [Table.remhash_lookup sound, lookup, isTest]
    rfl
  | clrhash =>
    exact ⟨Table.clrhash_sound sound, (Table.clrhash_test _).trans isTest,
      Table.clrhash_lookup sound⟩

theorem HashTable.apply_signals {op : Op K V} (nil : V)
    (signals : hash.signals op = true) : hash.apply nil op = hash := by
  cases op with
  | sethash key value =>
    have fails : hash.fails key = true := signals
    rw [HashTable.apply_sethash, if_pos fails]
  | remhash key => cases signals
  | clrhash => cases signals

theorem HashTable.Represents.applyAll (nil : V) (ops : List (Op K V)) :
    ∀ {hash : HashTable K V} {earlier : List (Op K V)},
    (hash.Represents test fun key => remembered test key earlier) → hash.Kept →
    hash.rehash.enlarges = true →
    (hash.applyAll nil ops).Represents test fun key =>
      remembered test key ((hash.completed nil ops).reverse ++ earlier) := by
  induction ops with
  | nil => intro hash earlier represents _ _; exact represents
  | cons op ops ih =>
    intro hash earlier represents kept enlarges
    unfold HashTable.completed
    change ((hash.apply nil op).applyAll nil ops).Represents test _
    cases signals : hash.signals op with
    | true =>
      rw [HashTable.apply_signals nil signals]
      exact ih represents kept enlarges
    | false =>
      have enlarges' : (hash.apply nil op).rehash.enlarges = true := by
        rw [HashTable.apply_rehash]
        exact enlarges
      have after := ih (represents.apply kept enlarges nil signals)
        (kept.apply enlarges nil op) enlarges'
      simp only [Bool.false_eq_true, if_false, reverse_cons, append_assoc,
        cons_append, nil_append]
      exact after

theorem HashTable.Represents.of_history (lawful : test.Lawful) {size : Int}
    {rehashSize : RehashSize} {threshold : ℚ}
    (made : makeHashTable test size rehashSize threshold = some hash)
    (enlarges : hash.rehash.enlarges = true) (nil : V) (ops : List (Op K V)) :
    (hash.applyAll nil ops).Represents test fun key =>
      remembered test key (hash.completed nil ops).reverse := by
  have start : hash.Represents test fun key => remembered test key [] := .of_make lawful made
  have represents := HashTable.Represents.applyAll nil ops start (.of_make made) enlarges
  rwa [append_nil] at represents

theorem Table.gethashSafe_eq (table : Table K V) (key : K) (default : Option V) :
    table.gethashSafe key default = (table.lookup key).getD default := by
  cases slot : (table.data (table.searchHash key)).key <;> simp [gethashSafe, lookup, slot]

theorem Table.clGethash_eq (table : Table K V) (key : K) (noValue : V) :
    table.clGethash key noValue =
      ((table.lookup key).getD (some noValue), (table.lookup key).isSome) := by
  cases slot : (table.data (table.searchHash key)).key <;> simp [clGethash, lookup, slot]

theorem HashTable.Represents.refines {map : K → Option (Option V)}
    (represents : hash.Represents test map) : hash.table.Refines map := by
  obtain ⟨sound, -, lookup⟩ := represents
  refine ⟨fun key default => ?_, fun key noValue => ?_, fun key => ?_, ?_, sound.counted⟩
  · rw [Table.gethashSafe_eq, lookup]
  · rw [Table.clGethash_eq, lookup]
  · rw [← lookup, ← not_iff_not, Bool.not_eq_true, Option.isSome_eq_false_iff,
      Option.isNone_iff_eq_none, Table.lookup_eq_none sound, not_exists]
  · rintro key i j ⟨inside, a, foundA, sameA⟩ ⟨bound, b, foundB, sameB⟩
    exact sound.unique inside bound foundA foundB
      (sound.lawful.trans (sound.lawful.symm sameA) sameB)

theorem dataBytes_lt_iff (size : Nat) : dataBytes size < size * 16 ↔ ¬ size < 2 ^ 60 := by
  unfold dataBytes
  omega

theorem Table.Sound.isNone_iff {table : Table K V} (sound : table.Sound) (key : K) :
    (table.data (table.searchHash key)).key.isNone = true ↔ ¬ ∃ i, table.Stored key i := by
  obtain ⟨inside, ⟨_, hkey, present, same⟩ | ⟨keyless, absent⟩⟩ := searchHash_spec sound key
  · rw [present]
    exact iff_of_false Bool.false_ne_true
      (not_not.mpr ⟨_, inside, hkey, present, same⟩)
  · rw [keyless]
    exact iff_of_true rfl (not_exists.mpr absent)

theorem HashTable.Represents.call_returns_iff {map : K → Option (Option V)}
    (represents : hash.Represents test map) (op : Op K V) :
    hash.signals op = false ∧ hash.destroys op = false ↔ hash.Extensible op := by
  cases op with
  | sethash key value =>
    have found := represents.sound.isNone_iff key
    have bytes := dataBytes_lt_iff (hash.rehash.newSize hash.table.size)
    unfold HashTable.signals HashTable.fails HashTable.destroys HashTable.Extensible
    dsimp only
    by_cases present : ∃ i, hash.table.Stored key i
    · have some_key : (hash.table.data (hash.table.searchHash key)).key.isNone = false :=
        Bool.eq_false_iff.mpr fun none => found.mp none present
      rw [some_key]
      exact iff_of_true ⟨rfl, rfl⟩ (.inl present)
    · rw [found.mpr present]
      cases full : hash.table.full with
      | false => exact iff_of_true ⟨rfl, rfl⟩ (.inr (.inl rfl))
      | true =>
        simp only [Bool.true_and, decide_eq_false_iff_not, bytes, not_not, present, false_or,
          Bool.true_eq_false]
        exact and_comm
  | remhash key => exact iff_of_true ⟨rfl, rfl⟩ trivial
  | clrhash => exact iff_of_true ⟨rfl, rfl⟩ trivial

theorem HashTable.Represents.calls_iff (nil : V) (ops : List (Op K V)) :
    ∀ {hash : HashTable K V} {earlier : List (Op K V)},
    (hash.Represents test fun key => remembered test key earlier) → hash.Kept →
    hash.rehash.enlarges = true →
    ((∃ after, hash.calls nil ops = .returned after ∧
        after.table.Refines fun key => remembered test key (ops.reverse ++ earlier)) ↔
      hash.AllExtensible nil ops) := by
  induction ops with
  | nil =>
    intro hash earlier represents _ _
    exact iff_of_true ⟨hash, rfl, represents.refines⟩ trivial
  | cons op ops ih =>
    intro hash earlier represents kept enlarges
    have returns := represents.call_returns_iff op
    rw [HashTable.AllExtensible, ← returns, reverse_cons, append_assoc, cons_append, nil_append,
      HashTable.calls]
    by_cases ends : hash.signals op = false ∧ hash.destroys op = false
    · have call : hash.call nil op = .returned (hash.apply nil op) := by
        rw [HashTable.call, ends.1, ends.2]
        rfl
      have enlarges' : (hash.apply nil op).rehash.enlarges = true := by
        rw [HashTable.apply_rehash]
        exact enlarges
      rw [call, and_iff_right ends]
      exact ih (represents.apply kept enlarges nil ends.1) (kept.apply enlarges nil op) enlarges'
    · refine iff_of_false ?_ fun both => ends both.1
      rintro ⟨after, run, -⟩
      rw [HashTable.call] at run
      cases signals : hash.signals op with
      | true =>
        rw [signals] at run
        cases run
      | false =>
        have destroys : hash.destroys op = true :=
          Bool.eq_true_of_not_eq_false fun no => ends ⟨signals, no⟩
        rw [signals, destroys] at run
        cases run

/-- For every lawful test and every rehash-size that enlarges the table, the calls all return and
make the table the map of its history, exactly if the slots of the new table and of every extension
are fewer than 2^60 and no new size is a float that overflows. -/
theorem history_refines_map_iff {test : Test K} (lawful : test.Lawful) {size : Int}
    {rehashSize : RehashSize} {threshold : ℚ} {hash : HashTable K V}
    (made : makeHashTable test size rehashSize threshold = some hash)
    (enlarges : hash.rehash.enlarges = true) (nil : V) (ops : List (Op K V)) :
    (∃ after, hash.history nil ops = .returned after ∧
        after.table.Refines fun key => remembered test key ops.reverse) ↔
      initialSize size < 2 ^ 60 ∧ hash.AllExtensible nil ops := by
  have start : hash.Represents test fun key => remembered test key [] := .of_make lawful made
  have calls := HashTable.Represents.calls_iff nil ops start (.of_make made) enlarges
  have bytes := dataBytes_lt_iff hash.table.size
  have isSize : hash.table.size = initialSize size := by
    obtain ⟨rehash, -, rfl⟩ := makeHashTable_eq_some made
    rfl
  rw [append_nil] at calls
  rw [HashTable.history, ← calls, ← isSize]
  by_cases small : hash.table.size < 2 ^ 60
  · rw [if_neg fun many => bytes.mp many small, and_iff_right small]
  · rw [if_pos (bytes.mpr small)]
    refine iff_of_false ?_ fun both => small both.1
    rintro ⟨after, never, -⟩
    cases never

theorem eqTest_lawful : eqTest.Lawful where
  refl key := beq_self_eq_true key
  symm same := by
    rw [beq_iff_eq.mp same]
    exact beq_self_eq_true _
  trans first second := by
    rw [beq_iff_eq.mp first]
    exact second
  hash_eq same := by rw [beq_iff_eq.mp same]

/-- Two keys of one home slot, the first of which is deleted before the second
is set again. -/
theorem history_refines_map_reuse :
    ∃ hash : HashTable Nat Nat, makeHashTable eqTest 16 (.float (3 / 2)) (7 / 10) = some hash ∧
      ∃ after, hash.history 0 [.sethash 4 (some 1), .sethash 68 (some 2), .remhash 4,
          .sethash 68 (some 3)] = .returned after ∧
        after.table.Refines fun key => remembered eqTest key [.sethash 68 (some 3), .remhash 4,
          .sethash 68 (some 2), .sethash 4 (some 1)] := by
  refine ⟨(makeHashTable eqTest 16 (.float (3 / 2)) (7 / 10)).get (by decide +kernel),
    (Option.some_get _).symm, ?_⟩
  exact (history_refines_map_iff eqTest_lawful (Option.some_get _).symm (by decide +kernel) 0
    [.sethash 4 (some 1), .sethash 68 (some 2), .remhash 4, .sethash 68 (some 3)]).mpr
      ⟨by decide +kernel, .inr (.inl (by decide +kernel)), .inr (.inl (by decide +kernel)), trivial,
        .inr (.inl (by decide +kernel)), trivial⟩

/-- With :REHASH-SIZE 2^60 the sixteenth key asks for 2^60 + 16 slots, and ecl_alloc for the bytes
of sixteen. -/
theorem history_destroyed :
    ¬ ∀ {test : Test Nat}, test.Lawful → ∀ {size : Int} {rehashSize : RehashSize} {threshold : ℚ}
      {hash : HashTable Nat Unit}, makeHashTable test size rehashSize threshold = some hash →
      hash.rehash.enlarges = true → ∀ nil ops, ∃ after, hash.history nil ops = .returned after ∧
        after.table.Refines fun key => remembered test key ops.reverse := by
  intro all
  obtain ⟨after, returned, -⟩ := all eqTest_lawful
    (Option.some_get (show (makeHashTable eqTest 16 (.fixnum (2 ^ 60)) 1 :
      Option (HashTable Nat Unit)).isSome = true by decide +kernel)).symm
    (by decide +kernel) () ((List.range 16).map fun i => .sethash (4 * i) (some ()))
  have ends : (match ((makeHashTable eqTest 16 (.fixnum (2 ^ 60)) 1).get
      (by decide +kernel)).history ()
      ((List.range 16).map fun i => .sethash (4 * i) (some ())) with
      | .returned _ => true
      | _ => false) = false := by
    decide +kernel
  rw [returned] at ends
  cases ends

/- The tables that calls lead to, full ones among them. -/

variable {K V : Type}

namespace Table

/-- Stored keys are found, and the entries are counted. -/
structure Stocked (table : Table K V) : Prop extends table.Placed where
  counted : table.entries = table.liveCount

namespace Stocked

variable {table : Table K V}

theorem sound (stocked : table.Stocked) (room : table.entries < table.size) : table.Sound :=
  ⟨stocked.lawful, stocked.unique, stocked.reach, stocked.counted, room⟩

variable {i : Nat} {hkey : K}

theorem overwrite (stocked : table.Stocked) (inside : i < table.size)
    (present : (table.data i).key = some hkey) (value : Option V) :
    (table.store i ⟨some hkey, value⟩).Stocked := by
  refine ⟨overwrite_placed stocked.toPlaced present value, ?_⟩
  rw [store_entries, stocked.counted, overwrite_liveCount inside present]

theorem delete (stocked : table.Stocked) (inside : i < table.size)
    (present : (table.data i).key = some hkey) (mark : V) : (table.delete i mark).Stocked :=
  ⟨delete_placed stocked.toPlaced i mark, (delete_counted stocked.counted inside present mark).2⟩

theorem delete_sound (stocked : table.Stocked) (inside : i < table.size)
    (present : (table.data i).key = some hkey) (mark : V) : (table.delete i mark).Sound := by
  obtain ⟨entries, -⟩ := delete_counted stocked.counted inside present mark
  apply (stocked.delete inside present mark).sound
  have few : table.entries ≤ table.size := by
    rw [stocked.counted]
    simpa only [List.length_range, liveCount] using
      List.countP_le_length (p := fun i => (table.data i).key.isSome) (l := List.range table.size)
  have positive := stocked.positive
  rw [entries]
  change _ < table.size
  omega

end Stocked

variable {table : Table K V}

theorem Sound.stocked (sound : table.Sound) : table.Stocked :=
  ⟨sound.placed, sound.counted⟩

/-- ecl_search_hash ends inside of the table. -/
def Searchable (table : Table K V) (key : K) : Prop :=
  (∃ i, table.Stored key i) ∨ table.entries < table.size

variable {key : K}

theorem Searchable.cases (searchable : table.Searchable key) (stocked : table.Stocked) :
    table.Stored key (table.searchHash key) ∨
      (table.Sound ∧ (table.data (table.searchHash key)).key = none ∧
        ∀ i, ¬ table.Stored key i) := by
  by_cases present : ∃ i, table.Stored key i
  · obtain ⟨i, stored⟩ := present
    rw [stocked.toPlaced.searchHash_eq stored]
    exact Or.inl stored
  · have absent : ∀ i, ¬ table.Stored key i := fun i stored => present ⟨i, stored⟩
    have sound := stocked.sound (searchable.resolve_left present)
    exact Or.inr ⟨sound, (searchHash_absent sound absent).2, absent⟩

theorem remhash_stocked (stocked : table.Stocked)
    (searchable : table.Searchable key) (nil : V) : (table.remhash nil key).Stocked := by
  obtain ⟨inside, hkey, present, -⟩ | ⟨-, keyless, -⟩ := searchable.cases stocked
  · simp only [remhash, present]
    exact stocked.delete inside present nil
  · simp only [remhash, keyless]
    exact stocked

theorem sethash_stocked (stocked : table.Stocked) (searchable : table.Searchable key)
    (fits : (∀ i, ¬ table.Stored key i) → table.full = true →
      table.entries < table.policy.grow table.size) (value : Option V) :
    (table.sethash key value).Stocked ∧ (table.sethash key value).test = table.test := by
  obtain ⟨inside, hkey, present, -⟩ | ⟨sound, keyless, absent⟩ := searchable.cases stocked
  · simp only [sethash, present]
    exact ⟨stocked.overwrite inside present value, rfl⟩
  · simp only [sethash, keyless]
    split
    · rename_i crowded
      have fits := fits absent (by simpa [full, decide_eq_true_eq] using crowded)
      have copied := extend_copied sound fits
      have gone : ∀ i, ¬ table.extend.Stored key i := by
        apply (lookup_eq_none copied.sound).mp
        rw [extend_lookup sound fits]
        exact (lookup_eq_none sound).mpr absent
      exact ⟨⟨addNew_placed copied.sound gone value, addNew_counted copied.sound key value⟩,
        copied.test_eq⟩
    · exact ⟨⟨addNew_placed sound absent value, addNew_counted sound key value⟩, rfl⟩

theorem clrhash_stocked (stocked : table.Stocked) : table.clrhash.Stocked := by
  unfold clrhash
  split
  · exact stocked
  · exact (emptied_sound stocked.lawful stocked.positive).stocked

end Table

/-- The call returns: add_new_to_hash finds a slot without key in the table, and
in the table that the entries are copied to. -/
def HashTable.Returns (hash : HashTable K V) : Op K V → Prop
  | .sethash key _ =>
    hash.table.Searchable key ∧ ((∀ i, ¬ hash.table.Stored key i) → hash.table.full = true →
      hash.table.entries < hash.table.policy.grow hash.table.size)
  | .remhash key => hash.table.Searchable key
  | .clrhash => True

/-- The tables with a test that MAKE-HASH-TABLE and calls that return lead to. -/
inductive HashTable.Reached (test : Test K) (nil : V) : HashTable K V → Prop
  | make {size : Int} {rehashSize : RehashSize} {threshold : ℚ} {hash : HashTable K V} :
      makeHashTable test size rehashSize threshold = some hash → HashTable.Reached test nil hash
  | call {hash : HashTable K V} {op : Op K V} :
      HashTable.Reached test nil hash → hash.Returns op →
      HashTable.Reached test nil (hash.apply nil op)

theorem HashTable.Reached.stocked {test : Test K} (lawful : test.Lawful) {nil : V}
    {hash : HashTable K V} (reached : hash.Reached test nil) :
    hash.table.Stocked ∧ hash.table.test = test := by
  induction reached with
  | make made =>
    have represents := HashTable.Represents.of_make lawful made
    exact ⟨represents.sound.stocked, represents.test⟩
  | @call hash op _ returns ih =>
    obtain ⟨stocked, isTest⟩ := ih
    cases op with
    | sethash key value =>
      rw [HashTable.apply_sethash]
      split
      · exact ⟨stocked, isTest⟩
      · obtain ⟨after, same⟩ := Table.sethash_stocked stocked returns.1 returns.2 value
        exact ⟨after, same.trans isTest⟩
    | remhash key =>
      exact ⟨Table.remhash_stocked stocked returns nil,
        (Table.remhash_test hash.table nil key).trans isTest⟩
    | clrhash =>
      exact ⟨Table.clrhash_stocked stocked, (Table.clrhash_test hash.table).trans isTest⟩

end Ecl.Hash
