import Ecl.Lib.Cycle
import Ecl.Lib.Double

/- The open-addressing tables of hash.d. -/
namespace Ecl.Hash

variable {K V : Type}

/-- struct ecl_hashtable_entry, with OBJNULL as `none`. A slot with neither key
nor value was never used; one without key but with a value was deleted. -/
structure Entry (K V : Type) where
  key : Option K
  value : Option V

/-- An entry as do_clrhash leaves it. -/
def Entry.blank : Entry K V := ⟨none, none⟩

/-- The test of a table: the comparison and the hash function it selects. -/
structure Test (K : Type) where
  same : K → K → Bool
  hash : K → Nat

/-- Comparison is an equivalence and equal keys hash alike. -/
structure Test.Lawful (test : Test K) : Prop where
  refl : ∀ key, test.same key key = true
  symm : ∀ {a b}, test.same a b = true → test.same b a = true
  trans : ∀ {a b c}, test.same a b = true → test.same b c = true → test.same a c = true
  hash_eq : ∀ {a b}, test.same a b = true → test.hash a = test.hash b

/-- The rehashing policy: `crowded entries size` is the floating point test
i >= size*factor, and `grow size` the size that rehash_size asks for. -/
structure Policy where
  crowded : Nat → Nat → Bool
  grow : Nat → Nat

/-- A hash table. The array hash.data is a function on the indices below size. -/
structure Table (K V : Type) where
  test : Test K
  policy : Policy
  size : Nat
  entries : Nat
  data : Nat → Entry K V

namespace Table

/-- The loop of ecl_search_hash. The counter runs down from hsize, `i` is the
slot under inspection and `j` the first deleted slot, or hsize. -/
def searchLoop (table : Table K V) (key : K) : Nat → Nat → Nat → Nat
  | 0, _, j => j
  | k + 1, i, j =>
    match (table.data i).key with
    | none =>
      if (table.data i).value.isNone then
        if j = table.size then i else j
      else if j = table.size then searchLoop table key k ((i + 1) % table.size) i
      else if j = i then i
      else searchLoop table key k ((i + 1) % table.size) j
    | some hkey =>
      if table.test.same key hkey then i
      else searchLoop table key k ((i + 1) % table.size) j

/-- ecl_search_hash: the index of the entry it returns. -/
def searchHash (table : Table K V) (key : K) : Nat :=
  table.searchLoop key table.size (table.test.hash key % table.size) table.size

/-- Writing one entry of hash.data. -/
def store (table : Table K V) (i : Nat) (entry : Entry K V) : Table K V :=
  { table with data := fun j => if j = i then entry else table.data j }

/-- The loop of add_new_to_hash, which has no bound in the source; it is cut
after one round. -/
def freeLoop (table : Table K V) : Nat → Nat → Nat
  | 0, i => i
  | k + 1, i =>
    match (table.data i).key with
    | none => i
    | some _ => freeLoop table k ((i + 1) % table.size)

/-- add_new_to_hash. -/
def addNew (table : Table K V) (key : K) (value : Option V) : Table K V :=
  let i := table.freeLoop table.size (table.test.hash key % table.size)
  { table.store i ⟨some key, value⟩ with entries := table.entries + 1 }

/-- The table ecl_extend_hashtable starts from. -/
def emptied (table : Table K V) (size : Nat) : Table K V :=
  { table with size := size, entries := 0, data := fun _ => .blank }

/-- ecl_extend_hashtable: the live entries are added in index order. -/
def extend (table : Table K V) : Table K V :=
  (List.range table.size).foldl
    (fun fresh i =>
      match (table.data i).key with
      | none => fresh
      | some key => fresh.addNew key (table.data i).value)
    (table.emptied (table.policy.grow table.size))

def sethash (table : Table K V) (key : K) (value : Option V) : Table K V :=
  let i := table.searchHash key
  match (table.data i).key with
  | some old => table.store i ⟨some old, value⟩
  | none =>
    let count := table.entries + 1
    if count ≥ table.size ∨ table.policy.crowded count table.size = true then
      table.extend.addNew key value
    else table.addNew key value

/-- The deletion of ecl_remhash. The counter is an unsigned word. -/
def delete (table : Table K V) (i : Nat) (mark : V) : Table K V :=
  { table.store i ⟨none, some mark⟩ with
    entries := if table.entries = 0 then 2 ^ 64 - 1 else table.entries - 1 }

/-- ecl_gethash_safe, with `none` for an absent key. -/
def lookup (table : Table K V) (key : K) : Option (Option V) :=
  let entry := table.data (table.searchHash key)
  match entry.key with
  | none => none
  | some _ => some entry.value

/-- The number of slots that hold a key. -/
def liveCount (table : Table K V) : Nat :=
  (List.range table.size).countP fun i => (table.data i).key.isSome

end Table

/- Tables as MAKE-HASH-TABLE builds them, and what is called on them. -/

variable {K V : Type}

/-- MOST_POSITIVE_FIXNUM, which is also ATOTLIM. -/
def mostPositiveFixnum : Nat := 2 ^ 61 - 1

/-- An argument :REHASH-SIZE. A float is given by its exact value. -/
inductive RehashSize where
  | fixnum (n : Int)
  | float (value : ℚ)
  | other

/-- hash.rehash_size, after the argument was checked. -/
inductive Rehash where
  | integer (n : Nat)
  | double (value : ℚ)

/-- The check of :REHASH-SIZE; `none` for a type error. -/
def RehashSize.accept : RehashSize → Option Rehash
  | .fixnum n => if n < 0 then none else some (.integer n.toNat)
  | .float value => if value < 1 then none else some (.double (Double.round value))
  | .other => none

/-- new_size_obj of ecl_extend_hashtable. -/
def Rehash.newSizeObj : Rehash → Nat → Nat
  | .integer n, oldSize => n + oldSize
  | .double value, oldSize => ⌈Double.round (value * Double.round oldSize)⌉.toNat

/-- new_size: the old size is doubled when the result is no fixnum. -/
def Rehash.newSize (rehash : Rehash) (oldSize : Nat) : Nat :=
  if rehash.newSizeObj oldSize ≤ mostPositiveFixnum then rehash.newSizeObj oldSize
  else oldSize * 2

/-- The product is beyond the largest double, and ecl_times signals an error. -/
def Rehash.overflows : Rehash → Nat → Bool
  | .integer _, _ => false
  | .double value, oldSize => 2 ^ 1024 ≤ Double.round (value * Double.round oldSize)

def factor (threshold : ℚ) : ℚ :=
  if Double.round threshold < Double.round (1 / 10) then Double.round (1 / 10)
  else Double.round threshold

def Rehash.policy (rehash : Rehash) (threshold : ℚ) : Policy where
  crowded entries size :=
    Double.round (Double.round size * factor threshold) ≤ Double.round entries
  grow := rehash.newSize

/-- A hash table with its rehash_size. -/
structure HashTable (K V : Type) where
  table : Table K V
  rehash : Rehash

/-- htt_eq, on the words that represent objects. -/
def eqTest : Test Nat where
  same key hkey := key == hkey
  hash key := key / 4

/-- The size of a new table. -/
def initialSize (size : Int) : Nat := if size < 16 then 16 else size.toNat

/-- cl__make_hash_table; `none` when an argument is rejected. -/
def makeHashTable (test : Test K) (size : Int) (rehashSize : RehashSize) (threshold : ℚ) :
    Option (HashTable K V) :=
  if size < 0 ∨ (mostPositiveFixnum : Int) < size then none
  else
    match rehashSize.accept with
    | none => none
    | some rehash =>
      if threshold < 0 ∨ 1 < threshold then none
      else some ⟨⟨test, rehash.policy threshold, initialSize size, 0, fun _ => .blank⟩, rehash⟩

/-- The test of ecl_sethash for an extension. -/
def Table.full (table : Table K V) : Bool :=
  table.entries + 1 ≥ table.size || table.policy.crowded (table.entries + 1) table.size

/-- ecl_sethash signals an error before it changes the table. -/
def HashTable.fails (hash : HashTable K V) (key : K) : Bool :=
  (hash.table.data (hash.table.searchHash key)).key.isNone && hash.table.full &&
    hash.rehash.overflows hash.table.size

/-- ecl_remhash. The marker of a deleted entry is NIL. -/
def Table.remhash (table : Table K V) (nil : V) (key : K) : Table K V :=
  match (table.data (table.searchHash key)).key with
  | none => table
  | some _ => table.delete (table.searchHash key) nil

def Table.clrhash (table : Table K V) : Table K V :=
  if table.entries = 0 then table else table.emptied table.size

/-- The calls that change a table. A value may be OBJNULL. -/
inductive Op (K V : Type) where
  | sethash (key : K) (value : Option V)
  | remhash (key : K)
  | clrhash

/-- One call. -/
def HashTable.apply (nil : V) (hash : HashTable K V) : Op K V → HashTable K V
  | .sethash key value =>
    if hash.fails key then hash else { hash with table := hash.table.sethash key value }
  | .remhash key => { hash with table := hash.table.remhash nil key }
  | .clrhash => { hash with table := hash.table.clrhash }

/-- A history of calls. -/
def HashTable.applyAll (nil : V) (hash : HashTable K V) (ops : List (Op K V)) : HashTable K V :=
  ops.foldl (HashTable.apply nil) hash

def Table.gethash (table : Table K V) (key : K) : Option V :=
  (table.data (table.searchHash key)).value

def Table.gethashSafe (table : Table K V) (key : K) (default : Option V) : Option V :=
  match (table.data (table.searchHash key)).key with
  | some _ => (table.data (table.searchHash key)).value
  | none => default

/-- cl_gethash: the value, and whether the key is present. -/
def Table.clGethash (table : Table K V) (key : K) (noValue : V) : Option V × Bool :=
  match (table.data (table.searchHash key)).key with
  | some _ => ((table.data (table.searchHash key)).value, true)
  | none => (some noValue, false)

/-- cl_hash_table_count. -/
def Table.count (table : Table K V) : Nat := table.entries

/-- The rehash-sizes that enlarge a table: neither 0 nor 1.0. -/
def Rehash.enlarges : Rehash → Bool
  | .integer n => n != 0
  | .double value => value != 1

theorem accept_double {rehashSize : RehashSize} {value : ℚ}
    (accepted : rehashSize.accept = some (.double value)) :
    ∃ q, 1 ≤ q ∧ value = Double.round q := by
  cases rehashSize with
  | fixnum n =>
    simp only [RehashSize.accept] at accepted
    split at accepted <;> cases accepted
  | float q =>
    simp only [RehashSize.accept] at accepted
    split at accepted
    · cases accepted
    · rename_i notBelow
      cases accepted
      exact ⟨q, not_lt.mp notBelow, rfl⟩
  | other => cases accepted

theorem newSize_gt {rehashSize : RehashSize} {rehash : Rehash}
    (accepted : rehashSize.accept = some rehash) (enlarges : rehash.enlarges = true)
    {oldSize : Nat} (positive : 0 < oldSize) : oldSize < rehash.newSize oldSize := by
  have larger : oldSize < rehash.newSizeObj oldSize := by
    cases rehash with
    | integer n =>
      have nonzero : n ≠ 0 := by simpa [Rehash.enlarges] using enlarges
      simp only [Rehash.newSizeObj]
      omega
    | double value =>
      obtain ⟨q, atLeast, rfl⟩ := accept_double accepted
      have notOne : Double.round q ≠ 1 := by simpa [Rehash.enlarges] using enlarges
      have above : 1 < Double.round q :=
        lt_of_le_of_ne (Double.one_le_round atLeast) (Ne.symm notOne)
      have grows := Double.lt_round_mul (Double.round_round (by linarith)) above
        (show (0 : ℚ) < oldSize by exact_mod_cast positive)
      have ceiling : (oldSize : ℤ) <
          ⌈Double.round (Double.round q * Double.round oldSize)⌉ := by
        refine Int.lt_ceil.mpr ?_
        exact_mod_cast grows
      simp only [Rehash.newSizeObj]
      omega
  unfold Rehash.newSize
  split
  · exact larger
  · omega

end Ecl.Hash
