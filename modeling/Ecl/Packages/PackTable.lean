import Ecl.Hash.History
import Ecl.Packages.Tables

/- The hash tables of packages, of type htt_pack. A slot holds a fixnum made of the hash of
a name, and the symbol; the name itself is in the symbol. -/
namespace Ecl.Packages

open Option

open Hash (Entry Policy Rehash Table Test)

/-- A table of type htt_pack. `hash` is _hash_equal on strings: it depends on the
characters only. -/
structure PackTable where
  hash : String → Nat
  size : Nat
  entries : Nat
  data : Nat → Entry Nat Symbol

/-- MAKE_FIXNUM(h & 0xFFFFFFF). -/
def packKey (h : Nat) : Nat := h % 2 ^ 28

/-- The macro SYMBOL_NAME on the value of an entry. -/
def symbolName (value : Option Symbol) : String := (value.map Symbol.name).getD ""

/-- The rehash_size of make_package_hashtable. -/
def packRehash : Rehash := .double (Double.round (3 / 2))

/-- Its factor is 0.7. -/
def packPolicy : Policy := packRehash.policy (7 / 10)

namespace PackTable

/-- The loop of ecl_search_hash, for the case htt_pack. -/
def searchLoop (table : PackTable) (key : String) : Nat → Nat → Nat → Nat
  | 0, _, j => j
  | k + 1, i, j =>
    match (table.data i).key with
    | none =>
      if (table.data i).value.isNone then
        if j = table.size then i else j
      else if j = table.size then searchLoop table key k ((i + 1) % table.size) i
      else if j = i then i
      else searchLoop table key k ((i + 1) % table.size) j
    | some hkey =>
      if packKey (table.hash key) == hkey && key == symbolName (table.data i).value then i
      else searchLoop table key k ((i + 1) % table.size) j

def searchHash (table : PackTable) (key : String) : Nat :=
  table.searchLoop key table.size (table.hash key % table.size) table.size

def store (table : PackTable) (i : Nat) (entry : Entry Nat Symbol) : PackTable :=
  { table with data := fun j => if j = i then entry else table.data j }

/-- The loop of add_new_to_hash. -/
def freeLoop (table : PackTable) : Nat → Nat → Nat
  | 0, i => i
  | k + 1, i =>
    match (table.data i).key with
    | none => i
    | some _ => freeLoop table k ((i + 1) % table.size)

/-- add_new_to_hash. -/
def addNew (table : PackTable) (key : String) (value : Option Symbol) : PackTable :=
  let i := table.freeLoop table.size (table.hash key % table.size)
  { table.store i ⟨some (packKey (table.hash key)), value⟩ with entries := table.entries + 1 }

/-- The table that ecl_extend_hashtable starts from. -/
def emptied (table : PackTable) (size : Nat) : PackTable :=
  { table with size := size, entries := 0, data := fun _ => .blank }

/-- One slot is copied by ecl_extend_hashtable: the key is made from the name again. -/
def copyEntry (table fresh : PackTable) (i : Nat) : PackTable :=
  match (table.data i).key with
  | none => fresh
  | some _ => fresh.addNew (symbolName (table.data i).value) (table.data i).value

/-- ecl_extend_hashtable, which makes a new table. -/
def extend (table : PackTable) : PackTable :=
  (List.range table.size).foldl table.copyEntry (table.emptied (packPolicy.grow table.size))

/-- ecl_sethash returns the table to use from then on. -/
def sethash (table : PackTable) (key : String) (value : Symbol) : PackTable :=
  let i := table.searchHash key
  match (table.data i).key with
  | some old => table.store i ⟨some old, some value⟩
  | none =>
    let count := table.entries + 1
    if count ≥ table.size ∨ packPolicy.crowded count table.size = true then
      table.extend.addNew key (some value)
    else table.addNew key (some value)

/-- ecl_remhash. The value of a deleted entry is NIL. -/
def remhash (table : PackTable) (key : String) : PackTable :=
  let i := table.searchHash key
  match (table.data i).key with
  | none => table
  | some _ =>
    { table.store i ⟨none, some nilSymbol⟩ with
      entries := if table.entries = 0 then 2 ^ 64 - 1 else table.entries - 1 }

def clrhash (table : PackTable) : PackTable :=
  if table.entries = 0 then table else table.emptied table.size

/-- ecl_gethash_safe with OBJNULL as the default. -/
def gethashSafe (table : PackTable) (key : String) : Option Symbol :=
  match (table.data (table.searchHash key)).key with
  | some _ => (table.data (table.searchHash key)).value
  | none => none

/-- make_package_hashtable. -/
def make (hash : String → Nat) : PackTable := ⟨hash, 128, 0, fun _ => .blank⟩

/-- The symbol is in a slot of the table. -/
def Has (table : PackTable) (s : Symbol) : Prop :=
  ∃ i hkey, i < table.size ∧ table.data i = ⟨some hkey, some s⟩

/-- The comparison of names. -/
def nameTest (hash : String → Nat) : Test String := ⟨fun key hkey => key == hkey, hash⟩

theorem nameTest_lawful (hash : String → Nat) : (nameTest hash).Lawful where
  refl key := beq_self_eq_true key
  symm same := by
    rw [beq_iff_eq.mp same]
    exact beq_self_eq_true _
  trans first second := by
    rw [beq_iff_eq.mp first]
    exact second
  hash_eq same := by rw [beq_iff_eq.mp same]

def nameEntry (entry : Entry Nat Symbol) : Entry String Symbol :=
  ⟨entry.key.map fun _ => symbolName entry.value, entry.value⟩

def names (table : PackTable) : Table String Symbol where
  test := nameTest table.hash
  policy := packPolicy
  size := table.size
  entries := table.entries
  data i := nameEntry (table.data i)

/-- A live entry has a symbol, and the fixnum of its name. -/
def Keyed (table : PackTable) : Prop :=
  ∀ i hkey, (table.data i).key = some hkey →
    ∃ s, (table.data i).value = some s ∧ hkey = packKey (table.hash s.name)

section Names

variable {table : PackTable}

theorem Keyed.matches (keyed : table.Keyed) {i hkey : Nat}
    (present : (table.data i).key = some hkey) (key : String) :
    (packKey (table.hash key) == hkey && key == symbolName (table.data i).value) =
      (key == symbolName (table.data i).value) := by
  obtain ⟨s, value, rfl⟩ := keyed i hkey present
  rw [value]
  by_cases same : key = s.name
  · subst same
    simp [symbolName]
  · have differ : (key == symbolName (some s)) = false := beq_eq_false_iff_ne.mpr same
    rw [differ, Bool.and_false]

theorem names_key (table : PackTable) (i : Nat) :
    (table.names.data i).key = (table.data i).key.map fun _ => symbolName (table.data i).value :=
  rfl

theorem Keyed.searchLoop (keyed : table.Keyed) (key : String) (k : Nat) : ∀ i j,
    table.names.searchLoop key k i j = table.searchLoop key k i j := by
  induction k with
  | zero => exact fun _ _ => rfl
  | succ k ih =>
    intro i j
    rw [Table.searchLoop, PackTable.searchLoop, names_key]
    cases slot : (table.data i).key with
    | none =>
      simp only [map_none, ih]
      rfl
    | some hkey =>
      simp only [map_some, keyed.matches slot key, ih]
      rfl

theorem Keyed.searchHash (keyed : table.Keyed) (key : String) :
    table.names.searchHash key = table.searchHash key :=
  keyed.searchLoop key table.size _ _

theorem Keyed.gethashSafe (keyed : table.Keyed) (key : String) :
    table.gethashSafe key = (table.names.lookup key).join := by
  rw [Table.lookup, keyed.searchHash]
  cases slot : (table.data (table.searchHash key)).key with
  | none =>
    simp only [PackTable.gethashSafe, slot, names_key, map_none, join_none]
  | some hkey =>
    simp only [PackTable.gethashSafe, slot, names_key, map_some, join_some]
    rfl

theorem freeLoop_names (table : PackTable) (k : Nat) : ∀ i,
    table.names.freeLoop k i = table.freeLoop k i := by
  induction k with
  | zero => exact fun _ => rfl
  | succ k ih =>
    intro i
    rw [Table.freeLoop, freeLoop, names_key]
    cases (table.data i).key with
    | none => rfl
    | some hkey =>
      simp only [map_some, ih]
      rfl

theorem store_names (table : PackTable) (i : Nat) (entry : Entry Nat Symbol) :
    (table.store i entry).names = table.names.store i (nameEntry entry) := by
  have data : (table.store i entry).names.data = (table.names.store i (nameEntry entry)).data := by
    funext j
    change nameEntry (if j = i then entry else table.data j) =
      if j = i then nameEntry entry else nameEntry (table.data j)
    split <;> rfl
  exact congrArg (fun data => (⟨nameTest table.hash, packPolicy, table.size, table.entries, data⟩ :
    Table String Symbol)) data

theorem addNew_names (table : PackTable) (s : Symbol) :
    (table.addNew s.name (some s)).names = table.names.addNew s.name (some s) := by
  have place := freeLoop_names table table.size (table.hash s.name % table.size)
  have stored := store_names table (table.freeLoop table.size (table.hash s.name % table.size))
    ⟨some (packKey (table.hash s.name)), some s⟩
  have counted : (table.addNew s.name (some s)).names =
      { (table.store (table.freeLoop table.size (table.hash s.name % table.size))
          ⟨some (packKey (table.hash s.name)), some s⟩).names with
        entries := table.entries + 1 } := rfl
  rw [counted, stored, ← place]
  rfl

theorem Keyed.store (keyed : table.Keyed) {i : Nat} {entry : Entry Nat Symbol}
    (fits : ∀ hkey, entry.key = some hkey →
      ∃ s, entry.value = some s ∧ hkey = packKey (table.hash s.name)) :
    (table.store i entry).Keyed := by
  intro j hkey present
  change (if j = i then entry else table.data j).key = some hkey at present
  change ∃ s, (if j = i then entry else table.data j).value = some s ∧ hkey = _
  split at present
  · rename_i here
    rw [if_pos here]
    exact fits hkey present
  · rename_i other
    rw [if_neg other]
    exact keyed j hkey present

theorem Keyed.addNew (keyed : table.Keyed) (s : Symbol) :
    (table.addNew s.name (some s)).Keyed :=
  keyed.store (i := table.freeLoop table.size (table.hash s.name % table.size))
    fun _ present => ⟨s, rfl, (some.inj present).symm⟩

theorem emptied_keyed (table : PackTable) (size : Nat) : (table.emptied size).Keyed := by
  intro i hkey present
  cases present

theorem Keyed.copy (keyed : table.Keyed) (slots : List Nat) : ∀ {fresh : PackTable},
    fresh.Keyed → fresh.hash = table.hash →
    (slots.foldl table.copyEntry fresh).names =
        slots.foldl table.names.copyEntry fresh.names ∧
      (slots.foldl table.copyEntry fresh).Keyed ∧
      (slots.foldl table.copyEntry fresh).hash = table.hash := by
  induction slots with
  | nil => exact fun freshKeyed same => ⟨rfl, freshKeyed, same⟩
  | cons i slots ih =>
    intro fresh freshKeyed same
    simp only [List.foldl_cons, copyEntry, Table.copyEntry, names_key]
    cases slot : (table.data i).key with
    | none => exact ih freshKeyed same
    | some hkey =>
      obtain ⟨s, value, -⟩ := keyed i hkey slot
      have symbol : (table.names.data i).value = some s := value
      simp only [map_some, value, symbol]
      have next := ih (freshKeyed.addNew s) same
      rw [addNew_names] at next
      exact next

/-- The copy made by ecl_extend_hashtable is that of a table whose keys are the names. -/
theorem Keyed.extend (keyed : table.Keyed) :
    table.extend.names = table.names.extend ∧ table.extend.Keyed ∧
      table.extend.hash = table.hash :=
  keyed.copy (List.range table.size) (emptied_keyed table (packPolicy.grow table.size)) rfl

theorem Keyed.sethash (keyed : table.Keyed) (sound : table.names.Sound) (s : Symbol) :
    (table.sethash s.name s).names = table.names.sethash s.name (some s) ∧
      (table.sethash s.name s).Keyed ∧ (table.sethash s.name s).hash = table.hash := by
  have found := (Table.searchHash_spec sound s.name).2
  rw [keyed.searchHash] at found
  simp only [Table.sethash, PackTable.sethash, keyed.searchHash, names_key]
  cases slot : (table.data (table.searchHash s.name)).key with
  | some old =>
    obtain ⟨old', value, keyOf⟩ := keyed _ old slot
    -- the slot that the search returns holds a symbol of this name
    have named : s.name = old'.name := by
      rcases found with ⟨-, hkey, present, same⟩ | ⟨keyless, -⟩
      · rw [names_key, slot, value] at present
        obtain rfl := some.inj present
        exact beq_iff_eq.mp same
      · rw [names_key, slot] at keyless
        cases keyless
    simp only [map_some, value, symbolName, getD_some]
    refine ⟨?_, keyed.store fun _ present => ⟨s, rfl, ?_⟩, rfl⟩
    · rw [store_names, ← named]
      rfl
    · rw [← some.inj present, keyOf, named]
  | none =>
    simp only [map_none]
    by_cases crowded : table.entries + 1 ≥ table.size ∨
        packPolicy.crowded (table.entries + 1) table.size = true
    · obtain ⟨names, extended, hash⟩ := keyed.extend
      have crowded' : table.names.entries + 1 ≥ table.names.size ∨
        table.names.policy.crowded (table.names.entries + 1) table.names.size = true := crowded
      rw [if_pos crowded, if_pos crowded', addNew_names, names]
      exact ⟨rfl, extended.addNew s, hash⟩
    · have sparse : ¬ (table.names.entries + 1 ≥ table.names.size ∨
        table.names.policy.crowded (table.names.entries + 1) table.names.size = true) := crowded
      rw [if_neg crowded, if_neg sparse]
      exact ⟨addNew_names table s, keyed.addNew s, rfl⟩

theorem Keyed.remhash (keyed : table.Keyed) (key : String) :
    (table.remhash key).names = table.names.remhash nilSymbol key ∧ (table.remhash key).Keyed ∧
      (table.remhash key).hash = table.hash := by
  simp only [Table.remhash, PackTable.remhash, keyed.searchHash, names_key]
  cases slot : (table.data (table.searchHash key)).key with
  | none => exact ⟨rfl, keyed, rfl⟩
  | some old =>
    have stored := store_names table (table.searchHash key) ⟨none, some nilSymbol⟩
    have unkeyed : (table.store (table.searchHash key) ⟨none, some nilSymbol⟩).Keyed :=
      keyed.store fun _ present => by cases present
    refine ⟨?_, unkeyed, rfl⟩
    exact congrArg (fun names : Table String Symbol =>
      { names with entries := if table.entries = 0 then 2 ^ 64 - 1 else table.entries - 1 }) stored

theorem Keyed.clrhash (keyed : table.Keyed) :
    table.clrhash.names = table.names.clrhash ∧ table.clrhash.Keyed ∧
      table.clrhash.hash = table.hash := by
  unfold Table.clrhash PackTable.clrhash
  have count : table.names.entries = table.entries := rfl
  rw [count]
  split
  · exact ⟨rfl, keyed, rfl⟩
  · exact ⟨rfl, emptied_keyed table table.size, rfl⟩

end Names

/-- The tables of a package with the symbols that calls of ecl_sethash, ecl_remhash and
cl_clrhash have put in them. -/
inductive Holds : PackTable → SymbolTable → Prop where
  | make (hash : String → Nat) : Holds (make hash) []
  | sethash {table : PackTable} {symbols : SymbolTable} (s : Symbol) :
      Holds table symbols → Holds (table.sethash s.name s) (Packages.sethash s symbols)
  | remhash {table : PackTable} {symbols : SymbolTable} (name : String) :
      Holds table symbols → Holds (table.remhash name) (Packages.remhash name symbols)
  | clrhash {table : PackTable} {symbols : SymbolTable} :
      Holds table symbols → Holds table.clrhash []

theorem grow_larger {size : Nat} (positive : 0 < size) : size < packPolicy.grow size := by
  have accepted : (Hash.RehashSize.float (3 / 2)).accept = some packRehash := by
    change (if (3 / 2 : ℚ) < 1 then none else some packRehash) = _
    rw [if_neg (by norm_num)]
  exact Hash.newSize_gt accepted (by decide +kernel) positive

/-- What holds of the table that a list of symbols is in. -/
structure Represents (table : PackTable) (symbols : SymbolTable) : Prop where
  keyed : table.Keyed
  sound : table.names.Sound
  lookup : ∀ name, table.names.lookup name = (gethash name symbols).map some

theorem Represents.make (hash : String → Nat) : (make hash).Represents [] where
  keyed i hkey present := by cases present
  sound := @Table.emptied_sound String Symbol (PackTable.make hash).names 128 (nameTest_lawful hash)
    (by decide)
  lookup :=
    @Table.emptied_lookup String Symbol (PackTable.make hash).names 128 (nameTest_lawful hash)
    (by decide)

namespace Represents

variable {table : PackTable} {symbols : SymbolTable}

theorem sethash (represents : table.Represents symbols) (s : Symbol) :
    (table.sethash s.name s).Represents (Packages.sethash s symbols) := by
  obtain ⟨names, keyed, -⟩ := represents.keyed.sethash represents.sound s
  obtain ⟨sound, -, -, -, lookup⟩ := Table.sethash_spec represents.sound
    (grow_larger represents.sound.positive) s.name (some s)
  refine ⟨keyed, names ▸ sound, fun name => ?_⟩
  rw [names, lookup, represents.lookup, gethash_sethash]
  change (if (name == s.name) = true then _ else _) = _
  by_cases same : name = s.name
  · rw [if_pos (beq_iff_eq.mpr same), if_pos same]
    rfl
  · rw [if_neg (fun equal => same (beq_iff_eq.mp equal)), if_neg same]

theorem remhash (represents : table.Represents symbols) (key : String) :
    (table.remhash key).Represents (Packages.remhash key symbols) := by
  obtain ⟨names, keyed, -⟩ := represents.keyed.remhash key
  refine ⟨keyed, names ▸ Table.remhash_sound represents.sound nilSymbol key, fun name => ?_⟩
  rw [names, Table.remhash_lookup represents.sound, represents.lookup, gethash_remhash]
  change (if (name == key) = true then _ else _) = _
  by_cases same : name = key
  · rw [if_pos (beq_iff_eq.mpr same), if_pos same]
    rfl
  · rw [if_neg (fun equal => same (beq_iff_eq.mp equal)), if_neg same]

theorem clrhash (represents : table.Represents symbols) : table.clrhash.Represents [] := by
  obtain ⟨names, keyed, -⟩ := represents.keyed.clrhash
  refine ⟨keyed, names ▸ Table.clrhash_sound represents.sound, fun name => ?_⟩
  rw [names, Table.clrhash_lookup represents.sound]
  rfl

theorem gethashSafe (represents : table.Represents symbols) (name : String) :
    table.gethashSafe name = gethash name symbols := by
  rw [represents.keyed.gethashSafe, represents.lookup]
  cases gethash name symbols <;> rfl

theorem has (represents : table.Represents symbols) {s : Symbol} (has : table.Has s) :
    gethash s.name symbols = some s := by
  obtain ⟨i, hkey, inside, slot⟩ := has
  have stored : table.names.Stored s.name i := by
    refine ⟨inside, s.name, ?_, beq_self_eq_true _⟩
    rw [names_key, slot]
    rfl
  have found := (Table.lookup_eq_some represents.sound).mpr ⟨i, stored, rfl⟩
  rw [represents.lookup] at found
  change _ = some (table.data i).value at found
  rw [slot] at found
  cases held : gethash s.name symbols with
  | none =>
    rw [held] at found
    cases found
  | some t =>
    rw [held] at found
    exact some.inj found

end Represents

theorem Holds.represents {table : PackTable} {symbols : SymbolTable} (holds : table.Holds symbols) :
    table.Represents symbols := by
  induction holds with
  | make hash => exact .make hash
  | sethash s _ ih => exact ih.sethash s
  | remhash name _ ih => exact ih.remhash name
  | clrhash _ ih => exact ih.clrhash

end PackTable

end Ecl.Packages
