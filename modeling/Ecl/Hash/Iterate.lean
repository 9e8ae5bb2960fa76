import Ecl.Hash.History

/- cl_maphash and si_hash_table_iterate, with a callback that changes the table they
walk over. -/
namespace Ecl.Hash

open List Option

variable {S K V : Type}

/-- What is called for an association: from a state of its own and the table as it is,
the calls that change the table. -/
abbrev Callback (S K V : Type) : Type :=
  S → HashTable K V → K → Option V → S × List (Op K V)

/-- A loop of cl_maphash under way. -/
structure Scan (S K V : Type) where
  state : S
  hash : HashTable K V
  delivered : List (K × Option V)

/-- funcall of the function of cl_maphash. -/
def Scan.funcall (nil : V) (callback : Callback S K V) (key : K) (value : Option V)
    (scan : Scan S K V) : Scan S K V :=
  let called := callback scan.state scan.hash key value
  ⟨called.1, scan.hash.applyAll nil called.2, scan.delivered ++ [(key, value)]⟩

/-- The loop of cl_maphash, which reads hash.size and hash.data again in each round. A
callback that enlarges the table may keep it going, hence the fuel. -/
def maphashLoop (nil : V) (callback : Callback S K V) : Nat → Nat → Scan S K V →
    Option (Scan S K V)
  | 0, _, _ => none
  | fuel + 1, i, scan =>
    if i < scan.hash.table.size then
      match (scan.hash.table.data i).key with
      | none => maphashLoop nil callback fuel (i + 1) scan
      | some key =>
        maphashLoop nil callback fuel (i + 1)
          (scan.funcall nil callback key (scan.hash.table.data i).value)
    else some scan

def maphash (nil : V) (callback : Callback S K V) (fuel : Nat) (state : S)
    (hash : HashTable K V) : Option (Scan S K V) :=
  maphashLoop nil callback fuel 0 ⟨state, hash, []⟩

/-- The index in the environment of the closure, with NIL as `none`. -/
structure Iterator where
  index : Option Int
  deriving DecidableEq

def hashTableIterator : Iterator := ⟨some (-1)⟩

/-- The loop of si_hash_table_iterate over the slots that are left. -/
def Table.nextEntry (table : Table K V) : Nat → Nat → Option (Nat × K × Option V)
  | 0, _ => none
  | left + 1, i =>
    match (table.data i).key with
    | some key => some (i, key, (table.data i).value)
    | none => table.nextEntry left (i + 1)

/-- si_hash_table_iterate: the new index, and the three values or NIL. -/
def Iterator.iterate (iterator : Iterator) (table : Table K V) :
    Iterator × Option (Nat × K × Option V) :=
  match iterator.index with
  | none => (iterator, none)
  | some index =>
    let i := if index < 0 then -1 else index
    match table.nextEntry (table.size - (i + 1).toNat) (i + 1).toNat with
    | some (found, key, value) => (⟨some found⟩, some (found, key, value))
    | none => (⟨none⟩, none)

/-- What the first calls of an iterator deliver, when each association is handed to the
callback before the next call. -/
def iterateCalls (nil : V) (callback : Callback S K V) : Nat → Iterator → S → HashTable K V →
    List (Option (Nat × K × Option V))
  | 0, _, _, _ => []
  | n + 1, iterator, state, hash =>
    match iterator.iterate hash.table with
    | (next, none) => none :: iterateCalls nil callback n next state hash
    | (next, some (i, key, value)) =>
      let called := callback state hash key value
      some (i, key, value) ::
        iterateCalls nil callback n next called.1 (hash.applyAll nil called.2)

/-- The association in a slot, with the index of the slot. -/
def Table.row (table : Table K V) (i : Nat) : Option (Nat × K × Option V) :=
  (table.data i).key.map fun key => (i, key, (table.data i).value)

/-- The associations from a slot on, in the order of the slots. -/
def Table.rowsFrom (table : Table K V) (i : Nat) : List (Nat × K × Option V) :=
  (List.range' i (table.size - i)).filterMap table.row

def Table.rows (table : Table K V) : List (Nat × K × Option V) := table.rowsFrom 0

def Table.Associates (table : Table K V) (key : K) (value : Option V) : Prop :=
  ∃ i, table.Stored key i ∧ (table.data i).value = value

/-- A call that removes or sets a key. -/
def Op.On (test : Test K) (key : K) : Op K V → Prop
  | .sethash other _ => test.same other key = true
  | .remhash other => test.same other key = true
  | .clrhash => False

/-- Calls that set a key again while it is present, or remove it. -/
def Gentle (test : Test K) (key : K) : List (Op K V) → Prop
  | [] => True
  | .sethash other _ :: ops => test.same other key = true ∧ Gentle test key ops
  | .remhash other :: ops =>
    test.same other key = true ∧
      ∀ op ∈ ops, ∃ again, op = .remhash again ∧ test.same again key = true
  | .clrhash :: _ => False

namespace Table

variable {table : Table K V}

theorem row_eq_some {i : Nat} {row : Nat × K × Option V} :
    table.row i = some row ↔
      row.1 = i ∧ (table.data i).key = some row.2.1 ∧ (table.data i).value = row.2.2 := by
  obtain ⟨found, key, value⟩ := row
  cases slot : (table.data i).key with
  | none => simp [row, slot]
  | some held =>
    simp only [row, slot, map_some, some.injEq, Prod.mk.injEq]
    constructor
    · rintro ⟨here, rfl, rfl⟩
      exact ⟨here.symm, rfl, rfl⟩
    · rintro ⟨here, rfl, rfl⟩
      exact ⟨here.symm, rfl, rfl⟩

theorem mem_rows {row : Nat × K × Option V} :
    row ∈ table.rows ↔
      row.1 < table.size ∧ (table.data row.1).key = some row.2.1 ∧
        (table.data row.1).value = row.2.2 := by
  rw [rows, rowsFrom, mem_filterMap]
  constructor
  · rintro ⟨i, member, found⟩
    obtain ⟨rfl, key, value⟩ := row_eq_some.mp found
    rw [mem_range'_1] at member
    exact ⟨by omega, key, value⟩
  · rintro ⟨inside, key, value⟩
    refine ⟨row.1, ?_, row_eq_some.mpr ⟨rfl, key, value⟩⟩
    rw [mem_range'_1]
    omega

theorem rowsFrom_end (table : Table K V) {i : Nat} (past : table.size ≤ i) :
    table.rowsFrom i = [] := by
  rw [rowsFrom, Nat.sub_eq_zero_of_le past]
  rfl

theorem rowsFrom_succ (table : Table K V) {i : Nat} (inside : i < table.size) :
    table.rowsFrom i = (table.row i).toList ++ table.rowsFrom (i + 1) := by
  obtain ⟨left, total⟩ : ∃ left, table.size - i = left + 1 := ⟨table.size - i - 1, by omega⟩
  have rest : table.size - (i + 1) = left := by omega
  rw [rowsFrom, rowsFrom, total, rest, List.range'_succ, filterMap_cons]
  cases table.row i <;> rfl

theorem rowsFrom_congr {after : Table K V} {i : Nat} (size : after.size = table.size)
    (data : ∀ j, i ≤ j → after.data j = table.data j) : after.rowsFrom i = table.rowsFrom i := by
  rw [rowsFrom, rowsFrom, size]
  apply filterMap_congr
  intro j member
  rw [mem_range'_1] at member
  rw [row, row, data j member.1]

theorem rows_pairwise (placed : table.Placed) :
    table.rows.Pairwise fun a b => ¬ table.test.same a.2.1 b.2.1 = true := by
  rw [rows, rowsFrom, pairwise_filterMap]
  apply List.Pairwise.imp_of_mem _ (pairwise_lt_range' (s := 0))
  intro i j inside bound less a hasA b hasB same
  obtain ⟨-, first, -⟩ := row_eq_some.mp hasA
  obtain ⟨-, second, -⟩ := row_eq_some.mp hasB
  rw [mem_range'_1] at inside bound
  have clash := placed.unique (by omega) (by omega) first second same
  omega

theorem associates_iff {key : K} {value : Option V} :
    table.Associates key value ↔
      ∃ row ∈ table.rows, table.test.same key row.2.1 = true ∧ row.2.2 = value := by
  constructor
  · rintro ⟨i, ⟨inside, hkey, present, same⟩, held⟩
    exact ⟨(i, hkey, value), mem_rows.mpr ⟨inside, present, held⟩, same, rfl⟩
  · rintro ⟨row, member, same, rfl⟩
    obtain ⟨inside, present, held⟩ := mem_rows.mp member
    exact ⟨row.1, ⟨inside, row.2.1, present, same⟩, held⟩

end Table

/-- The table is another one in a single slot. -/
structure Beside (i : Nat) (before after : HashTable K V) : Prop where
  stocked : after.table.Stocked
  size : after.table.size = before.table.size
  test : after.table.test = before.table.test
  data : ∀ j, j ≠ i → after.table.data j = before.table.data j

theorem Beside.refl {i : Nat} {hash : HashTable K V} (stocked : hash.table.Stocked) :
    Beside i hash hash :=
  ⟨stocked, rfl, rfl, fun _ _ => rfl⟩

theorem Beside.trans {i : Nat} {first second third : HashTable K V}
    (one : Beside i first second) (two : Beside i second third) : Beside i first third :=
  ⟨two.stocked, two.size.trans one.size, two.test.trans one.test,
    fun j other => (two.data j other).trans (one.data j other)⟩

section Callbacks

variable {hash : HashTable K V} {i : Nat} {key hkey : K}

theorem apply_sethash_present (stocked : hash.table.Stocked) (inside : i < hash.table.size)
    (present : (hash.table.data i).key = some hkey) (same : hash.table.test.same key hkey = true)
    (nil : V) (value : Option V) :
    Beside i hash (hash.apply nil (.sethash key value)) ∧
      ((hash.apply nil (.sethash key value)).table.data i).key = some hkey := by
  have slot := stocked.toPlaced.searchHash_eq ⟨inside, hkey, present, same⟩
  have fails : hash.fails key = false := by
    simp only [HashTable.fails, slot, present, isNone_some, Bool.false_and]
  have table : (hash.apply nil (.sethash key value)).table =
      hash.table.store i ⟨some hkey, value⟩ := by
    rw [HashTable.apply_sethash, fails, if_neg Bool.false_ne_true]
    simp only [Table.sethash, slot, present]
  refine ⟨⟨?_, ?_, ?_, fun j other => ?_⟩, ?_⟩
  · rw [table]
    exact stocked.overwrite inside present value
  · rw [table, Table.store_size]
  · rw [table, Table.store_test]
  · rw [table, Table.store_data, if_neg other]
  · rw [table, Table.store_data, if_pos rfl]

theorem apply_remhash_present (stocked : hash.table.Stocked) (inside : i < hash.table.size)
    (present : (hash.table.data i).key = some hkey) (same : hash.table.test.same key hkey = true)
    (nil : V) :
    Beside i hash (hash.apply nil (.remhash key)) ∧ (hash.apply nil (.remhash key)).table.Sound ∧
      ∀ other, hash.table.test.same other hkey = true →
        ∀ j, ¬ (hash.apply nil (.remhash key)).table.Stored other j := by
  have slot := stocked.toPlaced.searchHash_eq ⟨inside, hkey, present, same⟩
  have table : (hash.apply nil (.remhash key)).table = hash.table.delete i nil := by
    change hash.table.remhash nil key = _
    simp only [Table.remhash, slot, present]
  have data : ∀ j, (hash.table.delete i nil).data j =
      if j = i then ⟨none, some nil⟩ else hash.table.data j := fun j => rfl
  rw [table]
  refine ⟨⟨?_, ?_, ?_, fun j other => ?_⟩, stocked.delete_sound inside present nil, ?_⟩
  · rw [table]
    exact stocked.delete inside present nil
  · rw [table]
    rfl
  · rw [table]
    rfl
  · rw [table, data, if_neg other]
  · -- a second slot with the key would have stored it before
    rintro other equal j ⟨bound, held, found, match_⟩
    rw [data] at found
    split at found
    · cases found
    · rename_i apart
      have order := stocked.lawful.trans (stocked.lawful.symm match_) equal
      exact apart (stocked.unique bound inside found present order)

theorem apply_remhash_absent (sound : hash.table.Sound) (absent : ∀ j, ¬ hash.table.Stored key j)
    (nil : V) : hash.apply nil (.remhash key) = hash := by
  have keyless := (Table.searchHash_absent sound absent).2
  change { hash with table := hash.table.remhash nil key } = hash
  simp only [Table.remhash, keyless]

theorem applyAll_remhash_absent (nil : V) : ∀ (ops : List (Op K V)) {hash : HashTable K V},
    hash.table.Sound →
    (∀ op ∈ ops, ∃ again, op = .remhash again ∧ ∀ j, ¬ hash.table.Stored again j) →
    hash.applyAll nil ops = hash
  | [], _, _, _ => rfl
  | op :: ops, hash, sound, removes => by
      obtain ⟨again, rfl, absent⟩ := removes op mem_cons_self
      change (hash.apply nil (.remhash again)).applyAll nil ops = hash
      rw [apply_remhash_absent sound absent]
      exact applyAll_remhash_absent nil ops sound
        fun op member => removes op (mem_cons_of_mem _ member)

theorem applyAll_gentle (nil : V) : ∀ (ops : List (Op K V)) {hash : HashTable K V},
    hash.table.Stocked → i < hash.table.size → (hash.table.data i).key = some hkey →
    Gentle hash.table.test hkey ops → Beside i hash (hash.applyAll nil ops)
  | [], _, stocked, _, _, _ => .refl stocked
  | .sethash key value :: ops, hash, stocked, inside, present, gentle => by
      obtain ⟨beside, still⟩ := apply_sethash_present stocked inside present gentle.1 nil value
      have rest := applyAll_gentle nil ops beside.stocked (by rw [beside.size]; exact inside)
        still (by rw [beside.test]; exact gentle.2)
      exact beside.trans rest
  | .remhash key :: ops, hash, stocked, inside, present, gentle => by
      obtain ⟨beside, sound, absent⟩ :=
        apply_remhash_present stocked inside present gentle.1 nil
      change Beside i hash ((hash.apply nil (.remhash key)).applyAll nil ops)
      rw [applyAll_remhash_absent nil ops sound]
      · exact beside
      · intro op member
        obtain ⟨again, rfl, same⟩ := gentle.2 op member
        exact ⟨again, rfl, absent again same⟩
  | .clrhash :: _, _, _, _, _, gentle => gentle.elim

end Callbacks

section Loops

variable {test : Test K} {nil : V} {callback : Callback S K V}
  (gentle : ∀ state now key value, Gentle test key (callback state now key value).2)

include gentle

theorem maphashLoop_eq (left : Nat) : ∀ (i : Nat) (scan : Scan S K V),
    scan.hash.table.Stocked → scan.hash.table.test = test → scan.hash.table.size - i = left →
    ∃ last : Scan S K V,
      (∀ fuel, left < fuel → maphashLoop nil callback fuel i scan = some last) ∧
        last.delivered = scan.delivered ++ (scan.hash.table.rowsFrom i).map Prod.snd := by
  induction left with
  | zero =>
    intro i scan stocked isTest total
    refine ⟨scan, ?_, ?_⟩
    · intro fuel enough
      obtain ⟨fuel, rfl⟩ := Nat.exists_eq_add_of_lt enough
      rw [Nat.zero_add, maphashLoop, if_neg (by omega)]
    · rw [scan.hash.table.rowsFrom_end (by omega), map_nil, append_nil]
  | succ left ih =>
    intro i scan stocked isTest total
    have inside : i < scan.hash.table.size := by omega
    rw [scan.hash.table.rowsFrom_succ inside]
    cases slot : (scan.hash.table.data i).key with
    | none =>
      obtain ⟨last, run, delivered⟩ := ih (i + 1) scan stocked isTest (by omega)
      refine ⟨last, ?_, ?_⟩
      · intro fuel enough
        obtain ⟨fuel, rfl⟩ : ∃ less, fuel = less + 1 := ⟨fuel - 1, by omega⟩
        rw [maphashLoop, if_pos inside, slot]
        exact run fuel (by omega)
      · rw [delivered, Table.row, slot]
        rfl
    | some key =>
      have calls := gentle scan.state scan.hash key (scan.hash.table.data i).value
      rw [← isTest] at calls
      have beside := applyAll_gentle nil _ stocked inside slot calls
      obtain ⟨last, run, delivered⟩ := ih (i + 1)
        (scan.funcall nil callback key (scan.hash.table.data i).value) beside.stocked
        (beside.test.trans isTest) (by
          have size := beside.size
          change (scan.hash.applyAll nil _).table.size - (i + 1) = left
          omega)
      refine ⟨last, ?_, ?_⟩
      · intro fuel enough
        obtain ⟨fuel, rfl⟩ : ∃ less, fuel = less + 1 := ⟨fuel - 1, by omega⟩
        rw [maphashLoop, if_pos inside, slot]
        exact run fuel (by omega)
      · have rest := Table.rowsFrom_congr (i := i + 1) beside.size
          fun j later => beside.data j (by omega)
        rw [delivered, Table.row, slot]
        change (scan.delivered ++ [_]) ++ ((scan.hash.applyAll nil _).table.rowsFrom _).map _ = _
        rw [rest, append_assoc]
        rfl

omit gentle in
theorem Table.nextEntry_spec (table : Table K V) (left : Nat) : ∀ i, table.size - i = left →
    (table.nextEntry left i = none ∧ table.rowsFrom i = []) ∨
      ∃ found key, i ≤ found ∧ found < table.size ∧ (table.data found).key = some key ∧
        table.nextEntry left i = some (found, key, (table.data found).value) ∧
        table.rowsFrom i =
          (found, key, (table.data found).value) :: table.rowsFrom (found + 1) := by
  induction left with
  | zero =>
    intro i total
    exact Or.inl ⟨rfl, table.rowsFrom_end (by omega)⟩
  | succ left ih =>
    intro i total
    have inside : i < table.size := by omega
    rw [table.rowsFrom_succ inside, Table.nextEntry, Table.row]
    cases slot : (table.data i).key with
    | none =>
      rcases ih (i + 1) (by omega) with ended | ⟨found, key, later, rest⟩
      · exact Or.inl ended
      · exact Or.inr ⟨found, key, by omega, rest⟩
    | some key => exact Or.inr ⟨i, key, Nat.le_refl i, inside, slot, rfl, rfl⟩

omit gentle in
theorem iterateCalls_ended (n : Nat) (state : S) (hash : HashTable K V) :
    iterateCalls nil callback n ⟨none⟩ state hash = List.replicate n none := by
  induction n with
  | zero => rfl
  | succ n ih =>
    rw [iterateCalls, replicate_succ, ← ih]
    rfl

theorem iterateCalls_eq (n : Nat) : ∀ (i : Nat) (index : Int) (state : S) (hash : HashTable K V),
    hash.table.Stocked → hash.table.test = test → index + 1 = i →
    iterateCalls nil callback n ⟨some index⟩ state hash =
      ((hash.table.rowsFrom i).map some ++ List.replicate n none).take n := by
  induction n with
  | zero =>
    intro i index state hash _ _ _
    rfl
  | succ n ih =>
    intro i index state hash stocked isTest front
    have start : ((if index < 0 then -1 else index) + 1).toNat = i := by
      split <;> omega
    rw [iterateCalls, Iterator.iterate]
    simp only [start]
    rcases hash.table.nextEntry_spec _ i rfl with
      ⟨entry, ended⟩ | ⟨found, key, -, inside, slot, entry, rows⟩
    · rw [entry, ended, map_nil, nil_append, take_replicate, Nat.min_self,
        replicate_succ]
      exact congrArg _ (iterateCalls_ended n state hash)
    · have calls := gentle state hash key (hash.table.data found).value
      rw [← isTest] at calls
      have beside := applyAll_gentle nil _ stocked inside slot calls
      have rest := Table.rowsFrom_congr (i := found + 1) beside.size
        fun j later => beside.data j (by omega)
      rw [entry, rows, map_cons, cons_append, take_succ_cons]
      refine congrArg (some (found, key, (hash.table.data found).value) :: ·) ?_
      have next := ih (found + 1) found
        (callback state hash key (hash.table.data found).value).1 _ beside.stocked
        (beside.test.trans isTest) (by omega)
      rw [rest] at next
      refine next.trans ?_
      rw [take_append, take_append, take_replicate, take_replicate]
      congr 2
      omega

end Loops

theorem makeHashTable_sixteen :
    (makeHashTable (V := Nat) eqTest 16 (.fixnum 16) 1).isSome = true := by
  decide +kernel

/-- A table of sixteen slots. The home of key 124 is the last slot; it was taken when the
key was set, and is free again. -/
def wrapped : HashTable Nat Nat :=
  ((((makeHashTable eqTest 16 (.fixnum 16) 1).get makeHashTable_sixteen).apply 0
    (.sethash 60 (some 1))).apply 0 (.sethash 124 (some 2))).apply 0 (.remhash 60)

theorem wrapped_reached : wrapped.Reached eqTest 0 := by
  have made : ((makeHashTable eqTest 16 (.fixnum 16) 1).get makeHashTable_sixteen).Reached
      eqTest (0 : Nat) := .make (some_get makeHashTable_sixteen).symm
  refine HashTable.Reached.call (HashTable.Reached.call (HashTable.Reached.call made ?_) ?_) ?_
  · exact ⟨Or.inr (by decide +kernel), fun _ full => absurd full (by decide +kernel)⟩
  · exact ⟨Or.inr (by decide +kernel), fun _ full => absurd full (by decide +kernel)⟩
  · exact Or.inr (by decide +kernel)

end Ecl.Hash
