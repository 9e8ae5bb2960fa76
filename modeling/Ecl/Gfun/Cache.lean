import Ecl.Equality.Equal
import Ecl.Lib.Cycle

/- The cache of effective methods in gfun.d, which every thread has for itself. -/
namespace Ecl.Gfun

open Ecl.Equality

/-- The words of a spec vector, up to its fill pointer: the generic function and the
specializers of the arguments. Objects are compared by address. -/
abbrev Keys : Type := List Word

/-- The value of a record; OBJNULL is no Lisp object. -/
inductive Value (F : Type) where
  | objnull
  | nil
  | function (f : F)
  deriving DecidableEq

/-- Three words of the table: RECORD_KEY, which may be OBJNULL, RECORD_VALUE, RECORD_GEN. -/
structure Record (F : Type) where
  key : Option Keys
  value : Value F
  gen : Nat
  deriving DecidableEq

/-- The fields method_hash, with its records, and method_generation of a thread. -/
structure Cache (F : Type) where
  size : Nat
  record : Nat → Record F
  generation : Nat

/-- The number of records of method_hash. -/
def methodHashSize : Nat := 4096

namespace Cache

variable {F : Type} (cache : Cache F)

/-- The dimension of the vector in words. -/
def totalSize : Nat := 3 * cache.size

def setRecord (e : Nat) (change : Record F → Record F) : Cache F :=
  { cache with record := fun i => if i = e then change (cache.record i) else cache.record i }

/-- What si_clear_gfun_hash is asked for: T or a generic function. -/
inductive Target where
  | all
  | function (gf : Word)
  deriving DecidableEq

def emptyRecord : Record F := ⟨none, .objnull, 0⟩

/-- The function do_clear_method_hash on the table. -/
def doClearMethodHash : Target → Cache F
  | .all => { cache with record := fun _ => emptyRecord, generation := 0 }
  | .function gf =>
    { cache with record := fun i =>
        let r := cache.record i
        match r.key with
        | none => r
        | some key => if key.head? = some gf then { r with key := none, gen := 0 } else r }

/-- The cache after _ecl_set_method_hash_size. -/
def cleared (size : Nat) : Cache F where
  size := size
  record := fun _ => emptyRecord
  generation := 0

/-- The dimension of method_spec_vector. -/
def specDimension : Word := 64#64

/-- The loop of vector_hash_key, from the last word down. -/
def hashDown : List Word → Mixed → Mixed
  | z :: y :: x :: words, m => hashDown words (mix ⟨m.a + x, m.b + y, m.c + z⟩)
  | [y, x], m => mix ⟨m.a + x, m.b + y, m.c + specDimension⟩
  | [x], m => mix ⟨m.a + x, m.b, m.c + specDimension⟩
  | [], m => m

def vectorHashKey (keys : Keys) : Nat :=
  (hashDown keys.reverse ⟨goldenRatio, goldenRatio, 0#64⟩).c.toNat

/-- The record where the search begins. -/
def start (keys : Keys) : Nat := vectorHashKey keys % cache.totalSize / 3

/-- The loop of search_method_hash; `minGen` is -1 once a deleted record was found. The
result says whether the key was found, and gives the record. -/
def scan (keys : Keys) : Nat → Nat → Int → Option Nat → Bool × Option Nat
  | 0, _, _, minE => (false, minE)
  | k + 1, i, minGen, minE =>
    let e := cache.record i
    let next := if cache.size ≤ i + 1 then 0 else i + 1
    match e.key with
    | none =>
      if e.value matches .objnull then (false, some i) else scan keys k next (-1) (some i)
    | some hkey =>
      if keys.length = hkey.length ∧ keys = hkey then (true, some i)
      -- a key of the same length gets here by a jump past the test of `minGen`
      else if (keys.length = hkey.length ∨ 0 ≤ minGen) ∧ (e.gen : Int) < minGen then
        scan keys k next e.gen (some i)
      else scan keys k next minGen minE

/-- All generations are lowered by half of the current one, and the oldest records are
deleted. -/
def shift : Cache F :=
  let gen := cache.generation / 2
  { cache with
    generation := cache.generation - gen
    record := fun i =>
      let r := cache.record i
      if r.gen ≤ gen then ⟨none, .nil, 0⟩ else { r with gen := r.gen - gen } }

/-- The record gets the current generation. -/
def stamp (e : Nat) : Cache F :=
  let cache := cache.setRecord e fun r => { r with gen := cache.generation }
  if cache.totalSize / 2 ≤ cache.generation then cache.shift else cache

/-- The number of records that are looked at. -/
def probes : Nat := 20

/-- The function search_method_hash: the record and the cache after it. There is no result
when ecl_internal_error is called. -/
def searchMethodHash (keys : Keys) : Option (Nat × Cache F) :=
  match cache.scan keys probes (cache.start keys) cache.generation none with
  | (_, none) => none
  | (true, some e) => some (e, cache.stamp e)
  | (false, some e) =>
    let cache := cache.setRecord e fun r => { r with key := none }
    some (e, { cache with generation := cache.generation + 1 }.stamp e)

/-- The dispatcher fills a record. -/
def fill (e : Nat) (keys : Keys) (func : F) : Cache F :=
  cache.setRecord e fun r => { r with key := some keys, value := .function func }

end Cache

end Ecl.Gfun

/- What a search through the cache finds, and what it leaves. -/
namespace Ecl.Gfun.Cache

open Cycle Nat Option

variable {F : Type} (cache : Cache F)

/-- The records that a search looks at, in order. -/
def path (keys : Keys) (j : Nat) : Nat := walk cache.size (cache.start keys) j

theorem start_lt {cache : Cache F} (positive : 0 < cache.size) (keys : Keys) :
    cache.start keys < cache.size := by
  have below : vectorHashKey keys % cache.totalSize < cache.totalSize :=
    mod_lt _ (mul_pos (by decide) positive)
  simp only [totalSize] at below
  unfold start totalSize
  omega

theorem next_walk {size start j : Nat} (positive : 0 < size) :
    (if size ≤ walk size start j + 1 then 0 else walk size start j + 1) =
      walk size start (j + 1) := by
  have below : walk size start j < size := walk_lt positive
  rw [← walk_succ]
  split
  · have last : walk size start j + 1 = size := by omega
    rw [last, mod_self]
  · rw [mod_eq_of_lt (by omega)]

/-- The results of the loop over `k` records, the first of them number `j` of a path. -/
def ScanResult (keys : Keys) (start k j : Nat) (minE : Option Nat) : Bool × Option Nat → Prop
  | (true, some e) =>
    ∃ i < k, e = walk cache.size start (j + i) ∧ (cache.record e).key = some keys
  | (true, none) => False
  | (false, some e) => minE = some e ∨ ∃ i < k, e = walk cache.size start (j + i)
  | (false, none) => minE = none

section Scan

variable {cache} (positive : 0 < cache.size) (keys : Keys) (start : Nat)

include positive

theorem scan_result (k j : Nat) (minGen : Int) (minE : Option Nat) :
    ScanResult cache keys start k j minE
      (cache.scan keys k (walk cache.size start j) minGen minE) := by
  induction k generalizing j minGen minE with
  | zero =>
    cases minE with
    | none => rfl
    | some e => exact .inl rfl
  | succ k ih =>
    -- a result of the rest of the loop, from the next record on
    have later (minGen : Int) (minE' : Option Nat)
        (kept : minE' = minE ∨ minE' = some (walk cache.size start j)) :
        ScanResult cache keys start (k + 1) j minE
          (cache.scan keys k (walk cache.size start (j + 1)) minGen minE') := by
      have rest := ih (j + 1) minGen minE'
      have shifted (i : Nat) : j + 1 + i = j + (i + 1) := by omega
      generalize cache.scan keys k (walk cache.size start (j + 1)) minGen minE' = result at rest
      match result with
      | (true, some e) =>
        obtain ⟨i, below, same, key⟩ := rest
        exact ⟨i + 1, by omega, by rw [same, shifted], key⟩
      | (true, none) => exact rest
      | (false, some e) =>
        rcases rest with before | ⟨i, below, same⟩
        · rcases kept with old | here
          · exact .inl (old ▸ before)
          · rw [here, some.injEq] at before
            exact .inr ⟨0, by omega, before.symm⟩
        · exact .inr ⟨i + 1, by omega, by rw [same, shifted]⟩
      | (false, none) =>
        have absent : minE' = none := rest
        rcases kept with old | here
        · exact old ▸ absent
        · rw [here] at absent
          cases absent
    simp only [scan, next_walk positive]
    split
    · split
      · exact .inr ⟨0, by omega, rfl⟩
      · exact later _ _ (.inr rfl)
    · rename_i hkey key
      split
      · rename_i matched
        exact ⟨0, by omega, rfl, by rw [key, ← matched.2]⟩
      · split
        · exact later _ _ (.inr rfl)
        · exact later _ _ (.inl rfl)

theorem scan_finds (k i j : Nat) (minGen : Int) (minE : Option Nat) (below : i < k)
    (here : (cache.record (walk cache.size start (j + i))).key = some keys)
    (used : ∀ h < i, (cache.record (walk cache.size start (j + h))).value ≠ .objnull) :
    (cache.scan keys k (walk cache.size start j) minGen minE).1 = true := by
  induction k generalizing i j minGen minE with
  | zero => omega
  | succ k ih =>
    have later (minGen : Int) (minE : Option Nat) (positiveI : 0 < i) :
        (cache.scan keys k (walk cache.size start (j + 1)) minGen minE).1 = true := by
      obtain ⟨i, rfl⟩ := exists_eq_succ_of_ne_zero (by omega : i ≠ 0)
      have shifted (h : Nat) : j + 1 + h = j + (h + 1) := by omega
      apply ih i (j + 1) minGen minE (by omega)
      · rw [shifted]
        exact here
      · intro h before
        rw [shifted]
        exact used (h + 1) (by omega)
    simp only [scan, next_walk positive]
    split
    · rename_i free
      have positiveI : 0 < i := by
        by_contra zero
        have same : i = 0 := by omega
        rw [same, add_zero, free] at here
        cases here
      split
      · rename_i empty
        have value := used 0 positiveI
        rw [add_zero] at value
        exact absurd (by simpa using empty) value
      · exact later _ _ positiveI
    · rename_i hkey key
      split
      · rfl
      · rename_i different
        have positiveI : 0 < i := by
          by_contra zero
          have same : i = 0 := by omega
          rw [same, add_zero, key, some.injEq] at here
          exact different ⟨by rw [here], here.symm⟩
        split
        · exact later _ _ positiveI
        · exact later _ _ positiveI

/-- There is no victim only if all records that the loop looked at are in use and none is
older than the generation it started with. -/
theorem scan_fails (k j : Nat) (minGen : Nat)
    (failed : cache.scan keys k (walk cache.size start j) minGen none = (false, none)) :
    ∀ i < k, (cache.record (walk cache.size start (j + i))).key ≠ none ∧
      minGen ≤ (cache.record (walk cache.size start (j + i))).gen := by
  induction k generalizing j with
  | zero => simp
  | succ k ih =>
    -- once a record is chosen the loop ends with one
    have chosen (minGen : Int) (e : Nat) :
        cache.scan keys k (walk cache.size start (j + 1)) minGen (some e) ≠ (false, none) := by
      intro none
      have result : ScanResult cache keys start k (j + 1) (some e) (false, .none) :=
        none ▸ scan_result positive keys start k (j + 1) minGen (some e)
      cases result
    simp only [scan, next_walk positive] at failed
    split at failed
    · split at failed
      · cases failed
      · exact absurd failed (chosen _ _)
    · rename_i hkey key
      split at failed
      · cases failed
      · split at failed
        · exact absurd failed (chosen _ _)
        · rename_i newer
          have rest := ih (j + 1) failed
          intro i below
          cases i with
          | zero =>
            refine ⟨by rw [add_zero, key]; simp, ?_⟩
            rw [add_zero]
            by_contra older
            refine newer ⟨.inr (by omega), ?_⟩
            exact_mod_cast Nat.lt_of_not_le older
          | succ i =>
            have shifted : j + 1 + i = j + (i + 1) := by omega
            rw [← shifted]
            exact rest i (by omega)

end Scan

/-- A record on the path of the key holds it. -/
def OnPath (keys : Keys) : Prop :=
  ∃ j < probes, (cache.record (cache.path keys j)).key = some keys

/-- The search for the key gets to the record: no empty record comes before it. -/
def Leads (keys : Keys) (e : Nat) : Prop :=
  ∃ j < probes, e = cache.path keys j ∧
    ∀ h < j, (cache.record (cache.path keys h)).value ≠ .objnull

/-- The cache after a miss, with a record set free for the key. -/
def evict (e : Nat) : Cache F :=
  { cache.setRecord e fun r => { r with key := none } with generation := cache.generation + 1 }

theorem record_setRecord (e : Nat) (change : Record F → Record F) (i : Nat) :
    (cache.setRecord e change).record i =
      if i = e then change (cache.record i) else cache.record i := rfl

theorem searchMethodHash_cases {cache : Cache F} (positive : 0 < cache.size) (keys : Keys) :
    (∃ e, cache.searchMethodHash keys = some (e, cache.stamp e) ∧
      (cache.record e).key = some keys ∧ ∃ j < probes, e = cache.path keys j) ∨
    (∃ e, cache.searchMethodHash keys = some (e, (cache.evict e).stamp e) ∧
      (∃ j < probes, e = cache.path keys j) ∧
      ∀ i, cache.Leads keys i → (cache.record i).key ≠ some keys) ∨
    cache.searchMethodHash keys = none ∧
      (∀ j < probes, (cache.record (cache.path keys j)).key ≠ none ∧
        cache.generation ≤ (cache.record (cache.path keys j)).gen) ∧
      ∀ i, cache.Leads keys i → (cache.record i).key ≠ some keys := by
  have inside := start_lt positive keys
  have first : walk cache.size (cache.start keys) 0 = cache.start keys := walk_zero inside
  have result := scan_result positive keys (cache.start keys) probes 0 cache.generation none
  have finds (i : Nat) (leads : cache.Leads keys i) (key : (cache.record i).key = some keys) :
      (cache.scan keys probes (cache.start keys) cache.generation none).1 = true := by
    obtain ⟨j, below, rfl, used⟩ := leads
    have found :=
      scan_finds positive keys (cache.start keys) probes j 0 cache.generation none below
      (by rw [zero_add]; exact key)
      (fun h before => by rw [zero_add]; exact used h before)
    rwa [first] at found
  have fails := scan_fails positive keys (cache.start keys) probes 0 cache.generation
  rw [first] at result fails
  unfold searchMethodHash
  match ends : cache.scan keys probes (cache.start keys) cache.generation none with
  | (true, none) =>
    rw [ends] at result
    cases result
  | (true, some e) =>
    rw [ends] at result
    obtain ⟨j, below, same, key⟩ := result
    rw [zero_add] at same
    exact .inl ⟨e, rfl, key, j, below, same⟩
  | (false, some e) =>
    rw [ends] at result
    obtain ⟨j, below, same⟩ := result.resolve_left (by simp)
    rw [zero_add] at same
    refine .inr (.inl ⟨e, rfl, ⟨j, below, same⟩, ?_⟩)
    intro i leads key
    have found := finds i leads key
    rw [ends] at found
    cases found
  | (false, none) =>
    refine .inr (.inr ⟨rfl, ?_, ?_⟩)
    · intro j below
      have used := fails ends j below
      rwa [zero_add] at used
    · intro i leads key
      have found := finds i leads key
      rw [ends] at found
      cases found

/-- Records in use were in use, with the same key and value; no record becomes empty. -/
structure Within (cache cache' : Cache F) : Prop where
  size : cache'.size = cache.size
  key : ∀ i keys, (cache'.record i).key = some keys → (cache.record i).key = some keys ∧
    (cache'.record i).value = (cache.record i).value
  value : ∀ i, (cache.record i).value ≠ .objnull → (cache'.record i).value ≠ .objnull

theorem Within.trans {first second third : Cache F} (one : Within first second)
    (two : Within second third) : Within first third where
  size := two.size.trans one.size
  key i keys used := by
    obtain ⟨key, value⟩ := two.key i keys used
    obtain ⟨key', value'⟩ := one.key i keys key
    exact ⟨key', value.trans value'⟩
  value i used := two.value i (one.value i used)

theorem within_shift : Within cache cache.shift where
  size := rfl
  key i keys used := by
    simp only [shift] at used ⊢
    split at used
    · cases used
    · rename_i young
      rw [if_neg young]
      exact ⟨used, rfl⟩
  value i used := by
    simp only [shift]
    split
    · simp
    · exact used

theorem within_stamp (e : Nat) : Within cache (cache.stamp e) := by
  have stamped : Within cache (cache.setRecord e fun r => { r with gen := cache.generation }) := by
    refine ⟨rfl, ?_, ?_⟩
    · intro i keys used
      rw [record_setRecord] at used ⊢
      split at used
      · rename_i same
        rw [if_pos same]
        exact ⟨used, rfl⟩
      · rename_i other
        rw [if_neg other]
        exact ⟨used, rfl⟩
    · intro i used
      rw [record_setRecord]
      split
      · exact used
      · exact used
  unfold stamp
  dsimp only
  split
  · exact stamped.trans (within_shift _)
  · exact stamped

theorem within_evict (e : Nat) : Within cache (cache.evict e) := by
  refine ⟨rfl, ?_, ?_⟩
  · intro i keys used
    simp only [evict, record_setRecord] at used ⊢
    split at used
    · cases used
    · rename_i other
      rw [if_neg other]
      exact ⟨used, rfl⟩
  · intro i used
    simp only [evict, record_setRecord]
    split
    · exact used
    · exact used

theorem within_search {cache cache' : Cache F} (positive : 0 < cache.size) {keys : Keys} {e : Nat}
    (found : cache.searchMethodHash keys = some (e, cache')) : Within cache cache' := by
  rcases searchMethodHash_cases positive keys with ⟨e', ends, _⟩ | ⟨e', ends, _⟩ | ⟨ends, _⟩
  · rw [ends] at found
    cases found
    exact within_stamp cache e
  · rw [ends] at found
    cases found
    exact (within_evict cache e).trans (within_stamp _ e)
  · rw [ends] at found
    cases found

theorem record_stamp {cache : Cache F} (positive : 0 < cache.size) (e : Nat) :
    (cache.stamp e).record e = { cache.record e with gen := (cache.stamp e).generation } := by
  unfold stamp
  simp only [totalSize, setRecord]
  split
  · have young : ¬ cache.generation ≤ cache.generation / 2 := by omega
    simp only [shift, if_pos, if_neg young]
  · simp only [if_pos]

theorem key_stamp {cache : Cache F} (positive : 0 < cache.size) (e : Nat) :
    ((cache.stamp e).record e).key = (cache.record e).key := by rw [record_stamp positive]

theorem key_evict_stamp {cache : Cache F} (positive : 0 < cache.size) (e : Nat) :
    (((cache.evict e).stamp e).record e).key = none := by
  rw [@key_stamp F (cache.evict e) positive]
  simp only [evict, record_setRecord, if_pos]

end Ecl.Gfun.Cache
