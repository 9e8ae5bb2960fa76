import Ecl.Gfun.Cache

/- A search through the cache finds a record in every history of searches, fills and
clears, unless all records that it looks at were used since the last miss. -/
namespace Ecl.Gfun

open Cycle Ecl.Equality List Option

variable {F : Type}

/-- A cache and the records hit, filled or set free since the last miss or clear of all. -/
structure Watched (F : Type) where
  cache : Cache F
  touched : List Nat

/-- What the dispatcher does with the cache. -/
inductive Op (F : Type) where
  | search (keys : Keys)
  | fill (e : Nat) (keys : Keys) (func : F)
  | clear (target : Cache.Target)

namespace Op

def run (w : Watched F) : Op F → Option (Watched F)
  | .search keys =>
    (w.cache.searchMethodHash keys).map fun (e, cache) =>
      ⟨cache, if (cache.record e).key = none then [e] else e :: w.touched⟩
  | .fill e keys func => some ⟨w.cache.fill e keys func, e :: w.touched⟩
  | .clear .all => some ⟨w.cache.doClearMethodHash .all, []⟩
  | .clear (.function gf) => some ⟨w.cache.doClearMethodHash (.function gf), w.touched⟩

/-- A key that is not on its path has a record on it that was not used since the last miss,
and a record is filled with a key whose search gets to it. -/
def Meets (w : Watched F) : Op F → Prop
  | .search keys =>
    w.cache.OnPath keys ∨ ∃ j < Cache.probes, w.cache.path keys j ∉ w.touched
  | .fill e keys _ => w.cache.Leads keys e
  | .clear _ => True

end Op

/-- The caches of a thread, from the cleared one on. -/
inductive Reachable (size : Nat) (allowed : Watched F → Op F → Prop) : Watched F → Prop where
  | cleared : Reachable size allowed ⟨Cache.cleared size, []⟩
  | step {w w' : Watched F} (op : Op F) (reached : Reachable size allowed w)
      (meets : allowed w op) (run : op.run w = some w') : Reachable size allowed w'

/-- Generations are not ahead of the current one, which only records that were touched
have; and every key is where its search finds it. -/
structure Aged (cache : Cache F) (touched : List Nat) : Prop where
  gens : ∀ i, (cache.record i).gen ≤ cache.generation
  current : ∀ i, (cache.record i).key ≠ none → (cache.record i).gen = cache.generation →
    i ∈ touched
  filled : ∀ i, (cache.record i).key ≠ none → (cache.record i).value ≠ .objnull
  leads : ∀ i keys, (cache.record i).key = some keys → cache.Leads keys i

theorem Cache.path_congr {cache cache' : Cache F} (size : cache'.size = cache.size) (keys : Keys)
    (j : Nat) : cache'.path keys j = cache.path keys j := by
  unfold Cache.path Cache.start Cache.totalSize
  rw [size]

theorem Cache.Leads.within {cache cache' : Cache F} (within : Cache.Within cache cache')
    {keys : Keys} {e : Nat} (leads : cache.Leads keys e) : cache'.Leads keys e := by
  obtain ⟨j, below, rfl, used⟩ := leads
  refine ⟨j, below, (Cache.path_congr within.size keys j).symm, ?_⟩
  intro h before
  rw [Cache.path_congr within.size]
  exact within.value _ (used h before)

theorem Cache.Leads.fill {cache : Cache F} {other : Keys} {i : Nat}
    (leads : cache.Leads other i) (e : Nat)
    (keys : Keys) (func : F) : (cache.fill e keys func).Leads other i := by
  obtain ⟨j, below, same, used⟩ := leads
  refine ⟨j, below, same, fun h before => ?_⟩
  rw [Cache.fill, Cache.record_setRecord]
  split
  · simp
  · exact used h before

theorem Cache.record_clear (cache : Cache F) (gf : Word) (i : Nat) :
    (cache.doClearMethodHash (.function gf)).record i = cache.record i ∨
      (cache.doClearMethodHash (.function gf)).record i = { cache.record i with
        key := none, gen := 0 } := by
  simp only [Cache.doClearMethodHash]
  split
  · exact .inl rfl
  · split
    · exact .inr rfl
    · exact .inl rfl

theorem Cache.within_clear (cache : Cache F) (gf : Word) :
    Cache.Within cache (cache.doClearMethodHash (.function gf)) := by
  refine ⟨rfl, ?_, ?_⟩
  · intro i keys used
    rcases cache.record_clear gf i with same | gone
    · rw [same] at used ⊢
      exact ⟨used, rfl⟩
    · rw [gone] at used
      cases used
  · intro i used
    rcases cache.record_clear gf i with same | gone
    · rw [same]
      exact used
    · rw [gone]
      exact used

namespace Aged

variable {cache : Cache F} {touched : List Nat} (aged : Aged cache touched)

include aged

theorem within {cache' : Cache F} {touched' : List Nat} (within : Cache.Within cache cache')
    (gens : ∀ i, (cache'.record i).gen ≤ cache'.generation)
    (current : ∀ i, (cache'.record i).key ≠ none →
      (cache'.record i).gen = cache'.generation → i ∈ touched') : Aged cache' touched' where
  gens := gens
  current := current
  filled i used := by
    obtain ⟨keys, key⟩ := ne_none_iff_exists'.mp used
    obtain ⟨before, value⟩ := within.key i keys key
    rw [value]
    exact aged.filled i (by rw [before]; simp)
  leads i keys key := (aged.leads i keys (within.key i keys key).1).within within

theorem shift : Aged cache.shift touched := by
  apply aged.within (Cache.within_shift cache)
  · intro i
    have before := aged.gens i
    simp only [Cache.shift]
    split
    · exact Nat.zero_le _
    · exact Nat.sub_le_sub_right before _
  · intro i used same
    have before := aged.gens i
    simp only [Cache.shift] at used same
    split at used
    · exact absurd rfl used
    · rename_i young
      rw [if_neg young] at same
      refine aged.current i used ?_
      dsimp only at same
      omega

theorem stamp (e : Nat) : Aged (cache.stamp e) (e :: touched) := by
  have stamped : Aged (cache.setRecord e fun r => { r with gen := cache.generation })
      (e :: touched) := by
    refine ⟨?_, ?_, ?_, ?_⟩
    · intro i
      rw [Cache.record_setRecord]
      split
      · exact Nat.le_refl _
      · exact aged.gens i
    · intro i used same
      rw [Cache.record_setRecord] at used same
      by_cases self : i = e
      · rw [self]
        exact mem_cons_self
      · rw [if_neg self] at used same
        exact mem_cons_of_mem e (aged.current i used same)
    · intro i
      rw [Cache.record_setRecord]
      split
      · exact aged.filled i
      · exact aged.filled i
    · intro i keys key
      rw [Cache.record_setRecord] at key
      have before : (cache.record i).key = some keys := by
        split at key
        · exact key
        · exact key
      obtain ⟨j, below, same, used⟩ := aged.leads i keys before
      refine ⟨j, below, same, ?_⟩
      intro h earlier
      have value := used h earlier
      rw [Cache.record_setRecord]
      split
      · exact value
      · exact value
  unfold Cache.stamp
  dsimp only
  split
  · exact stamped.shift
  · exact stamped

theorem evict (e : Nat) : Aged (cache.evict e) [] := by
  have gens (i : Nat) : ((cache.evict e).record i).gen ≤ cache.generation := by
    simp only [Cache.evict, Cache.record_setRecord]
    split
    · exact aged.gens i
    · exact aged.gens i
  apply aged.within (Cache.within_evict cache e)
  · intro i
    exact Nat.le_succ_of_le (gens i)
  · intro i _ same
    have before := gens i
    rw [same] at before
    exact absurd before (Nat.not_succ_le_self _)

theorem fill {e : Nat} {keys : Keys} (leads : cache.Leads keys e) (func : F) :
    Aged (cache.fill e keys func) (e :: touched) := by
  refine ⟨?_, ?_, ?_, ?_⟩
  · intro i
    rw [Cache.fill, Cache.record_setRecord]
    split
    · exact aged.gens i
    · exact aged.gens i
  · intro i used same
    rw [Cache.fill, Cache.record_setRecord] at used same
    by_cases self : i = e
    · rw [self]
      exact mem_cons_self
    · rw [if_neg self] at used same
      exact mem_cons_of_mem e (aged.current i used same)
  · intro i used
    rw [Cache.fill, Cache.record_setRecord] at used ⊢
    split
    · simp
    · rename_i other
      rw [if_neg other] at used
      exact aged.filled i used
  · intro i other key
    rw [Cache.fill, Cache.record_setRecord] at key
    split at key
    · rename_i self
      cases key
      rw [self]
      exact leads.fill e keys func
    · exact (aged.leads i other key).fill e keys func

theorem clearFunction (gf : Word) : Aged (cache.doClearMethodHash (.function gf)) touched := by
  apply aged.within (cache.within_clear gf)
  · intro i
    rcases cache.record_clear gf i with same | gone
    · rw [same]
      exact aged.gens i
    · rw [gone]
      exact Nat.zero_le _
  · intro i used same
    rcases cache.record_clear gf i with kept | gone
    · rw [kept] at used same
      exact aged.current i used same
    · rw [gone] at used
      exact absurd rfl used

end Aged

theorem aged_of_empty {cache : Cache F} (empty : ∀ i, cache.record i = Cache.emptyRecord) :
    Aged cache [] where
  gens i := by
    rw [empty]
    exact Nat.zero_le _
  current i used := by
    rw [empty] at used
    exact absurd rfl used
  filled i used := by
    rw [empty] at used
    exact absurd rfl used
  leads i keys key := by
    rw [empty] at key
    cases key

theorem Aged.search {cache cache' : Cache F} {touched : List Nat} (positive : 0 < cache.size)
    (aged : Aged cache touched) {keys : Keys} {e : Nat}
    (found : cache.searchMethodHash keys = some (e, cache')) :
    Aged cache' (if (cache'.record e).key = none then [e] else e :: touched) := by
  rcases Cache.searchMethodHash_cases positive keys with
    ⟨e', ends, key, _⟩ | ⟨e', ends, _⟩ | ⟨ends, _⟩
  · rw [ends] at found
    cases found
    have used : ((cache.stamp e).record e).key ≠ none := by
      rw [Cache.key_stamp positive, key]
      simp
    rw [if_neg used]
    exact aged.stamp e
  · rw [ends] at found
    cases found
    rw [if_pos (Cache.key_evict_stamp positive e)]
    exact (aged.evict e).stamp e
  · rw [ends] at found
    cases found

theorem Aged.run {w w' : Watched F} (positive : 0 < w.cache.size) (aged : Aged w.cache w.touched)
    {op : Op F} (meets : op.Meets w) (run : op.run w = some w') :
    Aged w'.cache w'.touched ∧ w'.cache.size = w.cache.size := by
  cases op with
  | search keys =>
    simp only [Op.run, map_eq_some_iff] at run
    obtain ⟨⟨e, cache⟩, found, rfl⟩ := run
    exact ⟨aged.search positive found, (Cache.within_search positive found).size⟩
  | fill e keys func =>
    cases run
    exact ⟨aged.fill meets func, rfl⟩
  | clear target =>
    cases target with
    | all =>
      cases run
      exact ⟨aged_of_empty fun _ => rfl, rfl⟩
    | function gf =>
      cases run
      exact ⟨aged.clearFunction gf, rfl⟩

theorem Reachable.aged {size : Nat} (positive : 0 < size) {w : Watched F}
    (reached : Reachable size Op.Meets w) : Aged w.cache w.touched ∧ w.cache.size = size := by
  induction reached with
  | cleared => exact ⟨aged_of_empty fun _ => rfl, rfl⟩
  | step op _ meets run ih =>
    obtain ⟨aged, same⟩ := ih
    obtain ⟨aged', same'⟩ := aged.run (by rw [same]; exact positive) meets run
    exact ⟨aged', same'.trans same⟩

/-- The search ends with a record: the one that holds the key, if one does on the path, or
a record that was set free. -/
def Available (cache : Cache F) (keys : Keys) : Prop :=
  ∃ e cache', cache.searchMethodHash keys = some (e, cache') ∧
    (∃ j < Cache.probes, e = cache.path keys j) ∧
    (cache.OnPath keys → (cache.record e).key = some keys ∧ (cache'.record e).key = some keys ∧
      (cache'.record e).value = (cache.record e).value) ∧
    (¬ cache.OnPath keys → (cache'.record e).key = none)

theorem search_available {size : Nat} (positive : 0 < size) {w : Watched F}
    (reached : Reachable size Op.Meets w) {keys : Keys} (meets : (Op.search keys).Meets w) :
    Available w.cache keys := by
  obtain ⟨aged, same⟩ := reached.aged positive
  have inside : 0 < w.cache.size := by
    rw [same]
    exact positive
  have leads (onPath : w.cache.OnPath keys) :
      ∃ i, w.cache.Leads keys i ∧ (w.cache.record i).key = some keys := by
    obtain ⟨j, _, key⟩ := onPath
    exact ⟨_, aged.leads _ keys key, key⟩
  rcases Cache.searchMethodHash_cases inside keys with
    ⟨e, ends, key, j, below, onPath⟩ | ⟨e, ends, victim, absent⟩ | ⟨ends, used, absent⟩
  · refine ⟨e, _, ends, ⟨j, below, onPath⟩, ?_, ?_⟩
    · intro _
      have stamped : ((w.cache.stamp e).record e).key = some keys := by
        rw [Cache.key_stamp inside, key]
      exact ⟨key, stamped, ((Cache.within_stamp w.cache e).key e keys stamped).2⟩
    · intro missing
      exact absurd ⟨j, below, onPath ▸ key⟩ missing
  · refine ⟨e, _, ends, victim, ?_, fun _ => Cache.key_evict_stamp inside e⟩
    intro onPath
    obtain ⟨i, leads, key⟩ := leads onPath
    exact absurd key (absent i leads)
  · -- all records of the path carry the current generation, so all were touched
    exfalso
    rcases meets with onPath | ⟨j, below, untouched⟩
    · obtain ⟨i, leads, key⟩ := leads onPath
      exact absent i leads key
    · obtain ⟨key, gen⟩ := used j below
      exact untouched (aged.current _ key (Nat.le_antisymm (aged.gens _) gen))

/-- The spec vector of a call with one specialized argument. -/
def keysOf (specializer : Word) : Keys := [0x100000#64, specializer]

theorem search_available_cleared :
    Available (F := Unit) (Cache.cleared methodHashSize) (keysOf 0x200000#64) :=
  search_available (by decide) Reachable.cleared (.inr ⟨0, by decide, List.not_mem_nil⟩)

/-- A dispatch without others inside: the search, and the record is filled after a miss. -/
def Cache.dispatch (cache : Cache F) (keys : Keys) (func : F) : Option (Cache F) :=
  match cache.searchMethodHash keys with
  | none => none
  | some (e, cache) =>
    if (cache.record e).key = none then some (cache.fill e keys func) else some cache

/-- Specializers that a generic function is called with, whose searches begin at one
record. -/
def specializers : List Word :=
  [65488, 75184, 86608, 91328, 96144, 97552, 161520, 212640, 216320, 225296, 295904, 298800,
    299792, 302368, 373760, 414832, 459696, 463904, 479696, 510928].map
    fun offset => BitVec.ofNat 64 (0x200000 + offset)

/-- Dispatches one after the other. -/
def Cache.dispatchAll (cache : Cache F) (func : F) : List Keys → Option (Cache F)
  | [] => some cache
  | keys :: calls =>
    match cache.dispatch keys func with
    | none => none
    | some cache => cache.dispatchAll func calls

theorem Reachable.dispatchAll {size : Nat} {w : Watched F}
    (reached : Reachable size (fun _ _ => True) w) {func : F} {calls : List Keys} {cache : Cache F}
    (run : w.cache.dispatchAll func calls = some cache) :
    ∃ touched, Reachable size (fun _ _ => True) ⟨cache, touched⟩ := by
  induction calls generalizing w with
  | nil =>
    cases run
    exact ⟨w.touched, reached⟩
  | cons keys calls ih =>
    simp only [Cache.dispatchAll, Cache.dispatch] at run
    cases found : w.cache.searchMethodHash keys with
    | none =>
      rw [found] at run
      cases run
    | some result =>
      obtain ⟨e, cache'⟩ := result
      have searched : Reachable size (fun _ _ => True) ⟨cache',
          if (cache'.record e).key = none then [e] else e :: w.touched⟩ := by
        apply Reachable.step (.search keys) reached trivial
        simp only [Op.run, found, map_some]
      simp only [found] at run
      split at run
      · cases run
      · rename_i next dispatched
        split at dispatched
        · cases dispatched
          exact ih (Reachable.step (.fill e keys func) searched trivial rfl) run
        · cases dispatched
          exact ih searched run

/-- All records of the path are hit after the last miss; then a new key has no victim. -/
theorem search_unavailable :
    ∃ w : Watched Unit, Reachable methodHashSize (fun _ _ => True) w ∧
      ¬ Available w.cache (keysOf (BitVec.ofNat 64 (0x200000 + 556576))) := by
  have run : (((Cache.cleared methodHashSize).dispatchAll ()
      ((specializers ++ specializers).map keysOf)).map fun cache =>
        (cache.searchMethodHash (keysOf (BitVec.ofNat 64 (0x200000 + 556576)))).isNone) =
      some true := by
    decide +kernel
  obtain ⟨cache, dispatched, fails⟩ := Option.map_eq_some_iff.mp run
  obtain ⟨touched, reached⟩ := Reachable.cleared.dispatchAll dispatched
  refine ⟨⟨cache, touched⟩, reached, ?_⟩
  rintro ⟨e, cache', found, _⟩
  rw [found] at fails
  cases fails

end Ecl.Gfun
