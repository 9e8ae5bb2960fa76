import Ecl.Gfun.Availability

/- The records of the cache over its history: a key that was stored stays where a search finds it,
unless it is stored after the cache has been cleared behind the back of its search. -/
namespace Ecl.Gfun

open Cycle Cache Option Nat Prod

variable {F : Type}

theorem Cache.scan_leads {cache : Cache F} (positive : 0 < cache.size)
    (filled : ∀ i, (cache.record i).key ≠ none → (cache.record i).value ≠ .objnull) (keys : Keys)
    (start k j : Nat) (minGen : Int) (minE : Option Nat) {found : Bool} {e : Nat}
    (ends : cache.scan keys k (walk cache.size start j) minGen minE = (found, some e)) :
    minE = some e ∨ ∃ i < k, e = walk cache.size start (j + i) ∧
      ∀ h < i, (cache.record (walk cache.size start (j + h))).value ≠ .objnull := by
  induction k generalizing j minGen minE with
  | zero =>
    cases ends
    exact .inl rfl
  | succ k ih =>
    have here : walk cache.size start j = walk cache.size start (j + 0) := rfl
    have later {minGen : Int} {minE' : Option Nat}
        (rest : cache.scan keys k (walk cache.size start (j + 1)) minGen minE' = (found, some e))
        (used : (cache.record (walk cache.size start j)).value ≠ .objnull)
        (kept : minE' = minE ∨ minE' = some (walk cache.size start j)) :
        minE = some e ∨ ∃ i < k + 1, e = walk cache.size start (j + i) ∧
          ∀ h < i, (cache.record (walk cache.size start (j + h))).value ≠ .objnull := by
      rcases ih (j + 1) minGen minE' rest with before | ⟨i, below, same, passed⟩
      · rcases kept with old | now
        · exact .inl (old ▸ before)
        · rw [now, some.injEq] at before
          exact .inr ⟨0, succ_pos k, before.symm, fun h never => by cases never⟩
      · rw [add_assoc, add_comm 1 i] at same
        refine .inr ⟨i + 1, succ_lt_succ below, same, fun h before => ?_⟩
        cases h with
        | zero => exact used
        | succ h =>
          have value := passed h (lt_of_succ_lt_succ before)
          rwa [add_assoc, add_comm 1 h] at value
    have first : minE = some e ∨ some (walk cache.size start j) = some e → minE = some e ∨
        ∃ i < k + 1, e = walk cache.size start (j + i) ∧
          ∀ h < i, (cache.record (walk cache.size start (j + h))).value ≠ .objnull := by
      rintro (before | now)
      · exact .inl before
      · exact .inr ⟨0, succ_pos k, (some.inj now).symm, fun h never => by cases never⟩
    simp only [scan, next_walk positive] at ends
    split at ends
    · split at ends
      · exact first (.inr (congrArg snd ends))
      · rename_i used
        exact later ends (fun empty => used (by rw [empty])) (.inr rfl)
    · rename_i hkey key
      have used := filled (walk cache.size start j) (by rw [key]; simp)
      split at ends
      · exact first (.inr (congrArg snd ends))
      · split at ends
        · exact later ends used (.inr rfl)
        · exact later ends used (.inl rfl)

theorem Cache.search_leads {cache cache' : Cache F} (positive : 0 < cache.size)
    (filled : ∀ i, (cache.record i).key ≠ none → (cache.record i).value ≠ .objnull)
    {keys : Keys} {e : Nat}
    (found : cache.searchMethodHash keys = some (e, cache')) : cache.Leads keys e := by
  have first : walk cache.size (cache.start keys) 0 = cache.start keys :=
    walk_zero (start_lt positive keys)
  have leads {hit : Bool}
    (ends : cache.scan keys probes (cache.start keys) cache.generation none = (hit, some e)) :
      cache.Leads keys e := by
    rw [← first] at ends
    obtain ⟨i, below, same, passed⟩ :=
      (scan_leads positive filled keys _ _ 0 _ _ ends).resolve_left (by simp)
    rw [zero_add] at same
    refine ⟨i, below, same, fun h before => ?_⟩
    have value := passed h before
    rwa [zero_add] at value
  unfold searchMethodHash at found
  split at found
  · cases found
  · rename_i ends
    cases found
    exact leads ends
  · rename_i ends
    cases found
    exact leads ends

/-- The cache and what searches returned: keys with a record. A record is filled with keys that a
search returned it for; with forgets, no clear of all has come between. -/
def Op.recorded (forgets : Bool) (s : Cache F × List (Keys × Nat)) :
    Op F → Option (Cache F × List (Keys × Nat))
  | .search keys => (s.1.searchMethodHash keys).map fun (e, cache) => (cache, (keys, e) :: s.2)
  | .fill e keys func => if (keys, e) ∈ s.2 then some (s.1.fill e keys func, s.2) else none
  | .clear .all => some (s.1.doClearMethodHash .all, if forgets then [] else s.2)
  | .clear target => some (s.1.doClearMethodHash target, s.2)

/-- Steps one after the other. -/
def history (forgets : Bool) :
    List (Op F) → Cache F × List (Keys × Nat) → Option (Cache F × List (Keys × Nat))
  | [], s => some s
  | op :: ops, s => (op.recorded forgets s).bind (history forgets ops)

/-- The record that a search returns has the new generation and is what it was, but that its key was
taken out if it is another one; generations are not ahead; a key that is stored is found. -/
structure Cache.Sound (cache : Cache F) : Prop where
  returned : ∀ keys e cache', cache.searchMethodHash keys = some (e, cache') →
    ∃ key, cache'.record e = ⟨key, (cache.record e).value, cache'.generation⟩ ∧
      (key = none ∨ key = some keys ∧ (cache.record e).key = some keys)
  gens : ∀ i, (cache.record i).gen ≤ cache.generation
  hits : ∀ i keys, (cache.record i).key = some keys → cache.Leads keys i ∧
    ∃ e cache', cache.searchMethodHash keys = some (e, cache') ∧ (cache.record e).key = some keys

theorem Aged.sound {cache : Cache F} {touched : List Nat} (positive : 0 < cache.size)
    (aged : Aged cache touched) :
    cache.Sound where
  returned keys e cache' found := by
    rcases searchMethodHash_cases positive keys with ⟨e', ends, key, _⟩ | ⟨e', ends, _⟩ | ⟨ends, _⟩
    · rw [ends] at found
      cases found
      exact ⟨_, record_stamp positive e, .inr ⟨key, key⟩⟩
    · rw [ends] at found
      cases found
      rw [@record_stamp F (cache.evict e) positive]
      exact ⟨none, by simp only [Cache.evict, Cache.setRecord, if_pos], .inl rfl⟩
    · rw [ends] at found
      cases found
  gens := aged.gens
  hits i keys key := by
    have leads := aged.leads i keys key
    rcases searchMethodHash_cases positive
      keys with ⟨e, ends, key, _⟩ | ⟨_, _, _, absent⟩ | ⟨_, _, absent⟩
    · exact ⟨leads, e, _, ends, key⟩
    · exact absurd key (absent i leads)
    · exact absurd key (absent i leads)

/-- What a step preserves: the invariant, and that a search gets to the records that were returned.
-/
theorem recorded_aged {s s' : Cache F × List (Keys × Nat)} {touched : List Nat}
    (positive : 0 < s.1.size)
    (aged : Aged s.1 touched) (leads : ∀ keys e, (keys, e) ∈ s.2 → s.1.Leads keys e) {op : Op F}
    (step : op.recorded true s = some s') :
    s'.1.size = s.1.size ∧ (∃ touched', Aged s'.1 touched') ∧ ∀ keys e, (keys, e) ∈ s'.2 →
      s'.1.Leads keys e := by
  cases op with
  | search keys =>
    simp only [Op.recorded, map_eq_some_iff] at step
    obtain ⟨⟨e, cache'⟩, found, rfl⟩ := step
    have within := within_search positive found
    refine ⟨within.size, ⟨_, aged.search positive found⟩, fun keys' e' member => ?_⟩
    rcases List.mem_cons.mp member with same | old
    · cases same
      exact (search_leads positive aged.filled found).within within
    · exact (leads keys' e' old).within within
  | fill e keys func =>
    simp only [Op.recorded] at step
    split at step
    · rename_i member
      cases step
      exact ⟨rfl, ⟨_, aged.fill (leads keys e member) func⟩, fun keys' e' old =>
        (leads keys' e' old).fill e keys func⟩
    · cases step
  | clear target =>
    cases target with
    | all =>
      cases step
      exact ⟨rfl, ⟨_, aged_of_empty fun _ => rfl⟩, fun _ _ never => by cases never⟩
    | function gf =>
      cases step
      exact ⟨rfl, ⟨_, aged.clearFunction gf⟩, fun keys e old =>
        (leads keys e old).within (within_clear _ gf)⟩

theorem history_aged {ops : List (Op F)} {s s' : Cache F × List (Keys × Nat)} {touched : List Nat}
    (positive : 0 < s.1.size) (aged : Aged s.1 touched)
    (leads : ∀ keys e, (keys, e) ∈ s.2 → s.1.Leads keys e)
    (run : history true ops s = some s') :
      s'.1.size = s.1.size ∧ ∃ touched', Aged s'.1 touched' := by
  induction ops generalizing s touched with
  | nil =>
    cases run
    exact ⟨rfl, touched, aged⟩
  | cons op ops ih =>
    obtain ⟨middle, step, rest⟩ := bind_eq_some_iff.mp run
    obtain ⟨size, ⟨_, aged'⟩, leads'⟩ := recorded_aged positive aged leads step
    obtain ⟨size', ended⟩ := ih (size ▸ positive) aged' leads' rest
    exact ⟨size'.trans size, ended⟩

theorem records_sound {size : Nat} (positive : 0 < size) {ops : List (Op F)}
    {s : Cache F × List (Keys × Nat)}
    (run : history true ops (Cache.cleared size, []) = some s) : s.1.Sound := by
  obtain ⟨same, _, aged⟩ := history_aged (s := (Cache.cleared size, [])) positive
    (aged_of_empty fun _ => rfl) (fun _ _ never => by cases never) run
  exact aged.sound (same ▸ positive)

/-- The record of the first of the specializers is filled, and the next one is searched for. -/
def storing : List (Op Unit) :=
  [.search (keysOf 0x20FFD0#64), .fill 2198 (keysOf 0x20FFD0#64) (), .search (keysOf 0x2125B0#64)]

theorem records_sound_filled :
    ∃ s, history true storing (Cache.cleared methodHashSize, []) = some s ∧
    s.1.Sound := by
  have done :
    (history true storing (Cache.cleared methodHashSize, [])).isSome = true := by decide +kernel
  obtain ⟨s, run⟩ := Option.isSome_iff_exists.mp done
  exact ⟨s, run, records_sound (by decide) run⟩

/-- The second search returns the second record of the path, which is filled when the first one is
empty again. -/
theorem stored_behind_empty : ¬ ∀ (ops : List (Op Unit)) (s : Cache Unit × List (Keys × Nat)),
    history false ops (Cache.cleared methodHashSize, []) = some s → s.1.Sound := by
  intro all
  have run : ((history false (storing ++ [.clear .all, .fill 2199 (keysOf 0x2125B0#64) ()])
      (Cache.cleared methodHashSize, [])).map fun s => ((s.1.record 2199).key,
        (s.1.searchMethodHash (keysOf 0x2125B0#64)).map fun found => (s.1.record found.1).key)) =
      some (some (keysOf 0x2125B0#64), some none) := by
    decide +kernel
  obtain ⟨s, reached, ends⟩ := Option.map_eq_some_iff.mp run
  obtain ⟨key, missed⟩ := Prod.mk.inj ends
  obtain ⟨_, e, cache', found, hit⟩ := (all _ s reached).hits 2199 _ key
  rw [found] at missed
  cases hit.symm.trans (Option.some.inj missed)

end Ecl.Gfun
