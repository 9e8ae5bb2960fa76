import Ecl.Gfun.Dispatch

/- No request to clear the cache is lost, unless it is carried out inside the computation of
an effective method that has read its methods before. -/
namespace Ecl.Gfun

open Ecl.Equality Cache List Nat Option

/-- Records in use were in use, with the same key and value. -/
structure Fewer (cache cache' : Cache Method) : Prop where
  size : cache'.size = cache.size
  key : ∀ i keys, (cache'.record i).key = some keys → (cache.record i).key = some keys ∧
    (cache'.record i).value = (cache.record i).value

namespace Fewer

theorem refl (cache : Cache Method) : Fewer cache cache := ⟨rfl, fun _ _ key => ⟨key, rfl⟩⟩

theorem trans {first second third : Cache Method} (one : Fewer first second)
    (two : Fewer second third) : Fewer first third where
  size := two.size.trans one.size
  key i keys used := by
    obtain ⟨key, value⟩ := two.key i keys used
    obtain ⟨key', value'⟩ := one.key i keys key
    exact ⟨key', value.trans value'⟩

theorem search {cache cache' : Cache Method} (positive : 0 < cache.size) {keys : Keys} {e : Nat}
    (found : cache.searchMethodHash keys = some (e, cache')) : Fewer cache cache' :=
  have within := within_search positive found
  ⟨within.size, within.key⟩

theorem doClearMethodHash (cache : Cache Method) (target : Target) :
    Fewer cache (cache.doClearMethodHash target) := by
  cases target with
  | all =>
    refine ⟨rfl, ?_⟩
    intro i keys used
    cases used
  | function gf =>
    refine ⟨rfl, ?_⟩
    intro i keys used
    simp only [Cache.doClearMethodHash] at used ⊢
    split at used
    · rename_i free
      rw [free] at used
      cases used
    · rename_i key here
      split at used
      · cases used
      · rename_i other
        exact ⟨used, by simp only [if_neg other]⟩

theorem clearAll (cache : Cache Method) (list : List Target) :
    Fewer cache (list.foldl Cache.doClearMethodHash cache) := by
  induction list generalizing cache with
  | nil => exact refl cache
  | cons target list ih => exact (doClearMethodHash cache target).trans (ih _)

end Fewer

def Requested (list : List Target) (gf : Word) : Prop := .all ∈ list ∨ .function gf ∈ list

variable {cache : Cache Method} {gf : Word}

theorem key_doClearMethodHash {target : Target}
    (wanted : target = .all ∨ target = .function gf) {i : Nat} {keys : Keys}
    (used : ((cache.doClearMethodHash target).record i).key = some keys) :
      keys.head? ≠ some gf := by
  rcases wanted with rfl | rfl
  · cases used
  · simp only [Cache.doClearMethodHash] at used
    split at used
    · rename_i free
      rw [free] at used
      cases used
    · rename_i key here
      split at used
      · cases used
      · rename_i other
        rw [here, some.injEq] at used
        exact used ▸ other

theorem key_clearAll {list : List Target} (requested : Requested list gf) {i : Nat} {keys : Keys}
    (used : ((list.foldl Cache.doClearMethodHash cache).record i).key = some keys) :
    keys.head? ≠ some gf := by
  induction list generalizing cache with
  | nil => rcases requested with none | none <;> cases none
  | cons target list ih =>
    by_cases here : target = .all ∨ target = .function gf
    · have before := ((Fewer.clearAll (cache.doClearMethodHash target) list).key i keys used).1
      exact key_doClearMethodHash here before
    · rw [not_or] at here
      apply ih ?_ used
      rcases requested with all | function
      · exact .inl ((mem_cons.mp all).resolve_left (Ne.symm here.1))
      · exact .inr ((mem_cons.mp function).resolve_left (Ne.symm here.2))

/-- All values of the function in the cache were computed from methods of a version. -/
def FreshFrom (cache : Cache Method) (gf : Word) (version : Nat) : Prop :=
  ∀ i keys method, (cache.record i).key = some keys → keys.head? = some gf →
    (cache.record i).value = .function method → version ≤ method.version

theorem FreshFrom.fewer {cache' : Cache Method} (fewer : Fewer cache cache')
    {version : Nat} (fresh : FreshFrom cache gf version) : FreshFrom cache' gf version := by
  intro i keys method key head value
  obtain ⟨before, same⟩ := fewer.key i keys key
  exact fresh i keys method before head (same ▸ value)

theorem FreshFrom.fill {version : Nat}
    (fresh : FreshFrom cache gf version) {e : Nat} {call : Call} {method : Method}
    (new : call.gf = gf → version ≤ method.version) :
    FreshFrom (cache.fill e call.keys method) gf version := by
  intro i keys other key head value
  rw [Cache.fill, record_setRecord] at key value
  split at key
  · rename_i self
    rw [if_pos self] at value
    cases key
    cases value
    exact new (some.inj head)
  · rename_i different
    rw [if_neg different] at value
    exact fresh i keys other key head value

/-- What is stale is still asked to be cleared. -/
structure Valid (thread : Thread) : Prop where
  positive : 0 < thread.cache.size
  records : ∀ gf, ¬ Requested thread.clearList gf →
    FreshFrom thread.cache gf (thread.requests gf)
  started : ∀ p ∈ thread.pending, p.started ≤ thread.requests p.call.gf
  reads : ∀ p ∈ thread.pending, ∀ record version, p.phase = .computing record (some version) →
    p.started ≤ version ∧
      (¬ Requested thread.clearList p.call.gf → thread.requests p.call.gf ≤ version)
  entered : ∀ p rest, thread.pending = p :: rest → p.phase = .entered →
    FreshFrom thread.cache p.call.gf p.started
  later : ∀ p rest, thread.pending = p :: rest → ∀ q ∈ rest, q.phase ≠ .entered
  log : ∀ ran ∈ thread.log, ran.started ≤ ran.method.version

/-- No request for a function was issued since a dispatch of it that is under way has read
the methods. -/
def Undisturbed (thread : Thread) : Step → Prop
  | .enter _ => ∀ p ∈ thread.pending, ∀ record version,
      p.phase = .computing record (some version) → thread.requests p.call.gf ≤ version
  | _ => True

namespace Valid

variable {thread : Thread} (valid : Valid thread)

include valid

theorem request (target : Target) : Valid (thread.request target) where
  positive := valid.positive
  records gf untouched := by
    have other : ¬ (target = .all ∨ target = .function gf) := by
      rintro (rfl | rfl)
      · exact untouched (.inl mem_cons_self)
      · exact untouched (.inr mem_cons_self)
    have before : ¬ Requested thread.clearList gf := by
      intro requested
      exact untouched (requested.imp (mem_cons_of_mem _) (mem_cons_of_mem _))
    have same : (thread.request target).requests gf = thread.requests gf := if_neg other
    rw [same]
    exact valid.records gf before
  started p member := by
    apply le_trans (valid.started p member)
    simp only [Thread.request]
    split
    · exact le_succ _
    · exact le_refl _
  reads p member record version computing := by
    obtain ⟨after, fresh⟩ := valid.reads p member record version computing
    refine ⟨after, ?_⟩
    intro untouched
    have other : ¬ (target = .all ∨ target = .function p.call.gf) := by
      rintro (rfl | same)
      · exact untouched (.inl mem_cons_self)
      · rw [same] at untouched
        exact untouched (.inr mem_cons_self)
    have same : (thread.request target).requests p.call.gf = thread.requests p.call.gf :=
      if_neg other
    rw [same]
    apply fresh
    intro requested
    exact untouched (requested.imp (mem_cons_of_mem _) (mem_cons_of_mem _))
  entered := valid.entered
  later := valid.later
  log := valid.log

variable {thread' : Thread}

theorem enter {call : Call} (undisturbed : Undisturbed thread (.enter call))
    (run : thread.enter call = some thread') : Valid thread' := by
  have top : (∀ p rest, thread.pending = p :: rest → p.phase ≠ .entered) ∧
      thread' = { thread.processClearList with
        pending := ⟨call, thread.requests call.gf, .entered⟩ :: thread.pending } := by
    unfold Thread.enter at run
    split at run
    · cases run
    · rename_i free
      cases run
      refine ⟨?_, rfl⟩
      intro p rest same entered
      obtain ⟨call', started, phase⟩ := p
      cases entered
      exact free _ _ _ same
  obtain ⟨computing, rfl⟩ := top
  have fewer := Fewer.clearAll thread.cache thread.clearList
  -- what was asked for is gone, and the rest was fresh
  have fresh (gf : Word) : FreshFrom (thread.clearList.foldl doClearMethodHash thread.cache) gf
      (thread.requests gf) := by
    by_cases requested : Requested thread.clearList gf
    · intro i keys method key head _
      exact absurd head (key_clearAll requested key)
    · exact (valid.records gf requested).fewer fewer
  refine ⟨?_, fun gf _ => fresh gf, ?_, ?_, ?_, ?_, valid.log⟩
  · show 0 < (thread.clearList.foldl doClearMethodHash thread.cache).size
    rw [fewer.size]
    exact valid.positive
  · intro p member
    rcases mem_cons.mp member with rfl | old
    · exact le_refl _
    · exact valid.started p old
  · intro p member record version phase
    rcases mem_cons.mp member with rfl | old
    · cases phase
    · exact ⟨(valid.reads p old record version phase).1,
        fun _ => undisturbed p old record version phase⟩
  · intro p rest same _
    cases same
    exact fresh call.gf
  · intro p rest same q member
    cases same
    cases waiting : thread.pending with
    | nil =>
      rw [waiting] at member
      cases member
    | cons first others =>
      rw [waiting] at member
      rcases mem_cons.mp member with rfl | old
      · exact computing q others waiting
      · exact valid.later first others waiting q old

theorem replace {p : Pending} {rest pending : List Pending}
    (waiting : thread.pending = p :: rest) (same : thread'.pending = pending)
    (within : pending = rest ∨ ∃ phase, pending = ⟨p.call, p.started, phase⟩ :: rest ∧
      phase ≠ .entered ∧ ∀ record version, phase = .computing record (some version) →
        p.started ≤ version ∧
          (¬ Requested thread.clearList p.call.gf → thread.requests p.call.gf ≤ version))
    (clearList : thread'.clearList = thread.clearList)
    (requests : thread'.requests = thread.requests) (positive : 0 < thread'.cache.size)
    (records : ∀ gf, ¬ Requested thread.clearList gf →
      FreshFrom thread'.cache gf (thread.requests gf))
    (log : ∀ ran ∈ thread'.log, ran.started ≤ ran.method.version) : Valid thread' := by
  have later := valid.later p rest waiting
  have inside {q : Pending} (member : q ∈ rest) : q ∈ thread.pending := by
    rw [waiting]
    exact mem_cons_of_mem p member
  have first : p ∈ thread.pending := by
    rw [waiting]
    exact mem_cons_self
  refine ⟨positive, ?_, ?_, ?_, ?_, ?_, log⟩
  · intro gf
    rw [clearList, requests]
    exact records gf
  · intro q member
    rw [requests]
    rw [same] at member
    rcases within with rfl | ⟨phase, rfl, _, _⟩
    · exact valid.started q (inside member)
    · rcases mem_cons.mp member with rfl | old
      · exact valid.started p first
      · exact valid.started q (inside old)
  · intro q member record version computing
    rw [requests, clearList]
    rw [same] at member
    rcases within with rfl | ⟨phase, rfl, _, reads⟩
    · exact valid.reads q (inside member) record version computing
    · rcases mem_cons.mp member with rfl | old
      · exact reads record version computing
      · exact valid.reads q (inside old) record version computing
  · intro q others shape entered
    rw [same] at shape
    rcases within with rfl | ⟨phase, rfl, computing, _⟩
    · rw [shape] at later
      exact absurd entered (later q mem_cons_self)
    · cases shape
      exact absurd entered computing
  · intro q others shape r member
    rw [same] at shape
    rcases within with rfl | ⟨phase, rfl, _, _⟩
    · rw [shape] at later
      exact later r (mem_cons_of_mem q member)
    · cases shape
      exact later r member

theorem look (run : thread.look = some thread') : Valid thread' := by
  unfold Thread.look at run
  split at run
  · rename_i call started rest waiting
    have fresh := valid.entered _ _ waiting rfl
    have computes (record : Option Nat) :
        ∃ phase, (⟨call, started, .computing record none⟩ : Pending) :: rest =
          ⟨call, started, phase⟩ :: rest ∧ phase ≠ .entered ∧
          ∀ record version, phase = .computing record (some version) → started ≤ version ∧
            (¬ Requested thread.clearList call.gf → thread.requests call.gf ≤ version) :=
      ⟨_, rfl, by simp, by simp⟩
    split at run
    · cases run
      exact valid.replace waiting rfl (.inr (computes none)) rfl rfl valid.positive valid.records
        valid.log
    · split at run
      · cases run
        exact valid.replace waiting rfl (.inl rfl) rfl rfl valid.positive valid.records valid.log
      · split at run
        · cases run
        · rename_i e cache found
          have fewer := Fewer.search valid.positive found
          have positive : 0 < cache.size := by
            rw [fewer.size]
            exact valid.positive
          have records (gf : Word) (untouched : ¬ Requested thread.clearList gf) :
              FreshFrom cache gf (thread.requests gf) :=
            (valid.records gf untouched).fewer fewer
          dsimp only at run
          split at run
          · cases run
            exact valid.replace waiting rfl (.inr (computes (some e))) rfl rfl positive records
              valid.log
          · rename_i keys key
            split at run
            · rename_i method value
              cases run
              refine valid.replace waiting rfl (.inl rfl) rfl rfl positive records ?_
              intro ran member
              rcases mem_cons.mp member with rfl | old
              · -- the record found is one of this function, all of which are fresh
                rcases searchMethodHash_cases valid.positive call.keys with
                  ⟨e', ends, here, _⟩ | ⟨e', ends, _⟩ | ⟨ends, _⟩
                · rw [ends] at found
                  cases found
                  rw [key_stamp valid.positive, here] at key
                  cases key
                  have stamped : ((thread.cache.stamp e).record e).key = some call.keys := by
                    rw [key_stamp valid.positive, here]
                  exact fresh.fewer fewer e call.keys method stamped rfl value
                · rw [ends] at found
                  cases found
                  rw [key_evict_stamp valid.positive] at key
                  cases key
                · rw [ends] at found
                  cases found
              · exact valid.log ran old
            · cases run
              exact valid.replace waiting rfl (.inl rfl) rfl rfl positive records valid.log
  · cases run

theorem read (run : thread.read = some thread') : Valid thread' := by
  unfold Thread.read at run
  split at run
  · rename_i call started record rest waiting
    cases run
    have before := valid.started ⟨call, started, .computing record none⟩
      (by rw [waiting]; exact mem_cons_self)
    refine valid.replace waiting rfl (.inr ⟨_, rfl, by simp, ?_⟩) rfl rfl valid.positive
      valid.records valid.log
    intro record' version same
    cases same
    exact ⟨before, fun _ => le_refl _⟩
  · cases run

theorem finish (run : thread.finish = some thread') : Valid thread' := by
  unfold Thread.finish at run
  split at run
  · rename_i call started record version rest waiting
    obtain ⟨after, current⟩ := valid.reads ⟨call, started, .computing record (some version)⟩
      (by rw [waiting]; exact mem_cons_self) record version rfl
    have log : ∀ ran ∈ (⟨call, started, ⟨version⟩⟩ : Ran) :: thread.log,
        ran.started ≤ ran.method.version := by
      intro ran member
      rcases mem_cons.mp member with rfl | old
      · exact after
      · exact valid.log ran old
    have stored {cache : Cache Method} (fewer : Fewer thread.cache cache) (e : Nat) (gf : Word)
        (untouched : ¬ Requested thread.clearList gf) :
        FreshFrom (cache.fill e call.keys ⟨version⟩) gf (thread.requests gf) := by
      apply ((valid.records gf untouched).fewer fewer).fill
      rintro rfl
      exact current untouched
    split at run
    · cases run
      exact valid.replace waiting rfl (.inl rfl) rfl rfl valid.positive valid.records log
    · rename_i e
      dsimp only at run
      split at run
      · cases run
        exact valid.replace waiting rfl (.inl rfl) rfl rfl valid.positive
          (stored (Fewer.refl _) e) log
      · split at run
        · cases run
        · rename_i e' cache found
          have fewer := Fewer.search valid.positive found
          cases run
          refine valid.replace waiting rfl (.inl rfl) rfl rfl ?_ (stored fewer e') log
          show 0 < cache.size
          rw [fewer.size]
          exact valid.positive
  · cases run

theorem abort (run : thread.abort = some thread') : Valid thread' := by
  unfold Thread.abort at run
  split at run
  · rename_i waiting
    cases run
    exact valid.replace waiting rfl (.inl rfl) rfl rfl valid.positive valid.records valid.log
  · cases run

theorem run {step : Step} (undisturbed : Undisturbed thread step)
    (ran : step.run thread = some thread') : Valid thread' := by
  cases step with
  | request target =>
    cases ran
    exact valid.request target
  | enter call => exact valid.enter undisturbed ran
  | look => exact valid.look ran
  | read => exact valid.read ran
  | finish => exact valid.finish ran
  | abort => exact valid.abort ran

end Valid

theorem Goes.valid {size : Nat} (positive : 0 < size) {thread : Thread}
    (reached : Goes size Undisturbed thread) : Valid thread := by
  induction reached with
  | initial =>
    refine ⟨positive, ?_, by simp [Thread.initial], by simp [Thread.initial],
      by simp [Thread.initial], by simp [Thread.initial], by simp [Thread.initial]⟩
    intro gf _ i keys method key
    cases key
  | step step _ meets run ih => exact ih.run meets run

/-- Every dispatch ran an effective method from methods read after the requests issued
before it started, and when all requests are carried out no older value is in the cache. -/
def Invalidated (thread : Thread) : Prop :=
  (∀ ran ∈ thread.log, ran.started ≤ ran.method.version) ∧
  (thread.clearList = [] → ∀ gf, FreshFrom thread.cache gf (thread.requests gf))

theorem no_lost_invalidation {size : Nat} (positive : 0 < size) {thread : Thread}
    (reached : Goes size Undisturbed thread) : Invalidated thread := by
  have valid := reached.valid positive
  refine ⟨valid.log, ?_⟩
  intro empty gf
  apply valid.records
  rw [empty]
  rintro (none | none) <;> cases none

/-- Steps one after the other. -/
def runSteps : List Step → Thread → Option Thread
  | [], thread => some thread
  | step :: steps, thread =>
    match step.run thread with
    | none => none
    | some thread => runSteps steps thread

/-- The steps are possible and all meet the condition. -/
def Admitted (allowed : Thread → Step → Prop) : List Step → Thread → Prop
  | [], _ => True
  | step :: steps, thread =>
    allowed thread step ∧ ∀ thread', step.run thread = some thread' →
      Admitted allowed steps thread'

theorem Goes.runSteps {size : Nat} {allowed : Thread → Step → Prop} {steps : List Step}
    {thread thread' : Thread} (reached : Goes size allowed thread)
    (admitted : Admitted allowed steps thread) (run : Gfun.runSteps steps thread = some thread') :
    Goes size allowed thread' := by
  induction steps generalizing thread with
  | nil =>
    cases run
    exact reached
  | cons step steps ih =>
    simp only [Gfun.runSteps] at run
    split at run
    · cases run
    · rename_i next ran
      exact ih (.step step reached admitted.1 ran) (admitted.2 next ran) run

def callG : Call := ⟨0x100000#64, [0x200000#64], false⟩

def callH : Call := ⟨0x110000#64, [0x200000#64], false⟩

theorem no_lost_invalidation_requested :
    ∃ thread, runSteps [.request (.function callG.gf), .enter callG, .look, .read, .finish]
        (Thread.initial methodHashSize) = some thread ∧ Invalidated thread := by
  have runs : (runSteps [.request (.function callG.gf), .enter callG, .look, .read, .finish]
      (Thread.initial methodHashSize)).isSome = true := by
    decide +kernel
  obtain ⟨thread, run⟩ := Option.isSome_iff_exists.mp runs
  refine ⟨thread, run, no_lost_invalidation (by decide) (Goes.initial.runSteps ?_ run)⟩
  refine ⟨trivial, ?_⟩
  intro asked same
  cases same
  refine ⟨by simp [Undisturbed, Thread.request, Thread.initial], ?_⟩
  intro _ _
  exact ⟨trivial, fun _ _ => ⟨trivial, fun _ _ => ⟨trivial, fun _ _ => trivial⟩⟩⟩

/-- The request comes after the methods were read, and a dispatch of another function inside
the computation carries it out. -/
def staleSteps : List Step :=
  [ .enter callG, .look, .read,
    .request (.function callG.gf),
    .enter callH, .look, .read, .finish,
    .finish,
    .enter callG, .look ]

theorem lost_invalidation :
    ∃ thread, Goes methodHashSize (fun _ _ => True) thread ∧ ¬ Invalidated thread := by
  have runs : ((runSteps staleSteps (Thread.initial methodHashSize)).map fun thread =>
      thread.log.head?) = some (some ⟨callG, 1, ⟨0⟩⟩) := by
    decide +kernel
  obtain ⟨thread, run, logged⟩ := Option.map_eq_some_iff.mp runs
  have admitted (steps : List Step) (thread : Thread) :
      Admitted (fun _ _ => True) steps thread := by
    induction steps generalizing thread with
    | nil => trivial
    | cons step steps ih => exact ⟨trivial, fun next _ => ih next⟩
  refine ⟨thread, Goes.initial.runSteps (admitted _ _) run, ?_⟩
  rintro ⟨fresh, _⟩
  exact absurd (fresh _ (mem_of_head? logged)) (by decide)

end Ecl.Gfun
