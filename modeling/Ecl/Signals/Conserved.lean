import Ecl.Signals.Steps

/- The records of pending interrupts over whole runs. -/
namespace Ecl.Signals

open Ecl.Lib List Option

/-- A record is reached from the head of the free queue or of a pending list, or an operation
in progress has it. -/
def At (st : State) (r : RecordId) : Place → Prop
  | .free => ∃ l, Linked st.shared.next l st.shared.queue ∧ r ∈ l
  | .pending t => ∃ l, Linked st.shared.next l (st.shared.pending t) ∧ r ∈ l
  | .operation id => ∃ t, ∃ frame ∈ st.frames t, frame.id = id ∧ frame.program.held = some r

/-- Every record is in one place; what was queued for a thread was popped by it once its list
is empty and it is not popping; and the lock is held as often as the operations in progress
have it, so that no operation ended with it. -/
structure Conserved (size : Nat) (st : State) : Prop where
  placed : ∀ r, r < size → ∃! place, At st r place
  popped : ∀ t, st.shared.pending t = none →
    (∀ frame ∈ st.frames t, frame.program.flying = none) →
    (st.shared.queued t).Perm (st.shared.popped t)
  unlocked : ∀ t, st.shared.level t = ((st.frames t).map fun frame => frame.program.level).sum

namespace Good

variable {size : Nat} {st : State} {place : RecordId → Place} {free : List RecordId}
  {waiting : ThreadId → List RecordId} {t : ThreadId} {id : Nat} {program : Program}
  {rest : List Frame} {shared' : Shared} {program' : Option Program}

theorem holds_of_held (ok : program.Ok size st.shared place t id) {r : RecordId}
    (held : program.held = some r) : Holds size place id r := by
  cases program with
  | send interrupt target code pc =>
    cases pc with
    | begin | locked | inside | read record | next record next | queued => cases held
    | written record | free record => exact ok r held
    | head r' pending | linked r' | coded r' =>
      cases held
      exact ok.1
  | pop pc =>
    cases pc with
    | begin | read r' | locked r' | next r' next | freed r' | coded => cases held
    | unlinked r' =>
      cases held
      exact ok
    | queue r' queue | linked r' =>
      cases held
      exact ok.1

theorem at_iff (good : Good size st place free waiting) {r : RecordId} (inside : r < size)
    (spot : Place) : At st r spot ↔ place r = spot := by
  cases spot with
  | free =>
    constructor
    · rintro ⟨l, linked, member⟩
      rw [linked.unique good.placed.freeLinked] at member
      exact ((good.placed.freePlace r).mp member).2
    · intro here
      exact ⟨free, good.placed.freeLinked, (good.placed.freePlace r).mpr ⟨inside, here⟩⟩
  | pending u =>
    constructor
    · rintro ⟨l, linked, member⟩
      rw [linked.unique (good.placed.waitingLinked u)] at member
      exact ((good.placed.waitingPlace u r).mp member).2
    · intro here
      exact ⟨waiting u, good.placed.waitingLinked u,
        (good.placed.waitingPlace u r).mpr ⟨inside, here⟩⟩
  | operation id =>
    constructor
    · rintro ⟨u, frame, member, rfl, held⟩
      exact (holds_of_held (good.ok u frame member) held).2
    · intro here
      exact good.owned r id inside here

theorem conserved (good : Good size st place free waiting) : Conserved size st where
  placed := by
    intro r inside
    refine ⟨place r, (good.at_iff inside _).mpr rfl, ?_⟩
    intro other here
    exact ((good.at_iff inside other).mp here).symm
  popped := by
    intro u none still
    have empty : waiting u = [] := by
      have linked := good.placed.waitingLinked u
      rw [none] at linked
      exact linked.eq_nil
    have landed : flyingCodes st.shared (st.frames u) = [] := by
      apply flatMap_eq_nil_iff.mpr
      intro frame member
      simp only [Program.codes, still frame member, map_none, toList_none]
    apply perm_iff_count.mpr
    intro code
    have count := good.codes u code
    simp only [empty, landed, map_nil, count_nil] at count
    omega
  unlocked := good.levels

/-- A step which only reads, or which gets or gives up the lock, where no record is held. -/
theorem quiet_free (good : Good size st place free waiting) {program : Program}
    (top : st.frames t = ⟨id, program⟩ :: rest)
    (step : program.step st.shared t = some (shared', program'))
    (same : st.shared.Same shared') (empty : program.held = none)
    (flying : program'.bind Program.flying = program.flying)
    (ok : ∀ after, program' = some after → after.Ok size st.shared place t id) :
      ∃ place' free' waiting',
      Good size (st.setFrames t shared' (continued id program' rest)) place' free' waiting' := by
  refine ⟨place, free, waiting, good.quiet top step same ok ?_ flying⟩
  intro r held
  rw [empty] at held
  cases held

theorem advance_send (good : Good size st place free waiting) {interrupt : Bool}
    {target : ThreadId} {code : Code} {pc : SendPc}
    (top : st.frames t = ⟨id, .send interrupt target code pc⟩ :: rest)
    (step : (Program.send interrupt target code pc).step st.shared t = some (shared', program'))
    (below : (Program.send interrupt target code pc).writesQueue = true →
      ∀ other ∈ rest, other.program.exposed = false)
    (alone : ∀ u, (Program.send interrupt target code pc).writes t = some u →
      ∀ v, ∀ other ∈ st.frames v, other.id ≠ id → other.program.watches v ≠ some u) :
    ∃ place' free' waiting',
      Good size (st.setFrames t shared' (continued id program' rest)) place' free' waiting' := by
  have ok : (Program.send interrupt target code pc).Ok size st.shared place t id := by
    apply good.ok t ⟨id, .send interrupt target code pc⟩
    rw [top]
    exact mem_cons_self
  cases pc with
  | begin =>
    have whole := step
    simp only [Program.step, map_eq_some_iff] at step
    obtain ⟨middle, got, same⟩ := step
    cases same
    apply good.quiet_free top whole (Shared.getLock_law got).1 rfl rfl
    intro after after_eq
    cases after_eq
    cases interrupt <;> trivial
  | locked =>
    have whole := step
    simp only [Program.step, map_eq_some_iff] at step
    obtain ⟨middle, got, same⟩ := step
    cases same
    apply good.quiet_free top whole (Shared.getLock_law got).1 rfl rfl
    intro after after_eq
    cases after_eq
    trivial
  | inside =>
    have whole := step
    cases step
    apply good.quiet_free top whole (Shared.Same.refl _) rfl rfl
    intro after after_eq
    cases after_eq
    rfl
  | read record =>
    have whole := step
    cases step
    apply good.quiet_free top whole (Shared.Same.refl _) rfl rfl
    intro after after_eq
    cases after_eq
    exact ⟨ok, rfl⟩
  | next record next =>
    cases record with
    | none =>
      have whole := step
      cases step
      obtain ⟨head, link⟩ := ok
      refine ⟨_, _, _, good.quiet top whole ⟨rfl, ?_, rfl, rfl, rfl⟩ ?_ ?_ rfl⟩
      · rw [← head]
        exact link
      · intro after after_eq
        cases after_eq
        intro r some_eq
        cases some_eq
      · intro r held
        cases held
    | some r =>
      cases step
      obtain ⟨place', free', good'⟩ := good.take top (below rfl)
      exact ⟨place', free', waiting, good'⟩
  | written record =>
    have whole := step
    simp only [Program.step, map_eq_some_iff] at step
    obtain ⟨middle, gave, same⟩ := step
    cases same
    refine ⟨_, _, _, good.quiet top whole (Shared.giveupLock_law good.counted gave).1 ?_ ?_ rfl⟩
    · intro after after_eq
      cases after_eq
      exact ok
    · intro r held
      exact ⟨_, rfl, held⟩
  | free record =>
    cases record with
    | none =>
      have whole := step
      cases step
      apply good.quiet_free top whole (Shared.Same.refl _) rfl rfl
      intro after after_eq
      cases after_eq
      trivial
    | some r =>
      have whole := step
      cases step
      refine ⟨_, _, _, good.quiet top whole (Shared.Same.refl _) ?_ ?_ rfl⟩
      · intro after after_eq
        cases after_eq
        exact ⟨ok r rfl, rfl⟩
      · intro x held
        exact ⟨_, rfl, held⟩
  | head r pending =>
    have whole := step
    cases step
    obtain ⟨holds, link⟩ := ok
    refine ⟨_, _, _, good.writeCell top whole holds rfl rfl rfl rfl ?_
      (good.placed.setCdr holds.2 pending) ⟨holds, ?_⟩ rfl rfl rfl⟩
    · intro x differ
      exact if_neg differ
    · simp only [Shared.setCdr, if_true]
      exact link
  | linked r =>
    have whole := step
    cases step
    obtain ⟨holds, link⟩ := ok
    refine ⟨_, _, _, good.writeCell top whole holds rfl rfl rfl rfl ?_
      (good.placed.setCar r code) ⟨holds, ?_, ?_⟩ rfl rfl rfl⟩
    · intro x differ
      exact if_neg differ
    · simp only [Shared.setCar, if_true]
      exact link
    · simp only [Shared.setCar, if_true]
  | coded r =>
    cases step
    obtain ⟨place', waiting', good'⟩ := good.push top (alone target rfl)
    exact ⟨place', free, waiting', good'⟩
  | queued =>
    have whole := step
    cases interrupt with
    | false =>
      cases step
      apply good.quiet_free top whole (Shared.Same.refl _) rfl rfl
      intro after after_eq
      cases after_eq
    | true =>
      simp only [Program.step, if_true, map_eq_some_iff] at step
      obtain ⟨middle, gave, same⟩ := step
      cases same
      apply good.quiet_free top whole (Shared.giveupLock_law good.counted gave).1 rfl rfl
      intro after after_eq
      cases after_eq

theorem advance_pop (good : Good size st place free waiting) {pc : PopPc}
    (top : st.frames t = ⟨id, .pop pc⟩ :: rest)
    (step : (Program.pop pc).step st.shared t = some (shared', program'))
    (below : (Program.pop pc).writesQueue = true →
      ∀ other ∈ rest, other.program.exposed = false)
    (alone : ∀ u, (Program.pop pc).writes t = some u →
      ∀ v, ∀ other ∈ st.frames v, other.id ≠ id → other.program.watches v ≠ some u) :
    ∃ place' free' waiting',
      Good size (st.setFrames t shared' (continued id program' rest)) place' free' waiting' := by
  have ok : (Program.pop pc).Ok size st.shared place t id := by
    apply good.ok t ⟨id, .pop pc⟩
    rw [top]
    exact mem_cons_self
  cases pc with
  | begin =>
    have whole := step
    cases pending : st.shared.pending t with
    | none =>
      simp only [Program.step, pending] at step
      cases step
      apply good.quiet_free top whole (Shared.Same.refl _) rfl rfl
      intro after after_eq
      cases after_eq
    | some r =>
      simp only [Program.step, pending] at step
      cases step
      apply good.quiet_free top whole (Shared.Same.refl _) rfl rfl
      intro after after_eq
      cases after_eq
      exact pending
  | read r =>
    have whole := step
    simp only [Program.step, map_eq_some_iff] at step
    obtain ⟨middle, got, same⟩ := step
    cases same
    apply good.quiet_free top whole (Shared.getLock_law got).1 rfl rfl
    intro after after_eq
    cases after_eq
    exact ok
  | locked r =>
    have whole := step
    cases step
    apply good.quiet_free top whole (Shared.Same.refl _) rfl rfl
    intro after after_eq
    cases after_eq
    exact ⟨ok, rfl⟩
  | next r next =>
    cases step
    obtain ⟨place', waiting', good'⟩ := good.unlink top (alone t rfl)
    exact ⟨place', free, waiting', good'⟩
  | unlinked r =>
    have whole := step
    cases step
    refine ⟨_, _, _, good.quiet top whole (Shared.Same.refl _) ?_ ?_ rfl⟩
    · intro after after_eq
      cases after_eq
      exact ⟨ok, rfl⟩
    · intro x held
      exact ⟨_, rfl, held⟩
  | queue r read =>
    have whole := step
    cases step
    obtain ⟨holds, head⟩ := ok
    refine ⟨_, _, _, good.writeCell top whole holds rfl rfl rfl rfl ?_
      (good.placed.setCdr holds.2 read) ⟨holds, ?_⟩ rfl rfl ?_⟩
    · intro x differ
      exact if_neg differ
    · simp only [Shared.setCdr, if_true]
      exact head
    · simp only [Program.codes, Program.flying, Shared.setCdr, map_some, if_true]
  | linked r =>
    cases step
    obtain ⟨place', free', good'⟩ := good.release top (below rfl)
    exact ⟨place', free', waiting, good'⟩
  | freed r =>
    cases step
    exact ⟨place, free, waiting, good.answer top⟩
  | coded =>
    have whole := step
    simp only [Program.step, map_eq_some_iff] at step
    obtain ⟨middle, gave, same⟩ := step
    cases same
    apply good.quiet_free top whole (Shared.giveupLock_law good.counted gave).1 rfl rfl
    intro after after_eq
    cases after_eq

theorem start (good : Good size st place free waiting) (what : Start) :
    Good size
      { st.setFrames t st.shared (⟨st.count, what.program t⟩ :: st.frames t) with
        count := st.count + 1 } place free waiting := by
  have mem : ∀ u frame, frame ∈ (st.setFrames t st.shared
      (⟨st.count, what.program t⟩ :: st.frames t)).frames u →
        (u = t ∧ frame = ⟨st.count, what.program t⟩) ∨ frame ∈ st.frames u := by
    intro u frame member
    simp only [State.setFrames] at member
    by_cases thread : u = t
    · subst thread
      rw [if_pos rfl] at member
      rcases mem_cons.mp member with whole | inside
      · exact .inl ⟨rfl, whole⟩
      · exact .inr inside
    · rw [if_neg thread] at member
      exact .inr member
  constructor
  · exact good.placed
  · intro u frame member
    rcases mem u frame member with ⟨_, rfl⟩ | member
    · exact Nat.lt_succ_self _
    · exact Nat.lt_succ_of_lt (good.young u frame member)
  · intro u
    simp only [State.setFrames]
    by_cases thread : u = t
    · subst thread
      rw [if_pos rfl, map_cons, nodup_cons]
      refine ⟨?_, good.nodup u⟩
      intro member
      obtain ⟨frame, inside, same⟩ := mem_map.mp member
      have young := good.young u frame inside
      simp only at same
      omega
    · rw [if_neg thread]
      exact good.nodup u
  · intro u v frame member other member' same
    rcases mem u frame member with ⟨rfl, rfl⟩ | inside
    · rcases mem v other member' with ⟨rfl, _⟩ | inside'
      · rfl
      · have young := good.young v other inside'
        simp only at same
        omega
    · rcases mem v other member' with ⟨rfl, rfl⟩ | inside'
      · have young := good.young u frame inside
        simp only at same
        omega
      · exact good.apart u v frame inside other inside' same
  · intro u frame member
    rcases mem u frame member with ⟨_, rfl⟩ | member
    · cases what <;> trivial
    · exact good.ok u frame member
  · intro r id inside here
    obtain ⟨u, frame, member, same, held⟩ := good.owned r id inside here
    refine ⟨u, frame, ?_, same, held⟩
    simp only [State.setFrames]
    by_cases thread : u = t
    · subst thread
      rw [if_pos rfl]
      exact mem_cons_of_mem _ member
    · rw [if_neg thread]
      exact member
  · exact good.counted
  · intro u
    have level := good.levels u
    simp only [State.setFrames]
    by_cases thread : u = t
    · subst thread
      rw [if_pos rfl]
      simp only [map_cons, sum_cons]
      have none : (what.program u).level = 0 := by
        cases what <;> rfl
      omega
    · rw [if_neg thread]
      exact level
  · intro u code
    have count := good.codes u code
    simp only [State.setFrames]
    by_cases thread : u = t
    · subst thread
      rw [if_pos rfl]
      have none : (what.program u).codes st.shared = [] := by
        cases what <;> rfl
      simp only [flyingCodes, flatMap_cons, none, nil_append]
      exact count
    · rw [if_neg thread]
      exact count

theorem step (good : Good size st place free waiting) {st' : State} (step : Step)
    (undisturbed : Undisturbed st step) (run : step.run st = some st') :
    ∃ place' free' waiting', Good size st' place' free' waiting' := by
  cases step with
  | start u what =>
    cases run
    exact ⟨place, free, waiting, good.start what⟩
  | advance u =>
    obtain ⟨id', program, rest, shared, program', top, step, rfl⟩ := Step.advance_cases run
    obtain ⟨below, alone⟩ := undisturbed ⟨id', program⟩ rest top
    cases program with
    | send interrupt target code pc => exact good.advance_send top step below alone
    | pop pc => exact good.advance_pop top step below alone

end Good

theorem initial_linked (size k : Nat) (below : k ≤ size) :
    Linked (initial size).shared.next (List.range' k (size - k))
      (if k < size then some k else none) := by
  induction left : size - k generalizing k with
  | zero =>
    have done : ¬ k < size := by omega
    rw [if_neg done]
    rfl
  | succ n ih =>
    have inside : k < size := by omega
    rw [if_pos inside]
    exact ⟨rfl, ih (k + 1) (by omega) (by omega)⟩

theorem initial_good (size : Nat) :
    Good size (initial size) (fun _ => .free) (List.range' 0 size) (fun _ => []) where
  placed :=
    { freeLinked := initial_linked size 0 (Nat.zero_le size)
      freeNodup := nodup_range'
      freePlace := by
        intro r
        rw [mem_range'_1]
        simp
      waitingLinked := fun _ => rfl
      waitingNodup := fun _ => nodup_nil
      waitingPlace := by
        intro t r
        simp }
  young := by
    intro t frame member
    cases member
  nodup _ := nodup_nil
  apart := by
    intro t u frame member
    cases member
  ok := by
    intro t frame member
    cases member
  owned := by
    intro r id inside here
    cases here
  counted := by
    intro holder n held
    cases held
  levels _ := rfl
  codes _ _ := rfl

def runAll (st : State) : List Step → Option State
  | [] => some st
  | step :: steps => (step.run st).bind fun st => runAll st steps

variable {st st' : State}

theorem runAll_append (steps steps' : List Step) (run : runAll st (steps ++ steps') = some st') :
    ∃ middle, runAll st steps = some middle ∧ runAll middle steps' = some st' := by
  induction steps generalizing st with
  | nil => exact ⟨st, rfl, run⟩
  | cons step steps ih =>
    obtain ⟨next, first, others⟩ := bind_eq_some_iff.mp run
    obtain ⟨middle, left, right⟩ := ih others
    exact ⟨middle, bind_eq_some_iff.mpr ⟨next, first, left⟩, right⟩

/-- A thread has one operation in progress at most, and the others have none. -/
structure Single (t : ThreadId) (st : State) : Prop where
  others : ∀ v, v ≠ t → st.frames v = []
  single : (st.frames t).length ≤ 1

variable {t : ThreadId}

theorem Single.undisturbed (single : Single t st) : Undisturbed st (.advance t) := by
  intro frame rest top
  have length := single.single
  rw [top, length_cons] at length
  have none : rest = [] := eq_nil_of_length_eq_zero (by omega)
  subst none
  constructor
  · intro _ other member
    cases member
  · intro u _ v other member differ
    by_cases thread : v = t
    · subst thread
      rw [top, mem_singleton] at member
      rw [member] at differ
      exact absurd rfl differ
    · rw [single.others v thread] at member
      cases member

theorem Single.advance (single : Single t st) (run : (Step.advance t).run st = some st') :
    Single t st' := by
  obtain ⟨id, program, rest, shared, program', top, _, rfl⟩ := Step.advance_cases run
  have length := single.single
  rw [top, length_cons] at length
  constructor
  · intro v other
    simp only [State.setFrames, if_neg other]
    exact single.others v other
  · simp only [State.setFrames, if_true]
    cases program' with
    | none =>
      simp only [continued]
      omega
    | some after =>
      simp only [continued, length_cons]
      omega

variable {size : Nat}

theorem Single.advances {n : Nat} (single : Single t st) (reached : Reachable size Undisturbed st)
    (run : runAll st (List.replicate n (.advance t)) = some st') :
    Reachable size Undisturbed st' ∧ Single t st' := by
  induction n generalizing st with
  | zero =>
    cases run
    exact ⟨reached, single⟩
  | succ n ih =>
    obtain ⟨middle, first, others⟩ := bind_eq_some_iff.mp run
    exact ih (single.advance first) (.step _ reached single.undisturbed first) others

theorem Reachable.operation {n : Nat} {what : Start}
    (reached : Reachable size Undisturbed st) (idle : ∀ v, st.frames v = [])
    (run : runAll st (.start t what :: List.replicate n (.advance t)) = some st')
    (done : st'.frames t = []) : Reachable size Undisturbed st' ∧ ∀ v, st'.frames v = [] := by
  obtain ⟨middle, first, others⟩ := bind_eq_some_iff.mp run
  have begun := Reachable.step (.start t what) reached trivial first
  cases first
  obtain ⟨reached', single⟩ := Single.advances
    ⟨fun v other => by simp only [State.setFrames, if_neg other]; exact idle v,
      by simp only [State.setFrames, if_true, idle t]; exact Nat.le_refl 1⟩ begun others
  refine ⟨reached', ?_⟩
  intro v
  by_cases thread : v = t
  · rw [thread]
    exact done
  · exact single.others v thread

/-- Records are conserved as long as no step disturbs another operation. -/
theorem conserved_of_undisturbed (size : Nat) (st : State)
    (reached : Reachable size Undisturbed st) : Conserved size st := by
  have invariant : ∃ place free waiting, Good size st place free waiting := by
    induction reached with
    | initial => exact ⟨_, _, _, initial_good size⟩
    | step step _ meets run ih =>
      obtain ⟨place, free, waiting, good⟩ := ih
      exact good.step step meets run
  obtain ⟨place, free, waiting, good⟩ := invariant
  exact good.conserved

/-- Thread 1 interrupts thread 0, which then pops the code. -/
theorem conserved_interrupt_pop :
    ∃ st, runAll (initial 2) ((.start 1 (.interrupt 0 7) :: List.replicate 11 (.advance 1)) ++
        .start 0 .pop :: List.replicate 9 (.advance 0)) = some st ∧
      st.shared.popped 0 = [7] ∧ Conserved 2 st := by
  have runs :
    ((runAll (initial 2) (.start 1 (.interrupt 0 7) :: List.replicate 11 (.advance 1))).map
      fun st => st.frames 1) = some [] := by
    decide +kernel
  have ends : ((runAll (initial 2) ((.start 1 (.interrupt 0 7) :: List.replicate 11 (.advance 1)) ++
      .start 0 .pop :: List.replicate 9 (.advance 0))).map
      fun st => (st.frames 0, st.shared.popped 0)) = some ([], [7]) := by
    decide +kernel
  obtain ⟨st, run, seen⟩ := Option.map_eq_some_iff.mp ends
  obtain ⟨frames, popped⟩ := Prod.mk.inj seen
  obtain ⟨middle, sent, pops⟩ := runAll_append _ _ run
  rw [sent, Option.map_some, Option.some.injEq] at runs
  obtain ⟨reached, idle⟩ := Reachable.operation .initial (fun _ => rfl) sent runs
  obtain ⟨reached', _⟩ := Reachable.operation reached idle pops frames
  exact ⟨st, run, popped, conserved_of_undisturbed 2 st reached'⟩

theorem Reachable.runAll {steps : List Step}
    (reached : Reachable size (fun _ _ => True) st) (run : runAll st steps = some st') :
    Reachable size (fun _ _ => True) st' := by
  induction steps generalizing st with
  | nil =>
    cases run
    exact reached
  | cons step steps ih =>
    obtain ⟨middle, first, others⟩ := bind_eq_some_iff.mp run
    exact ih (.step step reached trivial first) others

/-- Thread 0 has read its pending record when thread 1 queues another one for it: the write
of the first one's cdr loses the other. -/
def losing : List Step :=
  .start 1 (.interrupt 0 7) :: List.replicate 11 (.advance 1) ++
    (.start 0 .pop :: .advance 0 :: .start 1 (.interrupt 0 8) :: List.replicate 11 (.advance 1)) ++
    List.replicate 8 (.advance 0)

theorem losing_loses :
    ((runAll (initial 2) losing).map fun st =>
      (st.shared.pending 0, st.frames 0, st.shared.queued 0, st.shared.popped 0)) =
      some (none, [], [8, 7], [7]) := by
  decide +kernel

/-- A signal that is queued for a popping thread is lost. -/
theorem not_conserved :
    ¬ ∀ (size : Nat) (st : State), Reachable size (fun _ _ => True) st → Conserved size st := by
  intro claim
  obtain ⟨st, run, seen⟩ := Option.map_eq_some_iff.mp losing_loses
  obtain ⟨pending, frames, queued, popped⟩ :
      st.shared.pending 0 = none ∧ st.frames 0 = [] ∧ st.shared.queued 0 = [8, 7] ∧
        st.shared.popped 0 = [7] := by
    simpa only [Prod.mk.injEq] using seen
  have conserved := claim 2 st (Reachable.runAll .initial run)
  have perm := conserved.popped 0 pending (by rw [frames]; intro frame member; cases member)
  rw [queued, popped] at perm
  exact absurd perm.length_eq (by decide)

end Ecl.Signals
