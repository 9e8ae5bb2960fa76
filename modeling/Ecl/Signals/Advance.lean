import Ecl.Signals.Phases
import Mathlib.Algebra.Order.BigOperators.Group.List
import Mathlib.Algebra.Order.Group.Nat

/- A step of the innermost operation of a thread, and the other operations in progress. -/
namespace Ecl.Signals

open List Option

/-- The frames of a thread after a step of its innermost operation. -/
def continued (id : Nat) (program : Option Program) (rest : List Frame) : List Frame :=
  match program with
  | none => rest
  | some program => ⟨id, program⟩ :: rest

theorem Step.advance_cases {st st' : State} {t : ThreadId}
    (run : (Step.advance t).run st = some st') :
    ∃ id program rest shared program',
      st.frames t = ⟨id, program⟩ :: rest ∧
      program.step st.shared t = some (shared, program') ∧
      st' = st.setFrames t shared (continued id program' rest) := by
  simp only [Step.run] at run
  cases frames : st.frames t with
  | nil =>
    rw [frames] at run
    cases run
  | cons frame rest =>
    rw [frames] at run
    simp only at run
    cases step : frame.program.step st.shared t with
    | none =>
      rw [step] at run
      cases run
    | some pair =>
      obtain ⟨shared, program'⟩ := pair
      rw [step] at run
      refine ⟨frame.id, frame.program, rest, shared, program', rfl, step, ?_⟩
      cases program' with
      | none | some program => exact (some.inj run).symm

variable {shared shared' : Shared} {place place' : RecordId → Place} {u : ThreadId}

theorem Spares.of_change {other : Frame} (r : RecordId)
    (queue : other.program.exposed = true → shared'.queue = shared.queue)
    (pending : ∀ v, other.program.watches u = some v → shared'.pending v = shared.pending v)
    (cell : ∀ x, x ≠ r → shared'.cell x = shared.cell x)
    (elsewhere : ∀ x, x ≠ r → place' x = place x)
    (mine : place r ≠ .operation other.id)
    (free : other.program.exposed = true → place r ≠ .free)
    (waiting : ∀ v, other.program.watches u = some v → place r ≠ .pending v) :
    Spares shared shared' place place' u other where
  queue := queue
  pending := pending
  held := by
    intro x here
    have differ : x ≠ r := by
      rintro rfl
      exact mine here
    exact ⟨by rw [elsewhere x differ]; exact here, cell x differ⟩
  free := by
    intro exposed x here
    have differ : x ≠ r := by
      rintro rfl
      exact free exposed here
    exact ⟨by rw [elsewhere x differ]; exact here, cell x differ⟩
  waiting := by
    intro v watches x here
    have differ : x ≠ r := by
      rintro rfl
      exact waiting v watches here
    exact cell x differ

theorem Spares.of_same
    {other : Frame} (same : shared.Same shared') : Spares shared shared' place place u other where
  queue _ := same.queue
  pending v _ := congrFun same.pending v
  held r here := ⟨here, congrFun same.cell r⟩
  free _ r here := ⟨here, congrFun same.cell r⟩
  waiting _ _ r _ := congrFun same.cell r

/-- What a step does to the operation itself and to the codes. -/
structure Moves (size : Nat) (t : ThreadId) (id : Nat) (program : Program)
    (program' : Option Program) (shared shared' : Shared) (place place' : RecordId → Place)
    (waiting waiting' : ThreadId → List RecordId) : Prop where
  ok : ∀ after, program' = some after → after.Ok size shared' place' t id
  others : ∀ r other, r < size → other ≠ id → place' r = .operation other →
    place r = .operation other
  held : ∀ r, r < size → place' r = .operation id → ∃ after, program' = some after ∧
    after.held = some r
  codes : ∀ u code,
    (shared'.queued u).count code + (shared.popped u).count code +
        ((waiting u).map fun r => (shared.cell r).car).count code +
        (if u = t then (program.codes shared).count code else 0) =
      (shared.queued u).count code + (shared'.popped u).count code +
        ((waiting' u).map fun r => (shared'.cell r).car).count code +
        (if u = t then ((program'.map fun after => after.codes shared').getD []).count code else 0)

namespace Good

variable {size : Nat} {st : State} {place : RecordId → Place} {free : List RecordId}
  {waiting : ThreadId → List RecordId} {t : ThreadId} {id : Nat} {program : Program}
  {rest : List Frame}

variable {u : ThreadId} {frame : Frame}

/-- Below the innermost operation of a thread, and in the other threads, are other operations. -/
theorem id_ne (good : Good size st place free waiting) (top : st.frames t = ⟨id, program⟩ :: rest)
    (member : (u = t ∧ frame ∈ rest) ∨ (u ≠ t ∧ frame ∈ st.frames u)) : frame.id ≠ id := by
  rcases member with ⟨rfl, member⟩ | ⟨differ, member⟩
  · have nodup := good.nodup u
    rw [top, map_cons, nodup_cons] at nodup
    intro same
    apply nodup.1
    show id ∈ rest.map Frame.id
    rw [← same]
    exact mem_map_of_mem member
  · intro same
    apply differ
    apply good.apart u t frame member ⟨id, program⟩ _ same
    rw [top]
    exact mem_cons_self

theorem mem_setFrames {shared' : Shared} {program' : Option Program}
    (member : frame ∈ (st.setFrames t shared' (continued id program' rest)).frames u) :
    (u = t ∧ ∃ after, program' = some after ∧ frame = ⟨id, after⟩) ∨
      (u = t ∧ frame ∈ rest) ∨ (u ≠ t ∧ frame ∈ st.frames u) := by
  simp only [State.setFrames] at member
  by_cases same : u = t
  · rw [if_pos same] at member
    cases program' with
    | none => exact .inr (.inl ⟨same, member⟩)
    | some after =>
      rcases mem_cons.mp member with whole | inside
      · exact .inl ⟨same, after, rfl, whole⟩
      · exact .inr (.inl ⟨same, inside⟩)
  · rw [if_neg same] at member
    exact .inr (.inr ⟨same, member⟩)

theorem mem_setFrames_of_id_ne {shared' : Shared} {program' : Option Program}
    (top : st.frames t = ⟨id, program⟩ :: rest)
    (member : frame ∈ st.frames u) (differ : frame.id ≠ id) :
    frame ∈ (st.setFrames t shared' (continued id program' rest)).frames u := by
  simp only [State.setFrames]
  by_cases same : u = t
  · subst same
    rw [top] at member
    rw [if_pos rfl]
    rcases mem_cons.mp member with whole | inside
    · subst whole
      exact absurd rfl differ
    · cases program' with
      | none => exact inside
      | some after => exact mem_cons_of_mem _ inside
  · rw [if_neg same]
    exact member

theorem held_top (good : Good size st place free waiting)
    (top : st.frames t = ⟨id, program⟩ :: rest) {r : RecordId} (inside : r < size)
    (here : place r = .operation id) : program.held = some r := by
  obtain ⟨u, frame, member, same, held⟩ := good.owned r id inside here
  by_cases thread : u = t
  · subst thread
    rw [top] at member
    rcases mem_cons.mp member with whole | below
    · subst whole
      exact held
    · exact absurd same (good.id_ne top (.inl ⟨rfl, below⟩))
  · exact absurd same (good.id_ne top (.inr ⟨thread, member⟩))

theorem not_exposed (good : Good size st place free waiting)
    (top : st.frames t = ⟨id, program⟩ :: rest) (exposed : program.exposed = true)
    (below : ∀ other ∈ rest, other.program.exposed = false) {other : Frame}
    (member : other ∈ st.frames u) (differ : other.id ≠ id) :
    other.program.exposed = false := by
  by_cases thread : u = t
  · subst thread
    rw [top] at member
    rcases mem_cons.mp member with whole | inside
    · subst whole
      exact absurd rfl differ
    · exact below other inside
  · by_contra shows
    have positive := Program.level_pos_of_exposed (by simpa using shows)
    have own := Program.level_pos_of_exposed exposed
    have level := good.levels t
    have level' := good.levels u
    simp only [top, map_cons, sum_cons] at level
    have least := le_sum_of_mem
      (mem_map_of_mem member : other.program.level ∈ (st.frames u).map fun frame =>
        frame.program.level)
    simp only [Shared.level] at level level'
    cases lock : st.shared.lock with
    | none =>
      rw [lock] at level
      simp only at level
      omega
    | some pair =>
      rw [lock] at level level'
      simp only at level level'
      split at level
      · rename_i same
        rw [if_neg (fun same' => thread (same'.symm.trans same))] at level'
        omega
      · omega

end Good

theorem flyingCodes_spared {size : Nat} {frames : List Frame}
    (spares : ∀ frame ∈ frames, Spares shared shared' place place' u frame)
    (ok : ∀ frame ∈ frames, frame.program.Ok size shared place u frame.id) :
    flyingCodes shared' frames = flyingCodes shared frames := by
  unfold flyingCodes
  apply flatMap_congr
  intro frame member
  exact (spares frame member).codes (ok frame member)

/-- A step of the innermost operation keeps the invariant when it spares the others. -/
theorem Good.advance {size : Nat} {st : State}
    {free free' : List RecordId} {waiting waiting' : ThreadId → List RecordId} {t : ThreadId}
    {id : Nat} {program : Program} {rest : List Frame}
    {program' : Option Program} (good : Good size st place free waiting)
    (top : st.frames t = ⟨id, program⟩ :: rest)
    (step : program.step st.shared t = some (shared', program'))
    (placed : Placed size shared' place' free' waiting')
    (spares : ∀ u, ∀ other ∈ st.frames u, other.id ≠ id →
      Spares st.shared shared' place place' u other)
    (moves : Moves size t id program program' st.shared shared' place place' waiting waiting') :
    Good size (st.setFrames t shared' (continued id program' rest)) place' free' waiting' := by
  have below : ∀ frame ∈ rest, frame ∈ st.frames t := by
    intro frame member
    rw [top]
    exact mem_cons_of_mem _ member
  have first : (⟨id, program⟩ : Frame) ∈ st.frames t := by
    rw [top]
    exact mem_cons_self
  have old : ∀ u frame, (u = t ∧ frame ∈ rest) ∨ (u ≠ t ∧ frame ∈ st.frames u) →
      frame ∈ st.frames u ∧ frame.id ≠ id := by
    intro u frame member
    refine ⟨?_, good.id_ne top member⟩
    rcases member with ⟨rfl, member⟩ | ⟨_, member⟩
    · exact below frame member
    · exact member
  have lock := Program.step_levels good.counted step
  constructor
  · exact placed
  · intro u frame member
    rcases mem_setFrames member with ⟨rfl, after, _, rfl⟩ | member
    · exact good.young u ⟨id, program⟩ first
    · exact good.young u frame (old u frame member).1
  · intro u
    have nodup := good.nodup u
    simp only [State.setFrames]
    by_cases thread : u = t
    · subst thread
      rw [top] at nodup
      rw [if_pos rfl]
      cases program' with
      | none => exact (nodup_cons.mp nodup).2
      | some after => exact nodup
    · rw [if_neg thread]
      exact nodup
  · intro u v frame member other member' same
    rcases mem_setFrames member with ⟨rfl, after, _, rfl⟩ | member
    · rcases mem_setFrames member' with ⟨rfl, _⟩ | member'
      · rfl
      · exact absurd same.symm (old v other member').2
    · rcases mem_setFrames member' with ⟨rfl, after, _, rfl⟩ | member'
      · exact absurd same (old u frame member).2
      · exact good.apart u v frame (old u frame member).1 other (old v other member').1 same
  · intro u frame member
    rcases mem_setFrames member with ⟨rfl, after, whole, rfl⟩ | member
    · exact moves.ok after whole
    · obtain ⟨inside, differ⟩ := old u frame member
      exact (spares u frame inside differ).ok good.placed (good.ok u frame inside)
  · intro r other inside here
    by_cases same : other = id
    · subst same
      obtain ⟨after, whole, held⟩ := moves.held r inside here
      refine ⟨t, ⟨other, after⟩, ?_, rfl, held⟩
      simp only [State.setFrames, if_true, whole]
      exact mem_cons_self
    · obtain ⟨u, frame, member, own, held⟩ :=
        good.owned r other inside (moves.others r other inside same here)
      refine ⟨u, frame, ?_, own, held⟩
      exact mem_setFrames_of_id_ne top member (by rw [own]; exact same)
  · exact lock.counted
  · intro u
    have level := good.levels u
    simp only [State.setFrames]
    by_cases thread : u = t
    · subst thread
      simp only [top, map_cons, sum_cons] at level
      have moved := lock.level
      rw [if_pos rfl]
      cases program' with
      | none =>
        simp only [levelOf, map_none, getD_none] at moved
        simp only [continued]
        omega
      | some after =>
        simp only [levelOf, map_some, getD_some] at moved
        simp only [continued, map_cons, sum_cons]
        omega
    · rw [if_neg thread, lock.others u thread]
      exact level
  · intro u code
    have before := good.codes u code
    have change := moves.codes u code
    simp only [State.setFrames]
    by_cases thread : u = t
    · subst thread
      have spared : flyingCodes shared' rest = flyingCodes st.shared rest := by
        apply flyingCodes_spared
        · intro frame member
          exact spares u frame (below frame member) (good.id_ne top (.inl ⟨rfl, member⟩))
        · intro frame member
          exact good.ok u frame (below frame member)
      rw [top] at before
      simp only [flyingCodes, flatMap_cons, count_append] at before spared
      rw [if_pos rfl] at change ⊢
      rw [if_pos rfl] at change
      cases program' with
      | none =>
        simp only [map_none, getD_none, count_nil] at change
        simp only [continued, flyingCodes, spared]
        omega
      | some after =>
        simp only [map_some, getD_some] at change
        simp only [continued, flyingCodes, flatMap_cons, count_append, spared]
        omega
    · have spared : flyingCodes shared' (st.frames u) = flyingCodes st.shared (st.frames u) := by
        apply flyingCodes_spared
        · intro frame member
          exact spares u frame member (good.id_ne top (.inr ⟨thread, member⟩))
        · exact good.ok u
      rw [if_neg thread, if_neg thread] at change
      rw [if_neg thread, spared]
      omega

end Ecl.Signals
