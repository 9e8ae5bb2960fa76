import Mathlib.Algebra.Ring.Nat
import Ecl.Signals.Places

/- What an operation in progress has: how often the lock, which record, and which parts of
the shared memory it has read and will still write over. -/
namespace Ecl.Signals

open Option

/-- How many times the operation got the lock and has not given it up yet. -/
def Program.level : Program → Nat
  | .send interrupt _ _ pc =>
    let outer := if interrupt then 1 else 0
    match pc with
    | .begin => 0
    | .locked => outer
    | .inside | .read _ | .next _ _ | .written _ => outer + 1
    | .free _ | .head _ _ | .linked _ | .coded _ | .queued => outer
  | .pop pc =>
    match pc with
    | .begin | .read _ => 0
    | .locked _ | .next _ _ | .unlinked _ | .queue _ _ | .linked _ | .freed _ | .coded => 1

/-- The record which is in the operation only. -/
def Program.held : Program → Option RecordId
  | .send _ _ _ pc =>
    match pc with
    | .begin | .locked | .inside | .read _ | .next _ _ | .queued => none
    | .written record | .free record => record
    | .head r _ | .linked r | .coded r => some r
  | .pop pc =>
    match pc with
    | .begin | .read _ | .locked _ | .next _ _ | .freed _ | .coded => none
    | .unlinked r | .queue r _ | .linked r => some r

/-- The operation has read the free queue, or the car of a free record is still to be read. -/
def Program.exposed : Program → Bool
  | .send _ _ _ pc =>
    match pc with
    | .read _ | .next _ _ => true
    | _ => false
  | .pop pc =>
    match pc with
    | .queue _ _ | .linked _ | .freed _ => true
    | _ => false

/-- The thread whose pending_interrupt was read and will be written. -/
def Program.watches (t : ThreadId) : Program → Option ThreadId
  | .send _ target _ pc =>
    match pc with
    | .head _ _ | .linked _ | .coded _ => some target
    | _ => none
  | .pop pc =>
    match pc with
    | .read _ | .locked _ | .next _ _ => some t
    | _ => none

/-- The thread whose pending_interrupt the next step writes. -/
def Program.writes (t : ThreadId) : Program → Option ThreadId
  | .send _ target _ (.coded _) => some target
  | .pop (.next _ _) => some t
  | _ => none

/-- The next step writes the free queue. -/
def Program.writesQueue : Program → Bool
  | .send _ _ _ (.next _ _) => true
  | .pop (.linked _) => true
  | _ => false

/-- The record whose code was removed from the pending list and not returned yet. -/
def Program.flying : Program → Option RecordId
  | .pop pc =>
    match pc with
    | .unlinked r | .queue r _ | .linked r | .freed r => some r
    | _ => none
  | .send _ _ _ _ => none

theorem Program.level_pos_of_exposed {program : Program} (exposed : program.exposed = true) :
    0 < program.level := by
  cases program with
  | send interrupt target code pc => cases pc <;> simp_all [Program.exposed, Program.level]
  | pop pc => cases pc <;> simp_all [Program.exposed, Program.level]

/-- How many times a thread has the lock. -/
def Shared.level (shared : Shared) (t : ThreadId) : Nat :=
  match shared.lock with
  | none => 0
  | some (holder, n) => if holder = t then n else 0

/-- Two states of the shared memory which differ in the lock only. -/
structure Shared.Same (shared shared' : Shared) : Prop where
  cell : shared'.cell = shared.cell
  queue : shared'.queue = shared.queue
  pending : shared'.pending = shared.pending
  queued : shared'.queued = shared.queued
  popped : shared'.popped = shared.popped

theorem Shared.Same.refl (shared : Shared) : shared.Same shared := ⟨rfl, rfl, rfl, rfl, rfl⟩

/-- A lock that is held has a counter above zero. -/
def Shared.Counted (shared : Shared) : Prop :=
  ∀ holder n, shared.lock = some (holder, n) → 0 < n

section

variable {shared shared' : Shared} {t : ThreadId}

theorem Shared.getLock_law (got : shared.getLock t = some shared') :
    shared.Same shared' ∧ shared'.Counted ∧ shared'.level t = shared.level t + 1 ∧
      ∀ u, u ≠ t → shared'.level u = shared.level u := by
  simp only [Shared.getLock] at got
  cases lock : shared.lock with
  | none =>
    rw [lock] at got
    cases got
    refine ⟨⟨rfl, rfl, rfl, rfl, rfl⟩, ?_, ?_, ?_⟩
    · intro holder n held
      cases held
      omega
    · simp [Shared.level, lock]
    · intro u differ
      simp [Shared.level, lock, Ne.symm differ]
  | some pair =>
    obtain ⟨holder, n⟩ := pair
    rw [lock] at got
    simp only at got
    split at got
    · rename_i same
      subst same
      cases got
      refine ⟨⟨rfl, rfl, rfl, rfl, rfl⟩, ?_, ?_, ?_⟩
      · intro holder' n' held
        cases held
        omega
      · simp [Shared.level, lock]
      · intro u differ
        simp [Shared.level, lock, Ne.symm differ]
    · cases got

theorem Shared.giveupLock_law (counted : shared.Counted)
    (gave : shared.giveupLock t = some shared') :
    shared.Same shared' ∧ shared'.Counted ∧ shared'.level t + 1 = shared.level t ∧
      ∀ u, u ≠ t → shared'.level u = shared.level u := by
  simp only [Shared.giveupLock] at gave
  cases lock : shared.lock with
  | none =>
    rw [lock] at gave
    cases gave
  | some pair =>
    obtain ⟨holder, n⟩ := pair
    have positive := counted holder n lock
    rw [lock] at gave
    simp only at gave
    split at gave
    · rename_i same
      subst same
      cases gave
      refine ⟨⟨rfl, rfl, rfl, rfl, rfl⟩, ?_, ?_, ?_⟩
      · intro holder' n' held
        by_cases last : n = 1
        · simp [last] at held
        · simp only [if_neg last, some.injEq, Prod.mk.injEq] at held
          omega
      · by_cases last : n = 1
        · simp [Shared.level, lock, last]
        · simp only [Shared.level, lock, if_neg last, if_true]
          omega
      · intro u differ
        by_cases last : n = 1
        · simp [Shared.level, lock, last, Ne.symm differ]
        · simp [Shared.level, lock, last, Ne.symm differ]
    · cases gave

end

/-- The level of what is left of an operation. -/
def levelOf (program : Option Program) : Nat := (program.map Program.level).getD 0

/-- The lock after a step of an operation which was at one level and is at another. -/
structure Shared.Levels (shared shared' : Shared) (t : ThreadId) (before after : Nat) : Prop where
  counted : shared'.Counted
  level : shared'.level t + before = shared.level t + after
  others : ∀ u, u ≠ t → shared'.level u = shared.level u

section

variable {shared shared' : Shared} {t : ThreadId} {before after : Nat}

theorem Shared.Levels.of_same_lock (counted : shared.Counted) (same : shared'.lock = shared.lock)
    (equal : before = after) : shared.Levels shared' t before after := by
  subst equal
  constructor
  · intro holder n held
    rw [same] at held
    exact counted holder n held
  · simp only [Shared.level, same]
  · intro u _
    simp only [Shared.level, same]

theorem Shared.Levels.of_getLock (got : shared.getLock t = some shared')
    (one : after = before + 1) : shared.Levels shared' t before after := by
  obtain ⟨_, counted, level, others⟩ := Shared.getLock_law got
  refine ⟨counted, ?_, others⟩
  omega

theorem Shared.Levels.of_giveupLock (counted : shared.Counted)
    (gave : shared.giveupLock t = some shared') (one : before = after + 1) :
    shared.Levels shared' t before after := by
  obtain ⟨_, counted', level, others⟩ := Shared.giveupLock_law counted gave
  refine ⟨counted', ?_, others⟩
  omega

end

variable {shared shared' : Shared} {t : ThreadId} {program' : Option Program}

theorem Program.step_levels_send {target : ThreadId} {interrupt : Bool} {code : Code} {pc : SendPc}
    (counted : shared.Counted)
    (step : (Program.send interrupt target code pc).step shared t = some (shared', program')) :
    shared.Levels shared' t (Program.send interrupt target code pc).level (levelOf program') := by
  cases pc with
  | begin =>
    simp only [Program.step, map_eq_some_iff] at step
    obtain ⟨middle, got, same⟩ := step
    cases same
    apply Shared.Levels.of_getLock got
    cases interrupt <;> rfl
  | locked =>
    simp only [Program.step, map_eq_some_iff] at step
    obtain ⟨middle, got, same⟩ := step
    cases same
    exact Shared.Levels.of_getLock got rfl
  | written record =>
    simp only [Program.step, map_eq_some_iff] at step
    obtain ⟨middle, gave, same⟩ := step
    cases same
    exact Shared.Levels.of_giveupLock counted gave rfl
  | free record =>
    cases record with
    | none =>
      cases step
      exact Shared.Levels.of_same_lock counted rfl rfl
    | some r =>
      cases step
      exact Shared.Levels.of_same_lock counted rfl rfl
  | queued =>
    cases interrupt with
    | false =>
      cases step
      exact Shared.Levels.of_same_lock counted rfl rfl
    | true =>
      simp only [Program.step, if_true, map_eq_some_iff] at step
      obtain ⟨middle, gave, same⟩ := step
      cases same
      exact Shared.Levels.of_giveupLock counted gave rfl
  | inside | read record | next record next | head r pending | linked r | coded r =>
    cases step
    exact Shared.Levels.of_same_lock counted rfl rfl

theorem Program.step_levels_pop {pc : PopPc} (counted : shared.Counted)
    (step : (Program.pop pc).step shared t = some (shared', program')) :
    shared.Levels shared' t (Program.pop pc).level (levelOf program') := by
  cases pc with
  | begin =>
    cases pending : shared.pending t with
    | none | some r =>
      simp only [Program.step, pending] at step
      cases step
      exact Shared.Levels.of_same_lock counted rfl rfl
  | read r =>
    simp only [Program.step, map_eq_some_iff] at step
    obtain ⟨middle, got, same⟩ := step
    cases same
    exact Shared.Levels.of_getLock got rfl
  | coded =>
    simp only [Program.step, map_eq_some_iff] at step
    obtain ⟨middle, gave, same⟩ := step
    cases same
    exact Shared.Levels.of_giveupLock counted gave rfl
  | locked r | next r next | unlinked r | queue r queue | linked r | freed r =>
    cases step
    exact Shared.Levels.of_same_lock counted rfl rfl

theorem Program.step_levels {program : Program} (counted : shared.Counted)
    (step : program.step shared t = some (shared', program')) :
    shared.Levels shared' t program.level (levelOf program') := by
  cases program with
  | send interrupt target code pc => exact step_levels_send counted step
  | pop pc => exact step_levels_pop counted step

/- What holds between steps, and that an operation keeps what the others rely on. -/

open Ecl.Lib

section

variable (size : Nat) (shared : Shared) (place : RecordId → Place) (t : ThreadId) (id : Nat)

def Holds (r : RecordId) : Prop := r < size ∧ place r = .operation id

/-- What an operation has read is still so, and its record is its own. -/
def Program.Ok : Program → Prop
  | .send _ target code pc =>
    match pc with
    | .begin | .locked | .inside | .queued => True
    | .read record => record = shared.queue
    | .next record next => record = shared.queue ∧ next = shared.cdr record
    | .written record | .free record => ∀ r, record = some r → Holds size place id r
    | .head r pending => Holds size place id r ∧ pending = shared.pending target
    | .linked r => Holds size place id r ∧ (shared.cell r).cdr = shared.pending target
    | .coded r =>
      Holds size place id r ∧ (shared.cell r).cdr = shared.pending target ∧
        (shared.cell r).car = code
  | .pop pc =>
    match pc with
    | .begin | .coded => True
    | .read r | .locked r => shared.pending t = some r
    | .next r next => shared.pending t = some r ∧ next = (shared.cell r).cdr
    | .unlinked r => Holds size place id r
    | .queue r queue => Holds size place id r ∧ queue = shared.queue
    | .linked r => Holds size place id r ∧ (shared.cell r).cdr = shared.queue
    | .freed r => r < size ∧ place r = .free

end

/-- The codes of the records which an operation has removed from a pending list. -/
def Program.codes (shared : Shared) (program : Program) : List Code :=
  (program.flying.map fun r => (shared.cell r).car).toList

def flyingCodes (shared : Shared) (frames : List Frame) : List Code :=
  frames.flatMap fun frame => frame.program.codes shared

/-- What an operation of a thread relies on is left alone. -/
structure Spares (shared shared' : Shared) (place place' : RecordId → Place) (t : ThreadId)
    (frame : Frame) : Prop where
  queue : frame.program.exposed = true → shared'.queue = shared.queue
  pending : ∀ u, frame.program.watches t = some u → shared'.pending u = shared.pending u
  held : ∀ r, place r = .operation frame.id →
    place' r = .operation frame.id ∧ shared'.cell r = shared.cell r
  free : frame.program.exposed = true → ∀ r, place r = .free →
    place' r = .free ∧ shared'.cell r = shared.cell r
  waiting : ∀ u, frame.program.watches t = some u → ∀ r, place r = .pending u →
    shared'.cell r = shared.cell r

namespace Spares

variable {size : Nat} {shared shared' : Shared} {place place' : RecordId → Place} {t : ThreadId}
  {frame : Frame} {free : List RecordId} {waiting : ThreadId → List RecordId}

theorem holds (spares : Spares shared shared' place place' t frame) {r : RecordId}
    (holds : Holds size place frame.id r) :
    Holds size place' frame.id r ∧ shared'.cell r = shared.cell r := by
  obtain ⟨inside, here⟩ := holds
  obtain ⟨here', same⟩ := spares.held r here
  exact ⟨⟨inside, here'⟩, same⟩

theorem send_ok (placed : Placed size shared place free waiting)
    (spares : Spares shared shared' place place' t frame) {interrupt : Bool} {target : ThreadId}
    {code : Code} {pc : SendPc} (program : frame.program = .send interrupt target code pc)
    (ok : (Program.send interrupt target code pc).Ok size shared place t frame.id) :
    (Program.send interrupt target code pc).Ok size shared' place' t frame.id := by
  have queue := spares.queue
  have pending := spares.pending target
  rw [program] at queue pending
  cases pc with
  | begin | locked | inside | queued => trivial
  | read record =>
    show record = shared'.queue
    rw [queue rfl]
    exact ok
  | next record next =>
    obtain ⟨head, link⟩ := ok
    refine ⟨by rw [queue rfl]; exact head, ?_⟩
    rw [link]
    cases record with
    | none => rfl
    | some r =>
      have here := (placed.queue_head head.symm).2
      have same := (spares.free (by rw [program]; rfl) r here).2
      show (shared.cell r).cdr = (shared'.cell r).cdr
      rw [same]
  | written record | free record =>
    intro r whole
    exact (spares.holds (ok r whole)).1
  | head r read =>
    obtain ⟨held, same⟩ := ok
    exact ⟨(spares.holds held).1, by rw [pending rfl]; exact same⟩
  | linked r =>
    obtain ⟨held, link⟩ := ok
    obtain ⟨held', same⟩ := spares.holds held
    exact ⟨held', by rw [pending rfl, same]; exact link⟩
  | coded r =>
    obtain ⟨held, link, car⟩ := ok
    obtain ⟨held', same⟩ := spares.holds held
    exact ⟨held', by rw [pending rfl, same]; exact link, by rw [same]; exact car⟩

theorem pop_ok (placed : Placed size shared place free waiting)
    (spares : Spares shared shared' place place' t frame) {pc : PopPc}
    (program : frame.program = .pop pc) (ok : (Program.pop pc).Ok size shared place t frame.id) :
    (Program.pop pc).Ok size shared' place' t frame.id := by
  have queue := spares.queue
  have pending := spares.pending t
  rw [program] at queue pending
  cases pc with
  | begin | coded => trivial
  | read r | locked r =>
    show shared'.pending t = some r
    rw [pending rfl]
    exact ok
  | next r next =>
    obtain ⟨head, link⟩ := ok
    have here := (placed.pending_head head).2
    have same := spares.waiting t (by rw [program]; rfl) r here
    exact ⟨by rw [pending rfl]; exact head, by rw [same]; exact link⟩
  | unlinked r => exact (spares.holds ok).1
  | queue r read =>
    obtain ⟨held, same⟩ := ok
    exact ⟨(spares.holds held).1, by rw [queue rfl]; exact same⟩
  | linked r =>
    obtain ⟨held, link⟩ := ok
    obtain ⟨held', same⟩ := spares.holds held
    exact ⟨held', by rw [queue rfl, same]; exact link⟩
  | freed r =>
    obtain ⟨inside, here⟩ := ok
    exact ⟨inside, (spares.free (by rw [program]; rfl) r here).1⟩

theorem ok (placed : Placed size shared place free waiting)
    (spares : Spares shared shared' place place' t frame)
    (ok : frame.program.Ok size shared place t frame.id) :
    frame.program.Ok size shared' place' t frame.id := by
  cases program : frame.program with
  | send interrupt target code pc =>
    rw [program] at ok
    exact spares.send_ok placed program ok
  | pop pc =>
    rw [program] at ok
    exact spares.pop_ok placed program ok

theorem codes (spares : Spares shared shared' place place' t frame)
    (ok : frame.program.Ok size shared place t frame.id) :
    frame.program.codes shared' = frame.program.codes shared := by
  unfold Program.codes
  cases program : frame.program with
  | send interrupt target code pc => rfl
  | pop pc =>
    rw [program] at ok
    cases pc with
    | begin | read r | locked r | next r next | coded => rfl
    | unlinked r =>
      simp only [Program.flying, map_some]
      rw [(spares.holds ok).2]
    | queue r read | linked r =>
      simp only [Program.flying, map_some]
      rw [(spares.holds ok.1).2]
    | freed r =>
      simp only [Program.flying, map_some]
      rw [(spares.free (by rw [program]; rfl) r ok.2).2]

end Spares

/-- Every record is in one place, the operations can rely on what they have read, the lock is
held as often as the operations say, and no code is lost. -/
structure Good (size : Nat) (st : State) (place : RecordId → Place) (free : List RecordId)
    (waiting : ThreadId → List RecordId) : Prop where
  placed : Placed size st.shared place free waiting
  young : ∀ t, ∀ frame ∈ st.frames t, frame.id < st.count
  nodup : ∀ t, ((st.frames t).map Frame.id).Nodup
  apart : ∀ t u, ∀ frame ∈ st.frames t, ∀ other ∈ st.frames u, frame.id = other.id → t = u
  ok : ∀ t, ∀ frame ∈ st.frames t, frame.program.Ok size st.shared place t frame.id
  owned : ∀ r id, r < size → place r = .operation id →
    ∃ t, ∃ frame ∈ st.frames t, frame.id = id ∧ frame.program.held = some r
  counted : st.shared.Counted
  levels : ∀ t, st.shared.level t = ((st.frames t).map fun frame => frame.program.level).sum
  codes : ∀ t code, (st.shared.queued t).count code =
    (st.shared.popped t).count code +
      ((waiting t).map fun r => (st.shared.cell r).car).count code +
      (flyingCodes st.shared (st.frames t)).count code

end Ecl.Signals
