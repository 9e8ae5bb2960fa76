import Mathlib.Data.List.Basic

/- The records of pending interrupts in unixint.d: ecl_interrupt_process, queue_signal and
pop_signal of any number of threads, one access to shared memory at a time. -/
namespace Ecl.Signals

/-- A cons of the list that create_signal_queue makes. -/
abbrev RecordId : Type := Nat

abbrev ThreadId : Type := Nat

/-- What is queued: a function or a signal, as an object. -/
abbrev Code : Type := Nat

structure Cell where
  car : Code
  cdr : Option RecordId
  deriving DecidableEq

/-- What the threads share: the conses, cl_core.signal_queue, pending_interrupt of every
thread and the holder of signal_queue_lock with its counter. The codes that got a record
and those that were popped are kept for each thread. -/
structure Shared where
  cell : RecordId → Cell
  queue : Option RecordId
  pending : ThreadId → Option RecordId
  lock : Option (ThreadId × Nat)
  queued : ThreadId → List Code
  popped : ThreadId → List Code

namespace Shared

variable (shared : Shared)

/-- The macro CDR, on a list. -/
def cdr : Option RecordId → Option RecordId
  | none => none
  | some r => (shared.cell r).cdr

def setCdr (r : RecordId) (value : Option RecordId) : Shared :=
  { shared with cell := fun i =>
      if i = r then { shared.cell i with cdr := value } else shared.cell i }

def setCar (r : RecordId) (code : Code) : Shared :=
  { shared with cell := fun i =>
      if i = r then { shared.cell i with car := code } else shared.cell i }

def setPending (t : ThreadId) (value : Option RecordId) : Shared :=
  { shared with pending := fun i => if i = t then value else shared.pending i }

def logQueued (t : ThreadId) (code : Code) : Shared :=
  { shared with queued := fun i => if i = t then code :: shared.queued i else shared.queued i }

def logPopped (t : ThreadId) (code : Code) : Shared :=
  { shared with popped := fun i => if i = t then code :: shared.popped i else shared.popped i }

/-- mp_get_lock on a recursive lock. A thread waits while another one holds it. -/
def getLock (t : ThreadId) : Option Shared :=
  match shared.lock with
  | none => some { shared with lock := some (t, 1) }
  | some (holder, n) => if holder = t then some { shared with lock := some (t, n + 1) } else none

def giveupLock (t : ThreadId) : Option Shared :=
  match shared.lock with
  | none => none
  | some (holder, n) =>
    if holder = t then some { shared with lock := if n = 1 then none else some (t, n - 1) }
    else none

end Shared

/-- The places in queue_signal, called by ecl_interrupt_process with the lock held or by
handle_or_queue. A place names what was read by then. -/
inductive SendPc where
  | begin
  | locked
  | inside
  | read (record : Option RecordId)
  | next (record next : Option RecordId)
  | written (record : Option RecordId)
  | free (record : Option RecordId)
  | head (r : RecordId) (pending : Option RecordId)
  | linked (r : RecordId)
  | coded (r : RecordId)
  | queued
  deriving DecidableEq

/-- The places in pop_signal. -/
inductive PopPc where
  | begin
  | read (r : RecordId)
  | locked (r : RecordId)
  | next (r : RecordId) (next : Option RecordId)
  | unlinked (r : RecordId)
  | queue (r : RecordId) (queue : Option RecordId)
  | linked (r : RecordId)
  | freed (r : RecordId)
  | coded
  deriving DecidableEq

/-- An operation in progress. -/
inductive Program where
  | send (interrupt : Bool) (target : ThreadId) (code : Code) (pc : SendPc)
  | pop (pc : PopPc)
  deriving DecidableEq

def Program.step (shared : Shared) (t : ThreadId) : Program → Option (Shared × Option Program)
  | .send interrupt target code pc =>
    let goes (shared : Shared) (pc : SendPc) : Shared × Option Program :=
      (shared, some (.send interrupt target code pc))
    match pc with
    | .begin =>
      (shared.getLock t).map fun shared => goes shared (if interrupt then .locked else .inside)
    | .locked => (shared.getLock t).map fun shared => goes shared .inside
    | .inside => some (goes shared (.read shared.queue))
    | .read record => some (goes shared (.next record (shared.cdr record)))
    | .next record next => some (goes { shared with queue := next } (.written record))
    | .written record => (shared.giveupLock t).map fun shared => goes shared (.free record)
    | .free none => some (goes shared .queued)
    | .free (some r) => some (goes shared (.head r (shared.pending target)))
    | .head r pending => some (goes (shared.setCdr r pending) (.linked r))
    | .linked r => some (goes (shared.setCar r code) (.coded r))
    | .coded r => some (goes ((shared.setPending target (some r)).logQueued target code) .queued)
    | .queued =>
      if interrupt then (shared.giveupLock t).map fun shared => (shared, none)
      else some (shared, none)
  | .pop pc =>
    let goes (shared : Shared) (pc : PopPc) : Shared × Option Program := (shared, some (.pop pc))
    match pc with
    | .begin =>
      match shared.pending t with
      | none => some (shared, none)
      | some r => some (goes shared (.read r))
    | .read r => (shared.getLock t).map fun shared => goes shared (.locked r)
    | .locked r => some (goes shared (.next r (shared.cell r).cdr))
    | .next r next => some (goes (shared.setPending t next) (.unlinked r))
    | .unlinked r => some (goes shared (.queue r shared.queue))
    | .queue r queue => some (goes (shared.setCdr r queue) (.linked r))
    | .linked r => some (goes { shared with queue := some r } (.freed r))
    | .freed r => some (goes (shared.logPopped t (shared.cell r).car) .coded)
    | .coded => (shared.giveupLock t).map fun shared => (shared, none)

/-- An operation with a number of its own. -/
structure Frame where
  id : Nat
  program : Program
  deriving DecidableEq

/-- The operations in progress in each thread; a signal handler is entered inside of others,
which wait for it. -/
structure State where
  shared : Shared
  frames : ThreadId → List Frame
  count : Nat

def State.setFrames (st : State) (t : ThreadId) (shared : Shared) (frames : List Frame) : State :=
  { st with
    shared := shared
    frames := fun i => if i = t then frames else st.frames i }

/-- What a thread may begin: interrupt a thread, queue a signal for itself, pop one. -/
inductive Start where
  | interrupt (target : ThreadId) (code : Code)
  | signal (code : Code)
  | pop
  deriving DecidableEq

def Start.program (t : ThreadId) : Start → Program
  | .interrupt target code => .send true target code .begin
  | .signal code => .send false t code .begin
  | .pop => .pop .begin

inductive Step where
  | start (t : ThreadId) (what : Start)
  | advance (t : ThreadId)
  deriving DecidableEq

/-- A thread begins an operation, or its innermost operation makes a step. -/
def Step.run (st : State) : Step → Option State
  | .start t what =>
    some { st.setFrames t st.shared (⟨st.count, what.program t⟩ :: st.frames t) with
      count := st.count + 1 }
  | .advance t =>
    match st.frames t with
    | [] => none
    | frame :: rest =>
      match frame.program.step st.shared t with
      | none => none
      | some (shared, none) => some (st.setFrames t shared rest)
      | some (shared, some program) =>
        some (st.setFrames t shared ({ frame with program := program } :: rest))

/-- The queue of create_signal_queue, and no interrupt pending. -/
def initial (size : Nat) : State where
  shared :=
    { cell := fun r => ⟨0, if r + 1 < size then some (r + 1) else none⟩
      queue := if 0 < size then some 0 else none
      pending := fun _ => none
      lock := none
      queued := fun _ => []
      popped := fun _ => [] }
  frames := fun _ => []
  count := 0

/-- The states that steps reach which all meet a condition. -/
inductive Reachable (size : Nat) (allowed : State → Step → Prop) : State → Prop where
  | initial : Reachable size allowed (initial size)
  | step {st st' : State} (step : Step) (reached : Reachable size allowed st)
      (meets : allowed st step) (run : step.run st = some st') : Reachable size allowed st'

end Ecl.Signals
