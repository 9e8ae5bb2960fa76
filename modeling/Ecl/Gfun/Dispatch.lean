import Ecl.Gfun.Cache

/- The dispatcher _ecl_standard_dispatch in one thread, step by step, with the requests of
si_clear_gfun_hash that reach the thread in between. -/
namespace Ecl.Gfun

open Ecl.Equality Cache

/-- An effective method, with the number of requests for its generic function that had been
issued when the methods were read. -/
structure Method where
  version : Nat
  deriving DecidableEq

/-- A call of a generic function: the words that get_spec_vector finds for the arguments,
until one is missing. -/
structure Call where
  gf : Word
  specializers : List Word
  missing : Bool
  deriving DecidableEq

def Call.keys (call : Call) : Keys := call.gf :: call.specializers

/-- How far a dispatch has come. While the effective method is computed other dispatches
run; the record was reserved unless the call has too many specialized arguments. -/
inductive Phase where
  | entered
  | computing (record : Option Nat) (read : Option Nat)
  deriving DecidableEq

structure Pending where
  call : Call
  started : Nat
  phase : Phase
  deriving DecidableEq

/-- A dispatch that got an effective method. -/
structure Ran where
  call : Call
  started : Nat
  method : Method
  deriving DecidableEq

/-- The fields of a thread, the dispatches under way, the innermost first, the number of
requests that were issued for each function and what the dispatches ran. -/
structure Thread where
  cache : Cache Method
  vector : Keys
  clearList : List Target
  pending : List Pending
  requests : Word → Nat
  log : List Ran

namespace Thread

variable (thread : Thread)

/-- A part of si_clear_gfun_hash: the request reaches this thread. -/
def request (target : Target) : Thread :=
  { thread with
    clearList := target :: thread.clearList
    requests := fun gf =>
      if target = .all ∨ target = .function gf then thread.requests gf + 1
      else thread.requests gf }

/-- The requests are carried out at the start of a dispatch. -/
def processClearList : Thread :=
  { thread with
    cache := thread.clearList.foldl doClearMethodHash thread.cache
    clearList := [] }

/-- A dispatch starts, unless another one is on its way to the cache. -/
def enter (call : Call) : Option Thread :=
  match thread.pending with
  | ⟨_, _, .entered⟩ :: _ => none
  | pending =>
    some { thread.processClearList with
      pending := ⟨call, thread.requests call.gf, .entered⟩ :: pending }

/-- The words that are overwritten when get_spec_vector does not set the fill pointer. -/
def overwrite (words vector : List Word) : List Word :=
  words.take vector.length ++ vector.drop words.length

/-- The dimension of method_spec_vector. -/
def maximum : Nat := 64

/-- The spec vector is filled and the cache is searched. -/
def look : Option Thread :=
  match thread.pending with
  | ⟨call, started, .entered⟩ :: pending =>
    if maximum < call.keys.length then
      some { thread with
        vector := overwrite call.keys thread.vector
        pending := ⟨call, started, .computing none none⟩ :: pending }
    else if call.missing then
      some { thread with vector := overwrite call.keys thread.vector, pending := pending }
    else
      match thread.cache.searchMethodHash call.keys with
      | none => none
      | some (e, cache) =>
        let thread := { thread with cache := cache, vector := call.keys }
        match (cache.record e).key with
        | none => some { thread with
            pending := ⟨call, started, .computing (some e) none⟩ :: pending }
        | some _ =>
          match (cache.record e).value with
          | .function method => some { thread with
              pending := pending, log := ⟨call, started, method⟩ :: thread.log }
          | _ => some { thread with pending := pending }
  | _ => none

/-- The methods of the generic function are read. -/
def read : Option Thread :=
  match thread.pending with
  | ⟨call, started, .computing record none⟩ :: pending =>
    some { thread with
      pending := ⟨call, started, .computing record (some (thread.requests call.gf))⟩ :: pending }
  | _ => none

/-- The effective method is computed; it is stored and called. When the record was taken
meanwhile, another one is found for whatever is in the spec vector. -/
def finish : Option Thread :=
  match thread.pending with
  | ⟨call, started, .computing record (some version)⟩ :: pending =>
    let thread := { thread with
      pending := pending, log := ⟨call, started, ⟨version⟩⟩ :: thread.log }
    match record with
    | none => some thread
    | some e =>
      if (thread.cache.record e).key = none then
        some { thread with cache := thread.cache.fill e call.keys ⟨version⟩ }
      else
        match thread.cache.searchMethodHash thread.vector with
        | none => none
        | some (e, cache) => some { thread with cache := cache.fill e call.keys ⟨version⟩ }
  | _ => none

/-- The computation is left by a transfer of control. -/
def abort : Option Thread :=
  match thread.pending with
  | ⟨_, _, .computing _ _⟩ :: pending => some { thread with pending := pending }
  | _ => none

end Thread

/-- The steps of a thread, and the requests of any thread. -/
inductive Step where
  | request (target : Target)
  | enter (call : Call)
  | look
  | read
  | finish
  | abort
  deriving DecidableEq

def Step.run (thread : Thread) : Step → Option Thread
  | .request target => some (thread.request target)
  | .enter call => thread.enter call
  | .look => thread.look
  | .read => thread.read
  | .finish => thread.finish
  | .abort => thread.abort

def Thread.initial (size : Nat) : Thread where
  cache := cleared size
  vector := []
  clearList := []
  pending := []
  requests := fun _ => 0
  log := []

/-- The states that steps reach which all meet a condition. -/
inductive Goes (size : Nat) (allowed : Thread → Step → Prop) : Thread → Prop where
  | initial : Goes size allowed (Thread.initial size)
  | step {thread thread' : Thread} (step : Step) (reached : Goes size allowed thread)
      (meets : allowed thread step) (run : step.run thread = some thread') :
      Goes size allowed thread'

end Ecl.Gfun
