import Mathlib.Data.List.Basic

/- A sequence that is read item by item, where the item that was read last can be put back. -/
namespace Ecl.Lib

open Option

/-- What can be asked of a sequence. -/
inductive Request (α : Type) where
  | read
  | peek
  | listen
  | unread (c : α)

inductive Reply (α : Type) where
  | item (c : α)
  | available
  | atEnd
  | done

/-- The items that were read, the last one first, and those that were not. -/
structure Pushback (α : Type) where
  taken : List α
  remaining : List α
  /-- The last item was read and not put back. -/
  fresh : Bool

namespace Pushback

variable {α : Type}

def start (content : List α) : Pushback α := ⟨[], content, false⟩

def content (s : Pushback α) : List α := s.taken.reverse ++ s.remaining

def first (s : Pushback α) : Reply α := s.remaining.head?.elim .atEnd .item

section

variable [DecidableEq α]

/-- The reply to a request; there is none when another item than the one just read is put back. -/
def step (s : Pushback α) : Request α → Option (Reply α × Pushback α)
  | .read =>
    match s.remaining with
    | [] => some (.atEnd, { s with fresh := false })
    | c :: rest => some (.item c, ⟨c :: s.taken, rest, true⟩)
  | .peek => some (s.first, s)
  | .listen => some (if s.remaining = [] then .atEnd else .available, s)
  | .unread c =>
    match s.taken with
    | [] => none
    | d :: taken =>
      if s.fresh = true ∧ d = c then some (.done, ⟨taken, c :: s.remaining, false⟩) else none

def run (s : Pushback α) : List (Request α) → Option (List (Reply α) × Pushback α)
  | [] => some ([], s)
  | request :: requests =>
    (s.step request).bind fun (reply, s) =>
      (s.run requests).map fun (replies, s) => (reply :: replies, s)

variable {s : Pushback α}

theorem step_unread {s' : Pushback α} {c : α} {reply : Reply α}
    (stepped : s.step (.unread c) = some (reply, s')) :
    s.fresh = true ∧ s.taken.head? = some c ∧ reply = .done ∧
      s' = ⟨s.taken.tail, c :: s.remaining, false⟩ := by
  cases found : s.taken with
  | nil => simp [step, found] at stepped
  | cons d taken =>
    simp only [step, found] at stepped
    split at stepped
    · rename_i allowed
      cases stepped
      exact ⟨allowed.1, by simp [allowed.2], rfl, rfl⟩
    · cases stepped

variable {request : Request α}

theorem step_content {s' : Pushback α} {reply : Reply α}
    (stepped : s.step request = some (reply, s')) : s'.content = s.content := by
  cases request with
  | read =>
    cases found : s.remaining with
    | nil =>
      rw [step, found] at stepped
      cases stepped
      rw [content, content, found]
    | cons c rest =>
      rw [step, found] at stepped
      cases stepped
      simp [content, found]
  | peek =>
    cases stepped
    rfl
  | listen =>
    cases stepped
    rfl
  | unread c =>
    have ⟨_, last, _, same⟩ := step_unread stepped
    rw [same, content, content]
    cases found : s.taken with
    | nil => simp [found] at last
    | cons d taken =>
      rw [found] at last
      cases last
      simp

variable {requests : List (Request α)}

theorem run_cons {q : Pushback α}
    {replies : List (Reply α)} (ran : s.run (request :: requests) = some (replies, q)) :
    ∃ reply s' others, s.step request = some (reply, s') ∧ s'.run requests = some (others, q) ∧
      replies = reply :: others := by
  simp only [run, bind_eq_some_iff, map_eq_some_iff] at ran
  obtain ⟨⟨reply, s'⟩, stepped, ⟨others, last⟩, rest, same⟩ := ran
  cases same
  exact ⟨reply, s', others, stepped, rest, rfl⟩

theorem run_content :
    ∀ {s q : Pushback α} {replies : List (Reply α)}, s.run requests = some (replies, q) →
      q.content = s.content := by
  induction requests with
  | nil =>
    intro s q replies ran
    cases ran
    rfl
  | cons request requests ih =>
    intro s q replies ran
    have ⟨reply, s', others, stepped, rest, _⟩ := run_cons ran
    rw [ih rest, step_content stepped]

/-- The reply where a read at the end does not take away that the last item can be put back. -/
def stepKeeping (s : Pushback α) (request : Request α) : Option (Reply α × Pushback α) :=
  match request, s.remaining with
  | .read, [] => some (.atEnd, s)
  | _, _ => s.step request

theorem stepKeeping_eq (s : Pushback α) (other : request ≠ .read) :
    s.stepKeeping request = s.step request := by
  cases request with
  | read => exact absurd rfl other
  | _ => cases remaining : s.remaining <;> simp only [stepKeeping]

def runKeeping (s : Pushback α) : List (Request α) → Option (List (Reply α) × Pushback α)
  | [] => some ([], s)
  | request :: requests =>
    (s.stepKeeping request).bind fun (reply, s) =>
      (s.runKeeping requests).map fun (replies, s) => (reply :: replies, s)

theorem runKeeping_cons {q : Pushback α}
    {replies : List (Reply α)} (ran : s.runKeeping (request :: requests) = some (replies, q)) :
    ∃ reply s' others, s.stepKeeping request = some (reply, s') ∧
      s'.runKeeping requests = some (others, q) ∧ replies = reply :: others := by
  simp only [runKeeping, bind_eq_some_iff, map_eq_some_iff] at ran
  obtain ⟨⟨reply, s'⟩, stepped, ⟨others, last⟩, rest, same⟩ := ran
  cases same
  exact ⟨reply, s', others, stepped, rest, rfl⟩

end

end Pushback

end Ecl.Lib
