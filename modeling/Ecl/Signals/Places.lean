import Ecl.Lib.Linked
import Ecl.Signals.Machine
import Mathlib.Data.List.Nodup

/- Where the records are: the free queue, a pending list or an operation in progress. -/
namespace Ecl.Signals

open Ecl.Lib List Function

inductive Place where
  | free
  | pending (t : ThreadId)
  | operation (id : Nat)
  deriving DecidableEq

def Shared.next (shared : Shared) (r : RecordId) : Option RecordId := (shared.cell r).cdr

theorem Shared.next_setCdr_of_ne (shared : Shared) (r : RecordId) (value : Option RecordId)
    {x : RecordId} (differ : x ≠ r) : (shared.setCdr r value).next x = shared.next x := by
  simp only [Shared.next, Shared.setCdr, if_neg differ]

/-- The records below `size` are in their places, once each. -/
structure Placed (size : Nat) (shared : Shared) (place : RecordId → Place)
    (free : List RecordId) (waiting : ThreadId → List RecordId) : Prop where
  freeLinked : Linked shared.next free shared.queue
  freeNodup : free.Nodup
  freePlace : ∀ r, r ∈ free ↔ r < size ∧ place r = .free
  waitingLinked : ∀ t, Linked shared.next (waiting t) (shared.pending t)
  waitingNodup : ∀ t, (waiting t).Nodup
  waitingPlace : ∀ t r, r ∈ waiting t ↔ r < size ∧ place r = .pending t

namespace Placed

variable {size : Nat} {shared : Shared} {place : RecordId → Place} {free : List RecordId}
  {waiting : ThreadId → List RecordId} (placed : Placed size shared place free waiting)

include placed

variable {r : RecordId}

theorem queue_head (head : shared.queue = some r) : r < size ∧ place r = .free := by
  have linked := placed.freeLinked
  rw [head] at linked
  obtain ⟨rest, same, _⟩ := linked.exists_tail
  exact (placed.freePlace r).mp (by rw [same]; exact mem_cons_self)

variable {t : ThreadId}

theorem pending_head (head : shared.pending t = some r) : r < size ∧ place r = .pending t := by
  have linked := placed.waitingLinked t
  rw [head] at linked
  obtain ⟨rest, same, _⟩ := linked.exists_tail
  exact (placed.waitingPlace t r).mp (by rw [same]; exact mem_cons_self)

theorem same {shared' : Shared} (next : shared'.next = shared.next)
    (queue : shared'.queue = shared.queue) (pending : shared'.pending = shared.pending) :
    Placed size shared' place free waiting where
  freeLinked := by
    rw [next, queue]
    exact placed.freeLinked
  freeNodup := placed.freeNodup
  freePlace := placed.freePlace
  waitingLinked t := by
    rw [next, pending]
    exact placed.waitingLinked t
  waitingNodup := placed.waitingNodup
  waitingPlace := placed.waitingPlace

variable {id : Nat}

theorem setCdr (held : place r = .operation id)
    (value : Option RecordId) : Placed size (shared.setCdr r value) place free waiting where
  freeLinked := by
    apply placed.freeLinked.congr
    intro x member
    apply Shared.next_setCdr_of_ne
    rintro rfl
    have here := ((placed.freePlace x).mp member).2
    rw [held] at here
    cases here
  freeNodup := placed.freeNodup
  freePlace := placed.freePlace
  waitingLinked t := by
    apply (placed.waitingLinked t).congr
    intro x member
    apply Shared.next_setCdr_of_ne
    rintro rfl
    have here := ((placed.waitingPlace t x).mp member).2
    rw [held] at here
    cases here
  waitingNodup := placed.waitingNodup
  waitingPlace := placed.waitingPlace

theorem setCar (r : RecordId) (code : Code) :
    Placed size (shared.setCar r code) place free waiting := by
  refine placed.same ?_ rfl rfl
  funext x
  simp only [Shared.next, Shared.setCar]
  split <;> rfl

theorem take (head : shared.queue = some r) (id : Nat) : ∃ rest, free = r :: rest ∧
      Placed size { shared with queue := shared.next r }
        (update place r (.operation id)) rest waiting := by
  have linked := placed.freeLinked
  rw [head] at linked
  obtain ⟨rest, rfl, tail⟩ := linked.exists_tail
  obtain ⟨new, nodup⟩ := nodup_cons.mp placed.freeNodup
  refine ⟨rest, rfl, tail, nodup, ?_, placed.waitingLinked, placed.waitingNodup, ?_⟩
  · intro x
    have before := placed.freePlace x
    rw [mem_cons] at before
    by_cases same : x = r
    · subst same
      rw [update_self]
      exact ⟨fun member => absurd member new, fun both => nomatch both.2⟩
    · rw [update_of_ne same]
      exact ⟨fun member => before.mp (.inr member),
        fun here => (before.mpr here).resolve_left same⟩
  · intro t x
    by_cases same : x = r
    · subst same
      have here := (placed.queue_head head).2
      rw [update_self, placed.waitingPlace, here]
      constructor
      · intro both
        cases both.2
      · intro both
        cases both.2
    · rw [update_of_ne same]
      exact placed.waitingPlace t x

theorem release (inside : r < size) (held : place r = .operation id)
    (link : shared.next r = shared.queue) :
    Placed size { shared with queue := some r } (update place r .free) (r :: free)
      waiting := by
  refine ⟨⟨rfl, ?_⟩, ?_, ?_, placed.waitingLinked, placed.waitingNodup, ?_⟩
  · show Linked shared.next free (shared.next r)
    rw [link]
    exact placed.freeLinked
  · refine nodup_cons.mpr ⟨?_, placed.freeNodup⟩
    intro member
    have here := ((placed.freePlace r).mp member).2
    rw [held] at here
    cases here
  · intro x
    by_cases same : x = r
    · subst same
      rw [update_self]
      exact ⟨fun _ => ⟨inside, rfl⟩, fun _ => mem_cons_self⟩
    · rw [update_of_ne same, mem_cons, ← placed.freePlace]
      exact or_iff_right same
  · intro t x
    by_cases same : x = r
    · subst same
      rw [update_self, placed.waitingPlace, held]
      constructor
      · intro both
        cases both.2
      · intro both
        cases both.2
    · rw [update_of_ne same]
      exact placed.waitingPlace t x

theorem push (inside : r < size) (held : place r = .operation id)
    (link : shared.next r = shared.pending t) :
    Placed size (shared.setPending t (some r)) (update place r (.pending t)) free
      (update waiting t (r :: waiting t)) := by
  refine ⟨placed.freeLinked, placed.freeNodup, ?_, ?_, ?_, ?_⟩
  · intro x
    by_cases same : x = r
    · subst same
      rw [update_self, placed.freePlace, held]
      constructor
      · intro both
        cases both.2
      · intro both
        cases both.2
    · rw [update_of_ne same]
      exact placed.freePlace x
  · intro i
    by_cases self : i = t
    · subst self
      rw [update_self]
      simp only [Shared.setPending, if_true]
      refine ⟨rfl, ?_⟩
      show Linked shared.next (waiting i) (shared.next r)
      rw [link]
      exact placed.waitingLinked i
    · rw [update_of_ne self]
      simp only [Shared.setPending, if_neg self]
      exact placed.waitingLinked i
  · intro i
    by_cases self : i = t
    · subst self
      rw [update_self]
      refine nodup_cons.mpr ⟨?_, placed.waitingNodup i⟩
      intro member
      have here := ((placed.waitingPlace i r).mp member).2
      rw [held] at here
      cases here
    · rw [update_of_ne self]
      exact placed.waitingNodup i
  · intro i x
    by_cases same : x = r
    · subst same
      rw [update_self]
      by_cases self : i = t
      · subst self
        rw [update_self]
        exact ⟨fun _ => ⟨inside, rfl⟩, fun _ => mem_cons_self⟩
      · rw [update_of_ne self, placed.waitingPlace, held]
        constructor
        · intro both
          cases both.2
        · intro both
          exact absurd (Place.pending.inj both.2).symm self
    · rw [update_of_ne same, ← placed.waitingPlace]
      by_cases self : i = t
      · subst self
        rw [update_self, mem_cons]
        exact or_iff_right same
      · rw [update_of_ne self]

theorem unlink (head : shared.pending t = some r) (id : Nat) : ∃ rest, waiting t = r :: rest ∧
      Placed size (shared.setPending t (shared.next r)) (update place r (.operation id))
        free (update waiting t rest) := by
  have linked := placed.waitingLinked t
  rw [head] at linked
  obtain ⟨rest, whole, tail⟩ := linked.exists_tail
  have nodup := placed.waitingNodup t
  rw [whole] at nodup
  obtain ⟨new, nodup⟩ := nodup_cons.mp nodup
  have here := (placed.pending_head head).2
  refine ⟨rest, whole, placed.freeLinked, placed.freeNodup, ?_, ?_, ?_, ?_⟩
  · intro x
    by_cases same : x = r
    · subst same
      rw [update_self, placed.freePlace, here]
      constructor
      · intro both
        cases both.2
      · intro both
        cases both.2
    · rw [update_of_ne same]
      exact placed.freePlace x
  · intro i
    by_cases self : i = t
    · subst self
      rw [update_self]
      simp only [Shared.setPending, if_true]
      exact tail
    · rw [update_of_ne self]
      simp only [Shared.setPending, if_neg self]
      exact placed.waitingLinked i
  · intro i
    by_cases self : i = t
    · subst self
      rw [update_self]
      exact nodup
    · rw [update_of_ne self]
      exact placed.waitingNodup i
  · intro i x
    by_cases self : i = t
    · subst self
      rw [update_self]
      have before := placed.waitingPlace i x
      rw [whole, mem_cons] at before
      by_cases same : x = r
      · subst same
        rw [update_self]
        exact ⟨fun member => absurd member new, fun both => nomatch both.2⟩
      · rw [update_of_ne same]
        exact ⟨fun member => before.mp (.inr member),
          fun inside => (before.mpr inside).resolve_left same⟩
    · rw [update_of_ne self, placed.waitingPlace]
      by_cases same : x = r
      · subst same
        rw [update_self, here]
        exact ⟨fun both => absurd (Place.pending.inj both.2).symm self, fun both => nomatch both.2⟩
      · rw [update_of_ne same]

end Placed

end Ecl.Signals
