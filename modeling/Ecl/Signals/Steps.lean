import Ecl.Signals.Advance

/- Every step of queue_signal and pop_signal keeps the records in their places. -/
namespace Ecl.Signals

open List Option Function

/-- A step writes the free queue only when no operation that it interrupted has read it, and
pending_interrupt of a thread only when no other operation has read it and will write it. -/
def Undisturbed (st : State) : Step → Prop
  | .start _ _ => True
  | .advance t =>
    ∀ frame rest, st.frames t = frame :: rest →
      (frame.program.writesQueue = true → ∀ other ∈ rest, other.program.exposed = false) ∧
      ∀ u, frame.program.writes t = some u →
        ∀ v, ∀ other ∈ st.frames v, other.id ≠ frame.id → other.program.watches v ≠ some u

theorem operation_of_update {place : RecordId → Place} {r x : RecordId} {new : Place} {id : Nat}
    (moved : new ≠ .operation id) (here : update place r new x = .operation id) :
    x ≠ r ∧ place x = .operation id := by
  by_cases same : x = r
  · subst same
    rw [update_self] at here
    exact absurd here moved
  · rw [update_of_ne same] at here
    exact ⟨same, here⟩

namespace Good

variable {size : Nat} {st : State} {place : RecordId → Place} {free : List RecordId}
  {waiting : ThreadId → List RecordId} {t : ThreadId} {id : Nat} {program : Program}
  {rest : List Frame} {shared' : Shared} {program' : Option Program}

theorem quiet (good : Good size st place free waiting) (top : st.frames t = ⟨id, program⟩ :: rest)
    (step : program.step st.shared t = some (shared', program')) (same : st.shared.Same shared')
    (ok : ∀ after, program' = some after → after.Ok size st.shared place t id)
    (held : ∀ r, program.held = some r → ∃ after, program' = some after ∧ after.held = some r)
    (flying : program'.bind Program.flying = program.flying) :
    Good size (st.setFrames t shared' (continued id program' rest)) place free waiting := by
  have next : shared'.next = st.shared.next := by
    funext r
    simp only [Shared.next, same.cell]
  apply good.advance top step (good.placed.same next same.queue same.pending)
  · intro u other _ _
    exact Spares.of_same same
  · constructor
    · intro after whole
      have frame : Spares st.shared shared' place place t ⟨id, after⟩ := Spares.of_same same
      exact frame.ok good.placed (ok after whole)
    · intro r other _ _ here
      exact here
    · intro r inside here
      exact held r (good.held_top top inside here)
    · intro u code
      have codes : (program'.map fun after => after.codes shared').getD [] =
          program.codes st.shared := by
        simp only [Program.codes, ← flying, same.cell]
        cases program' with
        | none => rfl
        | some after => rfl
      rw [codes, same.queued, same.popped, same.cell]

variable {r : RecordId}

theorem writeCell (good : Good size st place free waiting)
    (top : st.frames t = ⟨id, program⟩ :: rest) {after : Program}
    (step : program.step st.shared t = some (shared', some after))
    (holds : Holds size place id r)
    (queue : shared'.queue = st.shared.queue) (pending : shared'.pending = st.shared.pending)
    (queued : shared'.queued = st.shared.queued) (popped : shared'.popped = st.shared.popped)
    (cell : ∀ x, x ≠ r → shared'.cell x = st.shared.cell x)
    (placed : Placed size shared' place free waiting)
    (ok : after.Ok size shared' place t id) (held : program.held = some r)
    (held' : after.held = some r) (codes : after.codes shared' = program.codes st.shared) :
    Good size (st.setFrames t shared' (continued id (some after) rest)) place free waiting := by
  apply good.advance top step placed
  · intro u other member differ
    apply Spares.of_change r
    · intro _
      exact queue
    · intro v _
      rw [pending]
    · exact cell
    · intro x _
      rfl
    · rw [holds.2]
      intro same
      exact differ (Place.operation.inj same).symm
    · intro _ here
      rw [holds.2] at here
      cases here
    · intro v _ here
      rw [holds.2] at here
      cases here
  · constructor
    · intro next whole
      cases whole
      exact ok
    · intro x other _ _ here
      exact here
    · intro x inside here
      refine ⟨after, rfl, ?_⟩
      rw [held', ← held]
      exact good.held_top top inside here
    · intro u code
      have cars : (waiting u).map (fun x => (shared'.cell x).car) =
          (waiting u).map fun x => (st.shared.cell x).car := by
        apply map_congr_left
        intro x member
        rw [cell x]
        rintro rfl
        have here := ((good.placed.waitingPlace u x).mp member).2
        rw [holds.2] at here
        cases here
      simp only [map_some, getD_some]
      rw [codes, queued, popped, cars]

theorem take (good : Good size st place free waiting) {interrupt : Bool} {target : ThreadId}
    {code : Code} {next : Option RecordId}
    (top : st.frames t = ⟨id, .send interrupt target code (.next (some r) next)⟩ :: rest)
    (below : ∀ other ∈ rest, other.program.exposed = false) :
    ∃ place' free', Good size
      (st.setFrames t { st.shared with queue := next }
        (continued id (some (.send interrupt target code (.written (some r)))) rest))
      place' free' waiting := by
  obtain ⟨head, link⟩ : some r = st.shared.queue ∧ next = st.shared.next r := by
    apply good.ok t ⟨id, .send interrupt target code (.next (some r) next)⟩
    rw [top]
    exact mem_cons_self
  obtain ⟨inside, here⟩ := good.placed.queue_head head.symm
  obtain ⟨tail, _, placed⟩ := good.placed.take head.symm id
  rw [← link] at placed
  refine ⟨update place r (.operation id), tail, ?_⟩
  apply good.advance top rfl placed
  · intro u other member differ
    have hidden := good.not_exposed top rfl below member differ
    apply Spares.of_change r
    · intro exposed
      rw [hidden] at exposed
      cases exposed
    · intro v _
      rfl
    · intro x _
      rfl
    · intro x other
      exact update_of_ne other _ _
    · rw [here]
      intro same
      cases same
    · intro exposed
      rw [hidden] at exposed
      cases exposed
    · intro v _ there
      rw [here] at there
      cases there
  · constructor
    · intro after whole
      cases whole
      intro x same
      cases same
      exact ⟨inside, update_self _ _ _⟩
    · intro x other _ differ there
      apply (operation_of_update _ there).2
      intro same
      exact differ (Place.operation.inj same).symm
    · intro x inside' there
      refine ⟨_, rfl, ?_⟩
      by_cases same : x = r
      · rw [same]
        rfl
      · rw [update_of_ne same] at there
        have held := good.held_top top inside' there
        cases held
    · intro u other
      rfl

theorem release (good : Good size st place free waiting)
    (top : st.frames t = ⟨id, .pop (.linked r)⟩ :: rest)
    (below : ∀ other ∈ rest, other.program.exposed = false) :
    ∃ place' free', Good size
      (st.setFrames t { st.shared with queue := some r }
        (continued id (some (.pop (.freed r))) rest)) place' free' waiting := by
  obtain ⟨⟨inside, here⟩, link⟩ :
      Holds size place id r ∧ st.shared.next r = st.shared.queue := by
    apply good.ok t ⟨id, .pop (.linked r)⟩
    rw [top]
    exact mem_cons_self
  have placed := good.placed.release inside here link
  refine ⟨_, _, good.advance top rfl placed ?_ ?_⟩
  · intro u other member differ
    have hidden := good.not_exposed top rfl below member differ
    apply Spares.of_change r
    · intro exposed
      rw [hidden] at exposed
      cases exposed
    · intro v _
      rfl
    · intro x _
      rfl
    · intro x other
      exact update_of_ne other _ _
    · rw [here]
      intro same
      exact differ (Place.operation.inj same).symm
    · intro exposed
      rw [hidden] at exposed
      cases exposed
    · intro v _ there
      rw [here] at there
      cases there
  · constructor
    · intro after whole
      cases whole
      exact ⟨inside, update_self _ _ _⟩
    · intro x other _ _ there
      exact (operation_of_update Place.noConfusion there).2
    · intro x inside' there
      obtain ⟨differ, before⟩ := operation_of_update Place.noConfusion there
      have held := good.held_top top inside' before
      exact absurd (some.inj held).symm differ
    · intro u other
      rfl

theorem push (good : Good size st place free waiting) {interrupt : Bool}
    {target : ThreadId} {code : Code}
    (top : st.frames t = ⟨id, .send interrupt target code (.coded r)⟩ :: rest)
    (alone : ∀ v, ∀ other ∈ st.frames v, other.id ≠ id →
      other.program.watches v ≠ some target) :
    ∃ place' waiting', Good size
      (st.setFrames t ((st.shared.setPending target (some r)).logQueued target code)
        (continued id (some (.send interrupt target code .queued)) rest))
      place' free waiting' := by
  obtain ⟨⟨inside, here⟩, link, car⟩ :
      Holds size place id r ∧ st.shared.next r = st.shared.pending target ∧
        (st.shared.cell r).car = code := by
    apply good.ok t ⟨id, .send interrupt target code (.coded r)⟩
    rw [top]
    exact mem_cons_self
  have pushed := good.placed.push inside here link
  refine ⟨_, _, good.advance top rfl (pushed.same rfl rfl rfl) ?_ ?_⟩
  · intro u other member differ
    apply Spares.of_change r
    · intro _
      rfl
    · intro v watches
      have elsewhere : v ≠ target := by
        rintro rfl
        exact alone u other member differ watches
      exact if_neg elsewhere
    · intro x _
      rfl
    · intro x other
      exact update_of_ne other _ _
    · rw [here]
      intro same
      exact differ (Place.operation.inj same).symm
    · intro _ there
      rw [here] at there
      cases there
    · intro v _ there
      rw [here] at there
      cases there
  · constructor
    · intro after whole
      cases whole
      trivial
    · intro x other _ _ there
      exact (operation_of_update Place.noConfusion there).2
    · intro x inside' there
      obtain ⟨differ, before⟩ := operation_of_update Place.noConfusion there
      have held := good.held_top top inside' before
      exact absurd (some.inj held).symm differ
    · intro u other
      by_cases thread : u = target
      · subst thread
        rw [update_self]
        simp only [Shared.logQueued, Shared.setPending, if_true, map_cons, car,
          count_cons]
        simp only [Program.codes, Program.flying, map_none, toList_none,
          map_some, getD_some]
        omega
      · rw [update_of_ne thread]
        simp only [Shared.logQueued, Shared.setPending, if_neg thread]
        rfl

theorem unlink (good : Good size st place free waiting) {next : Option RecordId}
    (top : st.frames t = ⟨id, .pop (.next r next)⟩ :: rest)
    (alone : ∀ v, ∀ other ∈ st.frames v, other.id ≠ id → other.program.watches v ≠ some t) :
    ∃ place' waiting', Good size
      (st.setFrames t (st.shared.setPending t next) (continued id (some (.pop (.unlinked r))) rest))
      place' free waiting' := by
  obtain ⟨head, link⟩ : st.shared.pending t = some r ∧ next = st.shared.next r := by
    apply good.ok t ⟨id, .pop (.next r next)⟩
    rw [top]
    exact mem_cons_self
  obtain ⟨inside, here⟩ := good.placed.pending_head head
  obtain ⟨tail, whole, placed⟩ := good.placed.unlink head id
  rw [← link] at placed
  refine ⟨_, _, good.advance top rfl placed ?_ ?_⟩
  · intro u other member differ
    have unseen := alone u other member differ
    apply Spares.of_change r
    · intro _
      rfl
    · intro v watches
      have elsewhere : v ≠ t := by
        rintro rfl
        exact unseen watches
      exact if_neg elsewhere
    · intro x _
      rfl
    · intro x other
      exact update_of_ne other _ _
    · rw [here]
      intro same
      cases same
    · intro _ there
      rw [here] at there
      cases there
    · intro v watches there
      rw [here] at there
      rw [← Place.pending.inj there] at watches
      exact unseen watches
  · constructor
    · intro after same
      cases same
      exact ⟨inside, update_self _ _ _⟩
    · intro x other _ differ there
      apply (operation_of_update _ there).2
      intro same
      exact differ (Place.operation.inj same).symm
    · intro x inside' there
      refine ⟨_, rfl, ?_⟩
      by_cases same : x = r
      · rw [same]
        rfl
      · rw [update_of_ne same] at there
        have held := good.held_top top inside' there
        cases held
    · intro u other
      by_cases thread : u = t
      · subst thread
        rw [update_self, whole]
        simp only [Shared.setPending, if_true, map_cons, count_cons, Program.codes,
          Program.flying, map_none, toList_none, map_some, getD_some,
          toList_some, count_nil]
        omega
      · rw [update_of_ne thread]
        simp only [Shared.setPending, if_neg thread]

theorem answer (good : Good size st place free waiting)
    (top : st.frames t = ⟨id, .pop (.freed r)⟩ :: rest) :
    Good size
      (st.setFrames t (st.shared.logPopped t (st.shared.cell r).car)
        (continued id (some (.pop .coded)) rest)) place free waiting := by
  apply good.advance top rfl (good.placed.same rfl rfl rfl)
  · intro u other _ _
    exact ⟨fun _ => rfl, fun _ _ => rfl, fun _ here => ⟨here, rfl⟩, fun _ _ here => ⟨here, rfl⟩,
      fun _ _ _ _ => rfl⟩
  · constructor
    · intro after whole
      cases whole
      trivial
    · intro x other _ _ here
      exact here
    · intro x inside here
      have held := good.held_top top inside here
      cases held
    · intro u code
      by_cases thread : u = t
      · subst thread
        simp only [Shared.logPopped, if_true, count_cons, Program.codes, Program.flying,
          map_none, toList_none, map_some, getD_some,
          toList_some, count_nil]
        omega
      · simp only [Shared.logPopped, if_neg thread]

end Good

end Ecl.Signals
