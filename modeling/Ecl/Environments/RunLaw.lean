import Ecl.Environments.GuessLaw

/- lex_env along the code that is run. It has the records of the bindings around the point, unless
c_undo_bindings counts one wrongly that it undoes. -/
namespace Ecl.Environments

open Ecl.Lib List
open Ecl.Interp (Name Record VarRef FName Second varRefLoop undoCounts)

def addresses (lexEnv : List LexRecord) : List Nat := lexEnv.filterMap LexRecord.address

/-- lex_env has the records of the bindings at a point, the newer ones at the higher addresses. -/
structure Aligned (fresh : Nat) (around : Point) (lexEnv : List LexRecord) : Prop where
  lex : lexEnv = around.lexEnv
  below : ∀ a ∈ addresses lexEnv, a < fresh
  sorted : (addresses lexEnv).Pairwise (· > ·)

namespace Aligned

variable {fresh : Nat} {around : Point} {lexEnv : List LexRecord} {b : Binding}

theorem mono {later : Nat} (aligned : Aligned fresh around lexEnv) (le : fresh ≤ later) :
    Aligned later around lexEnv :=
  ⟨aligned.lex, fun a inside => Nat.lt_of_lt_of_le (aligned.below a inside) le, aligned.sorted⟩

theorem extend {inner : Point} (aligned : Aligned fresh around lexEnv)
    (bare : ∀ b ∈ inner, ∀ r ∈ b.lex, r.address = none) :
    Aligned fresh (inner ++ around) (inner.lexEnv ++ lexEnv) := by
  have none : addresses inner.lexEnv = [] := by
    refine filterMap_eq_nil_iff.mpr fun r inside => ?_
    obtain ⟨b, member, lex⟩ := mem_filterMap.mp inside
    exact bare b member r lex
  have same : addresses (inner.lexEnv ++ lexEnv) = addresses lexEnv := by
    rw [addresses, filterMap_append, ← addresses, ← addresses, none, nil_append]
  exact ⟨by rw [aligned.lex, Point.lexEnv, Point.lexEnv, Point.lexEnv, filterMap_append],
    by rw [same]; exact aligned.below, by rw [same]; exact aligned.sorted⟩

theorem uncounted (aligned : Aligned fresh around lexEnv) (none : b.lex = none) :
    Aligned fresh (b :: around) lexEnv := by
  have extended := @extend _ _ _ [b] aligned (by simp [none])
  rwa [Point.lexEnv, filterMap_cons_none none] at extended

theorem cons {r : LexRecord} (aligned : Aligned fresh around lexEnv) (lex : b.lex = some r)
    (address : r.address = some fresh) : Aligned (fresh + 1) (b :: around) (r :: lexEnv) := by
  have added : addresses (r :: lexEnv) = fresh :: addresses lexEnv := by
    rw [addresses, filterMap_cons_some address]
    rfl
  refine ⟨?_, ?_, ?_⟩
  · rw [Point.lexEnv, filterMap_cons_some lex, aligned.lex]
    rfl
  · rw [added]
    exact forall_mem_cons.mpr
      ⟨Nat.lt_succ_self _, fun a inside => Nat.lt_succ_of_lt (aligned.below a inside)⟩
  · rw [added]
    exact pairwise_cons.mpr ⟨aligned.below, aligned.sorted⟩

theorem suffix {inner outer : Point} (aligned : Aligned fresh (inner ++ outer) lexEnv) :
    Aligned fresh outer outer.lexEnv := by
  have split : addresses lexEnv = addresses inner.lexEnv ++ addresses outer.lexEnv := by
    rw [aligned.lex, Point.lexEnv, filterMap_append, addresses, filterMap_append]
    rfl
  refine ⟨rfl, fun a inside => aligned.below a ?_, ?_⟩
  · rw [split]
    exact mem_append_right _ inside
  · exact (pairwise_append.mp (split ▸ aligned.sorted)).2.1

end Aligned

namespace Binding

/-- Whether a binding is the frame of a block, a TAGBODY or a CATCH. -/
def framed : Binding → Bool
  | .block _ _ _ | .tagbody _ _ _ | .catchTag _ _ => true
  | _ => false

/-- Variables whose names c_undo_bindings takes for the heads of other records: it undoes no
lexical variable :BLOCK or :TAG, and a record of lex_env for a special variable :FUNCTION. -/
def miscounted : Binding → Bool
  | .var name _ _ => name = some .kBlock ∨ name = some .kTag
  | .special name _ => name = some .kFunction
  | _ => false

theorem exists_lex {b : Binding} (framed : b.framed = true) : ∃ r, b.lex = some r := by
  cases b with
  | block | tagbody | catchTag => exact ⟨_, rfl⟩
  | _ => cases framed

end Binding

theorem undoCounts_cons {b : Binding} (exact : b.miscounted = false) (records : List Record) :
    (undoCounts false (b.record :: records)).1 =
      (if b.framed then 0 else b.size) + (undoCounts false records).1 := by
  cases b with
  | var name address value =>
    simp only [Binding.miscounted, decide_eq_false_iff_not, not_or] at exact
    simp [undoCounts, Binding.record, Binding.framed, Binding.size, Binding.lex, Record.variable,
      Second.null, exact, Nat.add_comm]
  | special name bound =>
    simp only [Binding.miscounted, decide_eq_false_iff_not] at exact
    by_cases frame : name = some .kBlock ∨ name = some .kTag
    · simp [undoCounts, Binding.record, Binding.framed, Binding.size, Binding.lex,
        Record.variable, frame]
    · by_cases declare : name = some .kDeclare
      · simp [undoCounts, Binding.record, Binding.framed, Binding.size, Binding.lex,
          Record.variable, Second.null, declare]
      · cases bound <;> simp [undoCounts, Binding.record, Binding.framed, Binding.size,
          Binding.lex, Record.variable, Second.null, frame, exact, declare]
  | symbolMacro name free =>
    cases name with
    | kBlock | kTag | kFunction | kDeclare => cases free
    | _ =>
      simp [undoCounts, Binding.record, Record.symbolMacro, Binding.framed, Binding.size,
        Binding.lex, Second.null]
  | function name closure =>
    simp [undoCounts, Binding.record, Binding.framed, Binding.size, Binding.lex, Nat.add_comm]
  | block | tagbody | catchTag =>
    simp [undoCounts, Binding.record, Binding.framed]

theorem undoCounts_eq {inner front : Point} (exact : ∀ b ∈ inner ++ front, b.miscounted = false)
    (unframed : ∀ b ∈ inner, b.framed = false) (framed : ∀ b ∈ front, b.framed = true) :
    (undoCounts false (inner ++ front).vars).1 = inner.lexEnv.length := by
  induction inner with
  | nil =>
    rw [nil_append] at exact ⊢
    induction front with
    | nil => rfl
    | cons b front ih =>
      rw [Point.vars, map_cons, undoCounts_cons (exact b mem_cons_self),
        if_pos (framed b mem_cons_self), Nat.zero_add]
      exact ih (fun c member => framed c (mem_cons_of_mem b member))
        fun c member => exact c (mem_cons_of_mem b member)
  | cons b inner ih =>
    have rest := ih (fun c member => exact c (mem_cons_of_mem b member))
      fun c member => unframed c (mem_cons_of_mem b member)
    rw [cons_append, Point.vars, map_cons, undoCounts_cons (exact b mem_cons_self),
      unframed b mem_cons_self, ← Point.vars, rest, Point.lexEnv, Point.lexEnv, filterMap_cons]
    cases lex : b.lex <;> simp [Binding.size, lex, Nat.add_comm]

/-- c_undo_bindings at the end of a form whose own bindings are `inner` and `front`. -/
theorem State.undo_eq (front : Point) {s : State} {inner old : Point}
    (aligned : Aligned s.fresh s.around s.lexEnv) (split : s.around = inner ++ (front ++ old))
    (unframed : ∀ b ∈ inner, b.framed = false) (framed : ∀ b ∈ front, b.framed = true)
    (exact : ∀ b ∈ s.undone old, b.miscounted = false) :
    s.undo old = some { s with around := old, lexEnv := Point.lexEnv (front ++ old) } := by
  have own : s.around.length - old.length = (inner ++ front).length := by
    rw [split]
    simp only [length_append]
    omega
  have taken : s.undone old = inner ++ front := by
    rw [State.undone, own, split, ← append_assoc, take_left]
  rw [taken] at exact
  have lex : s.lexEnv = inner.lexEnv ++ Point.lexEnv (front ++ old) := by
    rw [aligned.lex, split, Point.lexEnv, filterMap_append]
    rfl
  rw [State.undo, taken, undoCounts_eq exact unframed framed, own, split, lex]
  rw [if_pos (by simp), drop_left, ← append_assoc, drop_left]

/-- The forms that are not left yet, from the inside: the bindings at the point are those of the
innermost form and the ones around it. -/
def Opened (fresh : Nat) : Point → List Scope → Prop
  | _, [] => True
  | around, .bindings old :: scopes =>
    (∃ inner, around = inner ++ old ∧ ∀ b ∈ inner, b.framed = false) ∧ Opened fresh old scopes
  | around, .frame old saved :: scopes =>
    (∃ inner b, around = inner ++ b :: old ∧ (∀ c ∈ inner, c.framed = false) ∧ b.framed = true ∧
      Aligned fresh (b :: old) saved) ∧ Opened fresh old scopes
  | around, .tagbody old inside saved :: scopes =>
    (∃ inner b, around = inner ++ b :: old ∧ (∀ c ∈ inner, c.framed = false) ∧ b.framed = true ∧
      inside = b :: old ∧ Aligned fresh (b :: old) saved) ∧ Opened fresh old scopes
  | _, .protect old saved :: scopes | _, .call old saved :: scopes =>
    Aligned fresh old saved ∧ Opened fresh old scopes

namespace Opened

variable {fresh : Nat} {around : Point} {scopes : List Scope}

theorem mono {later : Nat} (le : fresh ≤ later) (opened : Opened fresh around scopes) :
    Opened later around scopes := by
  induction scopes generalizing around with
  | nil => trivial
  | cons scope scopes ih =>
    cases scope with
    | bindings old => exact ⟨opened.1, ih opened.2⟩
    | frame old saved =>
      obtain ⟨⟨inner, b, split, unframed, framed, aligned⟩, outer⟩ := opened
      exact ⟨⟨inner, b, split, unframed, framed, aligned.mono le⟩, ih outer⟩
    | tagbody old inside saved =>
      obtain ⟨⟨inner, b, split, unframed, framed, same, aligned⟩, outer⟩ := opened
      exact ⟨⟨inner, b, split, unframed, framed, same, aligned.mono le⟩, ih outer⟩
    | protect old saved | call old saved => exact ⟨opened.1.mono le, ih opened.2⟩

theorem extend {inner' : Point} (unframed' : ∀ b ∈ inner', b.framed = false)
    (opened : Opened fresh around scopes) : Opened fresh (inner' ++ around) scopes := by
  have both {inner : Point} (unframed : ∀ b ∈ inner, b.framed = false) :
      ∀ b ∈ inner' ++ inner, b.framed = false := fun b member =>
    (mem_append.mp member).elim (unframed' b) (unframed b)
  cases scopes with
  | nil => trivial
  | cons scope scopes =>
    cases scope with
    | bindings old =>
      obtain ⟨⟨inner, rfl, unframed⟩, outer⟩ := opened
      exact ⟨⟨inner' ++ inner, (append_assoc ..).symm, both unframed⟩, outer⟩
    | frame old saved =>
      obtain ⟨⟨inner, b, rfl, unframed, rest⟩, outer⟩ := opened
      exact ⟨⟨inner' ++ inner, b, (append_assoc ..).symm, both unframed, rest⟩, outer⟩
    | tagbody old inside saved =>
      obtain ⟨⟨inner, b, rfl, unframed, rest⟩, outer⟩ := opened
      exact ⟨⟨inner' ++ inner, b, (append_assoc ..).symm, both unframed, rest⟩, outer⟩
    | protect old saved | call old saved => exact opened

theorem drop (k : Nat) (opened : Opened fresh around scopes) :
    ∃ around', Opened fresh around' (scopes.drop k) := by
  induction k generalizing around scopes with
  | zero => exact ⟨around, opened⟩
  | succ k ih =>
    cases scopes with
    | nil => exact ⟨around, trivial⟩
    | cons scope scopes => cases scope <;> exact ih opened.2

end Opened

/-- The invariant of a run. -/
structure State.Sound (s : State) : Prop where
  aligned : Aligned s.fresh s.around s.lexEnv
  opened : Opened s.fresh s.around s.scopes
  closures : ∀ c ∈ s.closures, Aligned s.fresh c.1 c.2

def Scope.old : Scope → Point
  | .bindings old | .frame old _ | .tagbody old _ _ | .protect old _ | .call old _ => old

/-- No variable that is undone has a name that c_undo_bindings takes for something else. -/
def UndoesClean (s : State) : Step → Prop
  | .leave | .exitFrame =>
    ∀ scope ∈ s.scopes.head?, ∀ b ∈ s.undone scope.old, b.miscounted = false
  | _ => True

instance (s : State) : (step : Step) → Decidable (UndoesClean s step)
  | .leave | .exitFrame => inferInstanceAs
      (Decidable (∀ scope ∈ s.scopes.head?, ∀ b ∈ s.undone scope.old, b.miscounted = false))
  | .bind _ _ _ | .declare _ | .symbolMacro _ | .functions _ _ | .enter | .block _ _ | .catchTag _
  | .tagbody _ _ | .protect | .unwind _ | .go _ | .close | .call _ | .exit => isTrue trivial

/-- Every step of a run undoes only what c_undo_bindings counts rightly. -/
def AlongClean : State → List Step → Prop
  | _, [] => True
  | s, step :: steps => UndoesClean s step ∧ ∀ s' ∈ s.step step, AlongClean s' steps

instance : (s : State) → (steps : List Step) → Decidable (AlongClean s steps)
  | _, [] => isTrue trivial
  | s, step :: steps =>
    have (s' : State) : Decidable (AlongClean s' steps) := instDecidableAlongClean s' steps
    inferInstanceAs (Decidable (UndoesClean s step ∧ ∀ s' ∈ s.step step, AlongClean s' steps))

namespace State.Sound

variable {s s' : State}

theorem cons (sound : s.Sound) {binding : Nat → Binding} {r : LexRecord}
    (lex : (binding s.fresh).lex = some r) (address : r.address = some s.fresh) :
    Aligned (s.fresh + 1) (s.cons binding).around (s.cons binding).lexEnv ∧
      ∀ c ∈ s.closures, Aligned (s.fresh + 1) c.1 c.2 := by
  refine ⟨?_, fun c member => (sound.closures c member).mono (Nat.le_succ _)⟩
  have aligned := sound.aligned.cons lex address
  rwa [State.cons, lex]

theorem bind (sound : s.Sound) (name : Name) (special : Bool) (value : Val) :
    (s.bind name special value).Sound := by
  cases special with
  | true =>
    exact ⟨sound.aligned.uncounted rfl, @Opened.extend _ _ _ [_] (by simp [Binding.framed])
      sound.opened, sound.closures⟩
  | false =>
    obtain ⟨aligned, closures⟩ :=
      @cons s sound (fun address => .var name address value) _ rfl rfl
    exact ⟨aligned, @Opened.extend _ _ _ [_] (by simp [Binding.framed])
      (sound.opened.mono (Nat.le_succ _)), closures⟩

theorem register (sound : s.Sound) {b : Binding} (lex : b.lex = none)
    (unframed : b.framed = false) :
    State.Sound { s with around := b :: s.around } :=
  ⟨sound.aligned.uncounted lex, @Opened.extend _ _ _ [_] (by simp [unframed]) sound.opened,
    sound.closures⟩

theorem declare (sound : s.Sound) {name : Name} (ran : s.declare name = some s') : s'.Sound := by
  unfold State.declare at ran
  split at ran
  · cases ran
  · cases ran
    exact sound
  · cases ran
    exact sound.register rfl rfl

theorem symbolMacro (sound : s.Sound) {name : Sym} (ran : s.symbolMacro name = some s') :
    s'.Sound := by
  unfold State.symbolMacro at ran
  split at ran
  · split at ran
    · cases ran
    · split at ran
      · cases ran
      · cases ran
        exact sound.register rfl rfl
  · cases ran

theorem functions (sound : s.Sound) (labels : Bool) (names : List FName) :
    (s.functions labels names).Sound := by
  have bound : ∀ b ∈ (names.zipIdx s.closures.length).reverse.map fun entry =>
      Binding.function entry.1 entry.2, ∃ name closure, b = .function name closure := by
    intro b member
    obtain ⟨entry, -, rfl⟩ := mem_map.mp member
    exact ⟨entry.1, entry.2, rfl⟩
  have aligned := sound.aligned.extend fun b member => by
    obtain ⟨name, closure, rfl⟩ := bound b member
    rintro _ ⟨⟩
    rfl
  refine ⟨aligned, sound.opened.extend fun b member => ?_, fun c member => ?_⟩
  · obtain ⟨name, closure, rfl⟩ := bound b member
    rfl
  · rcases mem_append.mp member with old | new
    · exact sound.closures c old
    · rw [eq_of_mem_replicate new]
      cases labels with
      | true => exact aligned
      | false => exact sound.aligned

theorem leave (sound : s.Sound) (clean : UndoesClean s .leave) (ran : s.leave = some s') :
    s'.Sound := by
  unfold State.leave at ran
  split at ran
  · rename_i old scopes top
    have opened := sound.opened
    rw [top] at opened
    obtain ⟨⟨inner, split, unframed⟩, outer⟩ := opened
    rw [State.undo_eq [] sound.aligned split unframed (by simp)
      (clean (.bindings old) (by rw [top]; rfl))] at ran
    cases ran
    exact ⟨(split ▸ sound.aligned).suffix, outer, sound.closures⟩
  · cases ran

theorem exitFrame (sound : s.Sound) (clean : UndoesClean s .exitFrame)
    (ran : s.exitFrame = some s') : s'.Sound := by
  have ends {old : Point} {scope : Scope} {scopes : List Scope} (top : s.scopes = scope :: scopes)
      (own : scope.old = old) {inner : Point} {b : Binding} (split : s.around = inner ++ b :: old)
      (unframed : ∀ c ∈ inner, c.framed = false) (framed : b.framed = true)
      (outer : Opened s.fresh old scopes)
      (ran : ((s.undo old).map fun s => { s with lexEnv := s.lexEnv.tail, scopes }) = some s') :
      s'.Sound := by
    rw [State.undo_eq [b] sound.aligned split unframed (by simp [framed])
      (own ▸ clean scope (by rw [top]; rfl))] at ran
    cases ran
    obtain ⟨r, lex⟩ := Binding.exists_lex framed
    have aligned := @Aligned.suffix _ _ (inner ++ [b]) old (by
      rw [append_assoc]
      exact split ▸ sound.aligned)
    refine ⟨?_, outer, sound.closures⟩
    rw [singleton_append, Point.lexEnv, filterMap_cons_some lex]
    exact aligned
  unfold State.exitFrame at ran
  split at ran
  · rename_i old saved scopes top
    have opened := sound.opened
    rw [top] at opened
    obtain ⟨⟨inner, b, split, unframed, framed, -⟩, outer⟩ := opened
    exact ends top rfl split unframed framed outer ran
  · rename_i old inside saved scopes top
    have opened := sound.opened
    rw [top] at opened
    obtain ⟨⟨inner, b, split, unframed, framed, -⟩, outer⟩ := opened
    exact ends top rfl split unframed framed outer ran
  · cases ran

theorem frame (sound : s.Sound) {binding : Nat → Binding} {r : LexRecord}
    (lex : (binding s.fresh).lex = some r) (address : r.address = some s.fresh)
    (framed : (binding s.fresh).framed = true) : (s.frame binding).Sound := by
  obtain ⟨aligned, closures⟩ := sound.cons lex address
  exact ⟨aligned, ⟨⟨[], _, rfl, by simp, framed, aligned⟩, sound.opened.mono (Nat.le_succ _)⟩,
    closures⟩

theorem tagbody (sound : s.Sound) (labels : List (Val × Nat)) (id : Int) :
    (s.tagbody labels id).Sound := by
  obtain ⟨aligned, closures⟩ :=
    @cons s sound (fun address => .tagbody labels address id) _ rfl rfl
  exact ⟨aligned, ⟨⟨[], _, rfl, by simp, rfl, rfl, aligned⟩, sound.opened.mono (Nat.le_succ _)⟩,
    closures⟩

theorem unwind (sound : s.Sound) {k : Nat} (ran : s.unwind k = some s') : s'.Sound := by
  obtain ⟨around, opened⟩ := sound.opened.drop k
  unfold State.unwind at ran
  split at ran
  · rename_i old saved scopes found
    cases ran
    rw [found] at opened
    obtain ⟨⟨inner, b, -, -, framed, aligned⟩, outer⟩ := opened
    obtain ⟨r, lex⟩ := Binding.exists_lex framed
    refine ⟨?_, outer, sound.closures⟩
    rw [aligned.lex, Point.lexEnv, filterMap_cons_some lex]
    exact @Aligned.suffix _ _ [b] old aligned
  · rename_i old saved scopes found
    cases ran
    rw [found] at opened
    exact ⟨opened.1, opened.2, sound.closures⟩
  · cases ran

theorem go (sound : s.Sound) {k : Nat} (ran : s.go k = some s') : s'.Sound := by
  obtain ⟨around, opened⟩ := sound.opened.drop k
  unfold State.go at ran
  split at ran
  · rename_i old inside saved scopes found
    cases ran
    rw [found] at opened
    obtain ⟨⟨inner, b, -, -, framed, rfl, aligned⟩, outer⟩ := opened
    exact ⟨aligned, ⟨⟨[], b, rfl, by simp, framed, rfl, aligned⟩, outer⟩, sound.closures⟩
  · cases ran

theorem call (sound : s.Sound) {closure : Nat} (ran : s.call closure = some s') : s'.Sound := by
  obtain ⟨⟨around, lexEnv⟩, found, rfl⟩ := Option.map_eq_some_iff.mp ran
  exact ⟨(sound.closures _ (mem_of_getElem? found)).uncounted rfl, ⟨sound.aligned, sound.opened⟩,
    sound.closures⟩

theorem exit (sound : s.Sound) (ran : s.exit = some s') : s'.Sound := by
  unfold State.exit at ran
  split at ran
  · rename_i old saved scopes top
    have opened := sound.opened
    rw [top] at opened
    cases ran
    exact ⟨opened.1, opened.2, sound.closures⟩
  · cases ran

theorem step (sound : s.Sound) (step : Step) (clean : UndoesClean s step)
    (ran : s.step step = some s') : s'.Sound := by
  cases step with
  | bind name special value =>
    cases ran
    exact sound.bind name special value
  | declare name => exact sound.declare ran
  | symbolMacro name => exact sound.symbolMacro ran
  | functions labels names =>
    cases ran
    exact sound.functions labels names
  | enter =>
    cases ran
    exact ⟨sound.aligned, ⟨⟨[], rfl, by simp⟩, sound.opened⟩, sound.closures⟩
  | leave => exact sound.leave clean ran
  | block name id =>
    cases ran
    exact sound.frame rfl rfl rfl
  | catchTag tag =>
    cases ran
    exact sound.frame rfl rfl rfl
  | tagbody labels id =>
    cases ran
    exact sound.tagbody labels id
  | exitFrame => exact sound.exitFrame clean ran
  | protect =>
    cases ran
    exact ⟨sound.aligned, ⟨sound.aligned, sound.opened⟩, sound.closures⟩
  | unwind k => exact sound.unwind ran
  | go k => exact sound.go ran
  | close =>
    cases ran
    refine ⟨sound.aligned, sound.opened, fun c member => ?_⟩
    rcases mem_append.mp member with old | new
    · exact sound.closures c old
    · cases mem_singleton.mp new
      exact sound.aligned
  | call closure => exact sound.call ran
  | exit => exact sound.exit ran

theorem run {steps : List Step} (sound : s.Sound) (clean : AlongClean s steps)
    (ran : s.run steps = some s') : s'.Sound := by
  induction steps generalizing s with
  | nil =>
    cases ran
    exact sound
  | cons step steps ih =>
    obtain ⟨middle, first, rest⟩ := Option.bind_eq_some_iff.mp ran
    exact ih (sound.step step clean.1 first) (clean.2 middle first) rest

end State.Sound

theorem State.start_sound : State.start.Sound :=
  ⟨⟨rfl, nofun, Pairwise.nil⟩, trivial, nofun⟩

theorem Point.place_visible (point : Point) (var : Name) :
    point.place var = none ∧ point.visible var = none ∨
      ∃ n a, point.place var = some n ∧ point.visible var = some a ∧
        point.lexEnv[n]?.bind LexRecord.address = some a := by
  induction point with
  | nil => exact .inl ⟨rfl, rfl⟩
  | cons b point ih =>
    cases sight : b.sight var with
    | found =>
      obtain ⟨address, value, rfl⟩ := Binding.found_iff.mp sight
      exact .inr ⟨0, address, search_found sight, by rw [Point.visible, sight]; rfl, rfl⟩
    | hidden => exact .inl ⟨search_hidden sight, by rw [Point.visible, sight]⟩
    | passed =>
      rw [Point.visible, sight, Point.place, search_passed sight, ← Point.place]
      obtain ⟨none, unseen⟩ | ⟨n, a, place, seen, found⟩ := ih
      · exact .inl ⟨by rw [none]; rfl, unseen⟩
      · refine .inr ⟨b.size + n, a, by rw [place]; rfl, seen, ?_⟩
        rw [Point.lexEnv] at found ⊢
        rw [filterMap_cons]
        cases lex : b.lex with
        | none => simpa [Binding.size, lex] using found
        | some r => simpa [Binding.size, lex, Nat.add_comm 1] using found

theorem Aligned.index_unique {fresh : Nat} {around : Point} {lexEnv : List LexRecord} {m n a : Nat}
    (aligned : Aligned fresh around lexEnv) (first : lexEnv[m]?.bind LexRecord.address = some a)
    (second : lexEnv[n]?.bind LexRecord.address = some a) : m = n := by
  obtain ⟨r, at_m, address⟩ := Option.bind_eq_some_iff.mp first
  obtain ⟨r', at_n, address'⟩ := Option.bind_eq_some_iff.mp second
  obtain ⟨boundm, rfl⟩ := List.getElem?_eq_some_iff.mp at_m
  obtain ⟨boundn, rfl⟩ := List.getElem?_eq_some_iff.mp at_n
  have sorted := pairwise_iff_getElem.mp (pairwise_filterMap.mp aligned.sorted)
  rcases Nat.lt_trichotomy m n with less | same | greater
  · exact absurd (sorted m n boundm boundn less a address a address') (Nat.lt_irrefl a)
  · exact same
  · exact absurd (sorted n m boundn boundm greater a address' a address) (Nat.lt_irrefl a)

theorem Aligned.refers_iff {fresh : Nat} {around : Point} {lexEnv : List LexRecord}
    (aligned : Aligned fresh around lexEnv) (var : Name) (index : Option Nat) :
    index.map (fun n => lexEnv[n]?.bind LexRecord.address) = (around.visible var).map some ↔
      index = around.place var := by
  obtain ⟨none, unseen⟩ | ⟨n, a, place, seen, found⟩ := around.place_visible var
  · rw [none, unseen]
    exact Option.map_eq_none_iff
  · rw [← aligned.lex] at found
    rw [place, seen, Option.map_some, Option.map_eq_some_iff]
    constructor
    · rintro ⟨m, rfl, here⟩
      rw [aligned.index_unique here found]
    · rintro rfl
      exact ⟨n, rfl, found⟩

theorem Point.recoverable_of_plain {point : Point} {var : Name}
    (plain : ∀ b ∈ point, b.sight var ≠ .hidden ∧ b.caught var = false ∧ b.misplaced = false ∧
      (b.sight var = .found → var.reserved = false)) : point.Recoverable var := by
  refine ⟨?_, ?_, fun _ _ b member => (plain b member).2.1⟩
  · rintro inner b outer rfl - found
    exact ⟨(plain b (by simp)).2.2.2 found,
      fun c member => ⟨(plain c (by simp [member])).2.1, (plain c (by simp [member])).2.2.1⟩⟩
  · rintro inner bound outer rfl - -
    exact absurd (by simp [Binding.sight]) (plain (.special var bound) (by simp)).1

/-- In every run in which c_undo_bindings miscounts nothing, the environment that is guessed has the
variables of the original one, and those that are visible, where the bindings of all names can be
recognized. -/
theorem State.guessLaw_iff (steps : List Step) {s : State} (ran : State.start.run steps = some s)
    (clean : AlongClean State.start steps) :
    s.GuessLaw ↔ ∀ var, s.around.Recoverable var := by
  have aligned := (State.start_sound.run clean ran).aligned
  refine forall_congr' fun var => ?_
  rw [← Point.guessLawAt_iff, Point.GuessLawAt]
  simp only [← aligned.lex, aligned.refers_iff]
  exact Iff.rfl

/-- Behind (let ((:block 2)) nil) its record is still there, and the index of X in the original
environment is that of this record. -/
example : (State.start.run [.enter, .bind (some (.ordinary 0)) false (.fixnum 1), .enter,
    .bind (some .kBlock) false (.fixnum 2), .leave]).map (fun s =>
      (varRefLoop (some (.ordinary 0)) false s.vars 0,
        varRefLoop (some (.ordinary 0)) false (guessEnvironment s.lexEnv) 0)) =
      some (some (.index 0), some (.index 1)) := by
  decide

/-- In (let ((x 1)) (let ((y 2)) nil) (block nil (catch 5 ...))). -/
def nestedRun : List Step :=
  [.enter, .bind (some (.ordinary 0)) false (.fixnum 1), .enter,
    .bind (some (.ordinary 1)) false (.fixnum 2), .leave, .block none 0, .catchTag (.fixnum 5)]

theorem State.guessLaw_iff_nestedRun : ∃ s, State.start.run nestedRun = some s ∧
    s.lexEnv = [.cons 3 (.fixnum 5) (.fixnum 5), .cons 2 (.fixnum 0) .nil,
      .cons 0 (.sym (.ordinary 0)) (.fixnum 1)] ∧ s.GuessLaw := by
  refine ⟨_, rfl, rfl, (State.guessLaw_iff nestedRun rfl (by decide)).mpr fun var => ?_⟩
  have plain : ∀ b ∈ [Binding.catchTag 3 (.fixnum 5), .block none 2 0,
      .var (some (.ordinary 0)) 0 (.fixnum 1)], b.sight var ≠ .hidden ∧ b.caught var = false ∧
        b.misplaced = false ∧ (b.sight var = .found → var.reserved = false) := by
    simp only [forall_mem_cons, not_mem_nil, false_implies, implies_true, and_true]
    refine ⟨?_, ?_, ?_⟩
    · cases var <;> simp [Binding.sight, Binding.caught, Binding.misplaced, Name.object]
    · simp [Binding.sight, Binding.caught, Binding.misplaced]
    · simp only [Binding.sight, Binding.caught, Binding.misplaced]
      split
      · rename_i same
        subst same
        decide
      · simp
  exact Point.recoverable_of_plain plain

/-- In (let ((x 1)) (catch 'x ...)) the variable X is guessed to be the record of the CATCH. -/
theorem State.guessLaw_counterexample :
    ∃ s, State.start.run [.enter, .bind (some (.ordinary 0)) false (.fixnum 1),
      .catchTag (.sym (.ordinary 0))] = some s ∧ ¬s.GuessLaw := by
  refine ⟨_, rfl, fun law => ?_⟩
  obtain ⟨ref', guess, same, -⟩ := law (some (.ordinary 0)) (.index 1) (by decide)
  have found : varRefLoop (some (.ordinary 0)) false (guessEnvironment
      [.cons 1 (.sym (.ordinary 0)) (.sym (.ordinary 0)),
        .cons 0 (.sym (.ordinary 0)) (.fixnum 1)]) 0 = some (.index 0) := by decide
  cases found.symm.trans guess
  simp [indexOf] at same

end Ecl.Environments
