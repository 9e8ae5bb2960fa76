import Ecl.Clos.Finalize
import Ecl.Clos.PrecedenceAnswers

/- The cascade of finalizations that the definition of a class sets off. -/
namespace Ecl.Clos

open List Relation

variable {Ty : Type}

/-- finalize-inheritance without what the methods of metaclasses add. -/
def finalizeBody (types : Types Ty) (n : Nat) (c : ClassId) (w : World Ty) : Outcome Ty Unit :=
  match w.computeClassPrecedenceList n c with
  | .error e => (.error e, w)
  | .ok cpl =>
    if cpl.tail.any w.forward then (.error .undefinedClass, w)
    else
      match (cpl.reverse.find? fun x => !(w.classes x).finalized).filter (· ≠ c) with
      | some x => finalizeInheritance types n x w
      | none =>
        match computeSlots types w c cpl with
        | .error e => (.error e, w.modify c fun k => { k with precedenceList := some cpl })
        | .ok slots =>
          finalizeSubclasses (finalizeInheritance types n)
            (w.classes c).directSubclasses.reverse (w.setFinal c cpl slots)

theorem finalizeInheritance_succ (types : Types Ty) (n : Nat) (c : ClassId) (w : World Ty) :
    finalizeInheritance types (n + 1) c w = finishFinalization c (finalizeBody types n c w) :=
  rfl

section

variable {types : Types Ty} {defs : List (Definition Ty)} {D : List ClassId} {w : World Ty}

variable (defs w) in
/-- The list of an only superclass is there. -/
def Callable (c : ClassId) : Prop :=
  ∀ p, hierarchy defs c = [p] → (w.classes p).finalized = true

variable (types defs D w) in
/-- What one call can do: fail at once, turn to a class above that is not finalized, or
write the results for the class and go on to its subclasses. -/
inductive FinalizeCase (n : Nat) (c : ClassId) : Prop where
  | failed (e : ClassError) (body : finalizeBody types n c w = (.error e, w))
      (why : ¬ (Full defs D c ∧ Callable defs w c ∧ walkBound defs ≤ n))
  | redirect (x : ClassId) (member : x ∈ D) (unfinalized : (w.classes x).finalized = false)
      (differ : x ≠ c) (above : Inherits defs c x)
      (callable : Callable defs w c → ∀ p ∈ hierarchy defs x, (w.classes p).finalized = true)
      (incomplete : ¬ Full defs D c → ¬ Full defs D x)
      (body : finalizeBody types n c w = finalizeInheritance types n x w)
  | write (w' : World Ty) (full : Full defs D c)
      (parents : ∀ p ∈ hierarchy defs c, (w.classes p).finalized = true)
      (same : SameDefinitions w w') (progress : Progress types defs D w') (extend : Extends w w')
      (final : (w'.classes c).finalized = true)
      (body : finalizeBody types n c w =
        finalizeSubclasses (finalizeInheritance types n) (w.directSubclasses c).reverse w')

variable {p : ClassId}

theorem find_reverse_last {l : List ClassId} {q : ClassId → Bool} {x : ClassId}
    (nodup : l.Nodup) (found : l.reverse.find? q = some x) (later : [x, p].Sublist l)
    (differ : x ≠ p) : q p = false := by
  obtain ⟨-, front, back, split, before⟩ := List.find?_eq_some_iff_append.mp found
  have whole : l = back.reverse ++ x :: front.reverse := by
    have reversed := congrArg List.reverse split
    simpa using reversed
  have place : p ∈ front := by
    have member : p ∈ l := later.subset (by simp)
    rw [whole] at member
    rcases mem_append.mp member with early | later'
    · exfalso
      have earlier : [p, x].Sublist l := by
        rw [whole]
        exact (singleton_sublist.mpr early).append (singleton_sublist.mpr mem_cons_self)
      exact Before.asymm nodup differ later earlier
    · rcases mem_cons.mp later' with same | inside
      · exact absurd same.symm differ
      · exact mem_reverse.mp inside
  simpa using before p place

variable {n : Nat} {c : ClassId} {cpl : List ClassId}

theorem finalizeCase_write (stage : Stage defs D w) (consistent : Consistent defs types)
    (progress : Progress types defs D w) (member : c ∈ D)
    (computed : w.computeClassPrecedenceList n c = .ok cpl)
    (linear : Linear (hierarchy defs) c cpl) (chosen : Chosen defs w c cpl)
    (others : ∀ d ∈ cpl, d ≠ c → (w.classes d).finalized = true ∧ (d ∈ D ∨ Base d)) :
    FinalizeCase types defs D w n c := by
  have present : ∀ d ∈ cpl, d ∈ D ∨ Base d := by
    intro d inside
    by_cases here : d = c
    · exact .inl (here ▸ member)
    · exact (others d inside here).2
  obtain ⟨d, known, rfl⟩ := stage.inside c member
  obtain ⟨placed, effective⟩ := consistent.placeable d known cpl linear
  obtain ⟨slots, slotsComputed⟩ := computeSlots_ok
    (fun e inside => stage.directSlots consistent (present e inside)) effective (c := d.id)
  obtain ⟨progress', extend⟩ := progress.write stage consistent member linear chosen others
    slotsComputed
  have noForward : cpl.tail.any w.forward = false := by
    rw [any_eq_false]
    intro e inside
    rw [stage.not_forward consistent (present e (mem_of_mem_tail inside))]
    exact Bool.false_ne_true
  have nothing :
    (cpl.reverse.find? fun x => !(w.classes x).finalized).filter (· ≠ d.id) = none := by
    rw [Option.filter_eq_none_iff]
    intro x found
    have unfinalized := List.find?_some found
    have inside := mem_reverse.mp (mem_of_find?_eq_some found)
    by_contra differ
    rw [(others x inside (by simpa using differ)).1] at unfinalized
    cases unfinalized
  refine .write (w.setFinal d.id cpl slots) (fun a path => present a ((linear.mem a).mpr path))
    (fun p direct => ?_) (setFinal_sameDefinitions w d.id cpl slots) progress' extend ?_ ?_
  · have differ : p ≠ d.id := fun here => linear.not_direct (here ▸ direct)
    exact (others p ((linear.mem p).mpr (.single direct)) differ).1
  · rw [setFinal_own]
  · rw [finalizeBody, computed]
    dsimp only
    rw [noForward, nothing, slotsComputed]
    rfl

theorem Consistent.acyclic (consistent : Consistent defs types) {d : Definition Ty}
    (known : d ∈ defs)
    (direct : p ∈ hierarchy defs d.id) : ¬ Inherits defs p d.id := by
  intro path
  obtain ⟨rank, ranked⟩ := consistent.ranked d known
  exact Nat.lt_irrefl _ (rank_lt ranked (TransGen.head' direct path))

theorem computeClassPrecedenceList_single (supers : w.directSuperclasses c = [p]) :
    w.computeClassPrecedenceList n c =
      match w.precedenceList p with
      | some cpl => .ok (c :: cpl)
      | none => .error .notSequence := by
  rw [World.computeClassPrecedenceList, supers, computeClosClassPrecedenceList]
  cases w.precedenceList p <;> rfl

theorem finalizeBody_undefined (computed : w.computeClassPrecedenceList n c = .ok cpl)
    (inside : p ∈ cpl.tail)
    (forward : w.forward p = true) : finalizeBody types n c w = (.error .undefinedClass, w) := by
  have some : cpl.tail.any w.forward = true := any_eq_true.mpr ⟨p, inside, forward⟩
  rw [finalizeBody, computed]
  dsimp only
  rw [some]
  rfl

theorem finalizeBody_redirect {x : ClassId} (computed : w.computeClassPrecedenceList n c = .ok cpl)
    (noForward : cpl.tail.any w.forward = false)
    (found : cpl.reverse.find? (fun x => !(w.classes x).finalized) = some x) (differ : x ≠ c) :
    finalizeBody types n c w = finalizeInheritance types n x w := by
  have filtered :
    (cpl.reverse.find? fun x => !(w.classes x).finalized).filter (· ≠ c) = some x := by
    rw [found, Option.filter_some, if_pos (by simpa using differ)]
  rw [finalizeBody, computed]
  dsimp only
  rw [noForward, filtered]
  rfl

theorem finalizeCase_single (stage : Stage defs D w) (consistent : Consistent defs types)
    (progress : Progress types defs D w) (member : c ∈ D)
    (single : hierarchy defs c = [p]) : FinalizeCase types defs D w n c := by
  have direct : p ∈ hierarchy defs c := single ▸ mem_singleton_self p
  have supers : w.directSuperclasses c = [p] := (stage.supers consistent (.inl member)).trans single
  have computed := computeClassPrecedenceList_single (n := n) supers
  obtain ⟨d, known, rfl⟩ := stage.inside c member
  have acyclic := consistent.acyclic known direct
  have differ : p ≠ d.id := fun here => acyclic (here ▸ .refl)
  by_cases isForward : w.IsForward p
  · -- the only superclass is not defined
    rw [(progress.forward p isForward).2] at computed
    refine .failed _ (finalizeBody_undefined computed mem_cons_self isForward.forward) ?_
    rintro ⟨full, -⟩
    exact stage.not_isForward consistent (full p (.single direct)) isForward
  have present : p ∈ D ∨ Base p := by
    rcases stage.mentioned d.id member p direct with defined | base | forward
    · exact .inl defined
    · exact .inr base
    · exact absurd forward isForward
  by_cases final : (w.classes p).finalized = true
  · obtain ⟨cpl, stored, linear⟩ := progress.linear present final
    rw [stored] at computed
    refine finalizeCase_write stage consistent progress member computed
      (linear.single single acyclic)
      ⟨fun q only => ?_, fun several => ?_⟩ fun e inside other => ?_
    · cases single.symm.trans only
      exact ⟨cpl, stored, rfl⟩
    · rw [single] at several
      simp at several
    · have above := (linear.mem e).mp ((mem_cons.mp inside).resolve_left other)
      exact progress.above present final above
  · have unfinalized : (w.classes p).finalized = false := Bool.eq_false_of_not_eq_true final
    have defined : p ∈ D := by
      rcases present with defined | rfl | rfl
      · exact defined
      · exact absurd progress.root.1 final
      · exact absurd progress.top.1 final
    have notCallable : ¬ Callable defs w d.id := fun callable => final (callable p single)
    rcases progress.stale p defined unfinalized with missing | stale
    · rw [missing] at computed
      refine .failed _ (by rw [finalizeBody, computed]) fun able => notCallable able.2.1
    · -- the list is that of the forward reference that the superclass was
      rw [stale] at computed
      have noForward : [p, rootClass, topClass].any w.forward = false := by
        simp [stage.not_forward consistent (.inl defined),
          stage.not_forward consistent (.inr (.inl rfl)),
            stage.not_forward consistent (.inr (.inr rfl))]
      have found : [d.id, p, rootClass, topClass].reverse.find?
          (fun x => !(w.classes x).finalized) = some p := by
        simp [progress.root.1, progress.top.1, unfinalized]
      refine .redirect p defined unfinalized differ (.single direct)
        (fun callable => absurd callable notCallable) (fun incomplete full => incomplete ?_)
        (finalizeBody_redirect computed noForward found differ)
      refine full_of_parents member fun q here => ?_
      rw [single, mem_singleton] at here
      exact here ▸ full

theorem Stage.full_of_covered (stage : Stage defs D w) (consistent : Consistent defs types)
    (member : c ∈ D) {rest : List ClassId}
    (mem : ∀ d, d ∈ rest ↔ Above w.directSuperclasses (w.directSuperclasses c) d)
    (noForward : ∀ d ∈ rest, w.forward d = false) : Full defs D c := by
  have known : ∀ a, Inherits defs c a → (a ∈ D ∨ Base a) ∧ (a = c ∨ a ∈ rest) := by
    intro a path
    induction path with
    | refl => exact ⟨.inl member, .inl rfl⟩
    | @tail b a _ direct ih =>
      obtain ⟨present, place⟩ := ih
      have stored : a ∈ w.directSuperclasses b := by
        rw [stage.supers consistent present]
        exact direct
      have inside : a ∈ rest := by
        rw [mem]
        rcases place with rfl | inside
        · exact ⟨a, stored, .refl⟩
        · obtain ⟨e, start, path⟩ := (mem b).mp inside
          exact ⟨e, start, path.tail stored⟩
      refine ⟨?_, .inr inside⟩
      rcases present with defined | base
      · rcases stage.mentioned b defined a direct with defined | base | isForward
        · exact .inl defined
        · exact .inr base
        · have forward := isForward.forward
          rw [noForward a inside] at forward
          cases forward
      · exact .inr (base_of_inherits base (.single direct))
  exact fun a path => (known a path).1

theorem Stage.agree (stage : Stage defs D w) (consistent : Consistent defs types)
    (full : Full defs D c) : ∀ d, Inherits defs c d → w.directSuperclasses d = hierarchy defs d :=
  fun d path => stage.supers consistent (full d path)

theorem Consistent.computes (consistent : Consistent defs types) {d : Definition Ty}
    (known : d ∈ defs) (several : 2 ≤ (hierarchy defs d.id).length)
    (enough : walkBound defs ≤ n) :
    ∃ cpl, computeClosClassPrecedenceList (hierarchy defs) n (fun _ => none) d.id
      (hierarchy defs d.id) = .ok cpl ∧ Linear (hierarchy defs) d.id cpl := by
  obtain ⟨rank, ranked⟩ := consistent.ranked d known
  have inside : d.id ∈ allClasses defs := mem_append_left _ (mem_map_of_mem known)
  exact computeClosClassPrecedenceList_linear ranked consistent.allClasses_nodup
    (fun a path => consistent.inherits_inside inside path)
    (Nat.le_trans (walkSize_le inside) enough)
    _ several

theorem finalizeCase_several (stage : Stage defs D w) (consistent : Consistent defs types)
    (progress : Progress types defs D w) (member : c ∈ D)
    (several : 2 ≤ (hierarchy defs c).length) : FinalizeCase types defs D w n c := by
  have supers := stage.supers consistent (.inl member)
  obtain ⟨d, known, rfl⟩ := stage.inside c member
  cases computed : w.computeClassPrecedenceList n d.id with
  | error e =>
    refine .failed e (by rw [finalizeBody, computed]) ?_
    rintro ⟨full, -, enough⟩
    obtain ⟨cpl, right, -⟩ := consistent.computes known several enough
    obtain ⟨classes, lists, walked, placed⟩ := computeClosClassPrecedenceList_several several right
    have agree := stage.agree consistent full
    have above : ∀ a, Above (hierarchy defs) (hierarchy defs d.id) a →
        w.directSuperclasses a = hierarchy defs a :=
      fun a ⟨b, direct, path⟩ => agree a (.head direct path)
    have covered : ∀ a ∈ classes ++ [d.id], w.directSuperclasses a = hierarchy defs a := by
      intro a inside
      rcases mem_append.mp inside with inside | inside
      · exact above a ((walkSupers_walked walked).mem_iff.mp inside)
      · rw [mem_singleton.mp inside]
        exact supers
    rw [World.computeClassPrecedenceList, supers,
      computeClosClassPrecedenceList_eq several ((walkSupers_congr above).trans walked)
        ((placeClasses_congr covered).trans placed)] at computed
    cases computed
  | ok cpl =>
    have computed' := computed
    rw [World.computeClassPrecedenceList] at computed'
    obtain ⟨rest, rfl, mem⟩ := computeClosClassPrecedenceList_covers (by rw [supers]; exact several)
      computed'
    by_cases forward : ∃ p ∈ rest, w.forward p = true
    · obtain ⟨p, inside, forward⟩ := forward
      refine .failed _ (finalizeBody_undefined computed inside forward) ?_
      rintro ⟨full, -⟩
      have path : Inherits defs d.id p := by
        obtain ⟨b, start, path⟩ := (mem p).mp inside
        rw [supers] at start
        have climb : ∀ a, ReflTransGen (Direct w.directSuperclasses) b a →
            Inherits defs d.id a := by
          intro a path
          induction path with
          | refl => exact .single start
          | @tail e a _ direct ih =>
            rw [Direct, stage.agree consistent full e ih] at direct
            exact ih.tail direct
        exact climb p path
      rw [stage.not_forward consistent (full p path)] at forward
      cases forward
    have noForward : ∀ p ∈ rest, w.forward p = false := fun p inside =>
      Bool.eq_false_of_not_eq_true fun yes => forward ⟨p, inside, yes⟩
    have full := stage.full_of_covered consistent member mem noForward
    have agree := stage.agree consistent full
    obtain ⟨cpl, right, linear⟩ := consistent.computes known several (Nat.le_refl _)
    cases computeClosClassPrecedenceList_unique several agree right computed'
    have chosen : Chosen defs w d.id (d.id :: rest) := by
      refine ⟨fun p single => ?_, fun _ => ⟨_, right⟩⟩
      rw [single] at several
      simp at several
    have present : ∀ a ∈ d.id :: rest, a ∈ D ∨ Base a := fun a inside =>
      full a ((linear.mem a).mp inside)
    by_cases others : ∀ a ∈ d.id :: rest, a ≠ d.id → (w.classes a).finalized = true
    · exact finalizeCase_write stage consistent progress member computed linear chosen
        fun a inside differ => ⟨others a inside differ, present a inside⟩
    · -- the last class of the list that is not finalized is above this one
      obtain ⟨a, inside, differ, unfinalized⟩ : ∃ a ∈ d.id :: rest, a ≠ d.id ∧
          (w.classes a).finalized ≠ true := by
        by_contra none'
        refine others fun a inside differ => ?_
        by_contra unfinalized
        exact none' ⟨a, inside, differ, unfinalized⟩
      obtain ⟨x, found⟩ : ∃ x, (d.id :: rest).reverse.find? (fun x => !(w.classes x).finalized) =
          some x := by
        rw [← Option.isSome_iff_exists, List.find?_isSome]
        exact ⟨a, mem_reverse.mpr inside, by simpa using unfinalized⟩
      have last : ∀ {p : ClassId}, [x, p].Sublist (d.id :: rest) → x ≠ p →
          (w.classes p).finalized = true := fun {p} later differ => by
        simpa using find_reverse_last linear.nodup found later differ
      have unfinalizedX : (w.classes x).finalized = false := by simpa using List.find?_some found
      have insideX := mem_reverse.mp (mem_of_find?_eq_some found)
      have differX : x ≠ d.id := by
        rintro rfl
        have later := (mem_cons.mp inside).resolve_left differ
        exact unfinalized (last ((singleton_sublist.mpr later).cons_cons _) (Ne.symm differ))
      have defined : x ∈ D := by
        rcases present x insideX with defined | rfl | rfl
        · exact defined
        · rw [progress.root.1] at unfinalizedX
          cases unfinalizedX
        · rw [progress.top.1] at unfinalizedX
          cases unfinalizedX
      have noneForward : (d.id :: rest).tail.any w.forward = false := by
        rw [any_eq_false]
        intro p here
        rw [noForward p here]
        exact Bool.false_ne_true
      refine .redirect x defined unfinalizedX differX ((linear.mem x).mp insideX)
        (fun _ p direct => ?_) (fun incomplete => absurd full incomplete)
        (finalizeBody_redirect computed noneForward found differX)
      have later : [x, p].Sublist (d.id :: rest) :=
        linear.ordered x insideX x p ((singleton_sublist.mpr direct).cons_cons x)
      refine last later fun same => ?_
      subst same
      exact nodup_iff_sublist.mp linear.nodup x later

theorem finalizeCase (stage : Stage defs D w) (consistent : Consistent defs types)
    (progress : Progress types defs D w) (n : Nat) (member : c ∈ D) :
    FinalizeCase types defs D w n c := by
  rcases single_or_several (hierarchy_ne_nil stage consistent member) with ⟨p, single⟩ | several
  · exact finalizeCase_single stage consistent progress member single
  · exact finalizeCase_several stage consistent progress member several

end

end Ecl.Clos
