import Ecl.Clos.Order
import Mathlib.Algebra.Order.BigOperators.Group.List
import Mathlib.Algebra.Order.Ring.Nat

/- Finalization when some of a set of classes are defined: what one call can do, and
what a call that returns has done. -/
namespace Ecl.Clos

open List

variable {Ty : Type}

structure World.IsForward (w : World Ty) (p : ClassId) : Prop where
  name : (w.classes p).name = p.name
  metaclass : (w.classes p).metaclass = .forwardReferencedClass
  supers : w.directSuperclasses p = [rootClass]
  slots : (w.classes p).directSlots = []

/-- A class as its definition says. -/
structure World.Defines (w : World Ty) (d : Definition Ty) : Prop where
  name : (w.classes d.id).name = some (.other d.name)
  metaclass : (w.classes d.id).metaclass = d.metaclass
  supers : w.directSuperclasses d.id = d.supers
  slots : (w.classes d.id).directSlots = d.slots

/-- Some of the classes are defined, and those that they mention are there. -/
structure Stage (defs : List (Definition Ty)) (D : List ClassId) (w : World Ty) : Prop where
  inside : ∀ c ∈ D, ∃ d ∈ defs, c = d.id
  root : (w.classes rootClass).metaclass = .standardClass ∧
    w.directSuperclasses rootClass = [topClass] ∧ (w.classes rootClass).directSlots = []
  top : (w.classes topClass).metaclass = .builtInClass ∧
    w.directSuperclasses topClass = [] ∧ (w.classes topClass).directSlots = []
  defined : ∀ d ∈ defs, d.id ∈ D → w.Defines d
  mentioned : ∀ c ∈ D, ∀ p ∈ hierarchy defs c, p ∈ D ∨ Base p ∨ w.IsForward p
  subs : ∀ n c, c ∈ w.directSubclasses (.first (.other n)) ↔
    c ∈ D ∧ .first (.other n) ∈ hierarchy defs c

/-- The table of FIND-CLASS has the classes that are defined or mentioned. -/
structure Names (D : List ClassId) (w : World Ty) : Prop where
  root : w.find .standardObject = some rootClass
  top : w.find .t = some topClass
  named : ∀ n, .first (.other n) ∈ D ∨ w.IsForward (.first (.other n)) →
    w.find (.other n) = some (.first (.other n))
  unnamed : ∀ n, .first (.other n) ∉ D → ¬ w.IsForward (.first (.other n)) →
    w.find (.other n) = none ∧ w.made (some (.other n)) = 0

/-- The list that the definition gives: that of the only superclass, or one that the
superclasses determine. -/
def Chosen (defs : List (Definition Ty)) (w : World Ty) (c : ClassId) (cpl : List ClassId) : Prop :=
  (∀ p, hierarchy defs c = [p] → ∃ rest, w.precedenceList p = some rest ∧ cpl = c :: rest) ∧
    (2 ≤ (hierarchy defs c).length → ∃ n,
      computeClosClassPrecedenceList (hierarchy defs) n (fun _ => none) c (hierarchy defs c) =
        .ok cpl)

/-- A class that was finalized after all the classes above. -/
structure Finished (types : Types Ty) (defs : List (Definition Ty)) (D : List ClassId)
    (w : World Ty) (c : ClassId) (cpl : List ClassId) (slots : List (Slot Ty)) : Prop where
  stored : w.precedenceList c = some cpl
  effective : (w.classes c).slots = some slots
  parents : ∀ p ∈ hierarchy defs c, (w.classes p).finalized = true ∧ (p ∈ D ∨ Base p)
  linear : Linear (hierarchy defs) c cpl
  chosen : Chosen defs w c cpl
  computed : computeSlots types w c cpl = .ok slots

/-- What finalization has written so far. -/
structure Progress (types : Types Ty) (defs : List (Definition Ty)) (D : List ClassId)
    (w : World Ty) : Prop where
  root : (w.classes rootClass).finalized = true ∧
    w.precedenceList rootClass = some [rootClass, topClass] ∧ (w.classes rootClass).slots = some []
  top : (w.classes topClass).finalized = true ∧ w.precedenceList topClass = some [topClass] ∧
    (w.classes topClass).slots = some []
  forward : ∀ p, w.IsForward p → (w.classes p).finalized = true ∧
    w.precedenceList p = some [p, rootClass, topClass]
  settled : ∀ c ∈ D, (w.classes c).finalized = true →
    ∃ cpl slots, Finished types defs D w c cpl slots
  /-- A class that was a forward reference keeps the precedence list of that. -/
  stale : ∀ c ∈ D, (w.classes c).finalized = false →
    w.precedenceList c = none ∨ w.precedenceList c = some [c, rootClass, topClass]

/-- What is finalized stays as it is. -/
structure Extends (w w' : World Ty) : Prop where
  finalized : ∀ c, (w.classes c).finalized = true → (w'.classes c).finalized = true
  list : ∀ c, (w.classes c).finalized = true → w'.precedenceList c = w.precedenceList c
  slots : ∀ c, (w.classes c).finalized = true → (w'.classes c).slots = (w.classes c).slots

theorem Extends.refl (w : World Ty) : Extends w w := ⟨fun _ => id, fun _ _ => rfl, fun _ _ => rfl⟩

variable {w w' : World Ty}

theorem Extends.trans {w'' : World Ty} (first : Extends w w') (second : Extends w' w'') :
    Extends w w'' where
  finalized c final := second.finalized c (first.finalized c final)
  list c final := (second.list c (first.finalized c final)).trans (first.list c final)
  slots c final := (second.slots c (first.finalized c final)).trans (first.slots c final)

theorem SameDefinitions.isForward_iff (same : SameDefinitions w w')
    (p : ClassId) : w'.IsForward p ↔ w.IsForward p := by
  have definition := same.definition p
  simp only [ClassObject.definition, Prod.mk.injEq] at definition
  obtain ⟨name, metaclass, supers, -, slots⟩ := definition
  constructor
  · rintro ⟨forwardName, forwardMetaclass, forwardSupers, forwardSlots⟩
    exact ⟨name.symm.trans forwardName, metaclass.symm.trans forwardMetaclass,
      supers.symm.trans forwardSupers, slots.symm.trans forwardSlots⟩
  · rintro ⟨forwardName, forwardMetaclass, forwardSupers, forwardSlots⟩
    exact ⟨name.trans forwardName, metaclass.trans forwardMetaclass, supers.trans forwardSupers,
      slots.trans forwardSlots⟩

theorem SameDefinitions.stage {defs : List (Definition Ty)} {D : List ClassId}
    (same : SameDefinitions w w') (stage : Stage defs D w) : Stage defs D w' := by
  have definition : ∀ c, (w'.classes c).name = (w.classes c).name ∧
      (w'.classes c).metaclass = (w.classes c).metaclass ∧
      w'.directSuperclasses c = w.directSuperclasses c ∧
      w'.directSubclasses c = w.directSubclasses c ∧
      (w'.classes c).directSlots = (w.classes c).directSlots := by
    intro c
    have definition := same.definition c
    simp only [ClassObject.definition, Prod.mk.injEq] at definition
    exact definition
  refine ⟨stage.inside, ?_, ?_, fun d member here => ?_, fun c member p direct => ?_,
    fun n c => ?_⟩
  · obtain ⟨-, metaclass, supers, -, slots⟩ := definition rootClass
    rw [metaclass, supers, slots]
    exact stage.root
  · obtain ⟨-, metaclass, supers, -, slots⟩ := definition topClass
    rw [metaclass, supers, slots]
    exact stage.top
  · obtain ⟨name, metaclass, supers, -, slots⟩ := definition d.id
    have defines := stage.defined d member here
    exact ⟨name.trans defines.name, metaclass.trans defines.metaclass,
      supers.trans defines.supers, slots.trans defines.slots⟩
  · rw [same.isForward_iff]
    exact stage.mentioned c member p direct
  · rw [(definition _).2.2.2.1]
    exact stage.subs n c

section

variable {types : Types Ty} {defs : List (Definition Ty)} {D : List ClassId} {w : World Ty}

variable {p : ClassId}

theorem World.IsForward.forward (isForward : w.IsForward p) : w.forward p = true :=
  decide_eq_true isForward.metaclass

theorem Stage.not_forward (stage : Stage defs D w) (consistent : Consistent defs types)
    (present : p ∈ D ∨ Base p) : w.forward p = false := by
  refine decide_eq_false fun forward => ?_
  rcases present with member | rfl | rfl
  · obtain ⟨d, inside, rfl⟩ := stage.inside p member
    have std := (consistent.metaclass d inside).1
    rw [← (stage.defined d inside member).metaclass, forward] at std
    cases std
  · rw [stage.root.1] at forward
    cases forward
  · rw [stage.top.1] at forward
    cases forward

theorem Stage.not_isForward (stage : Stage defs D w) (consistent : Consistent defs types)
    (present : p ∈ D ∨ Base p) : ¬ w.IsForward p := by
  intro isForward
  have forward := isForward.forward
  rw [stage.not_forward consistent present] at forward
  cases forward

variable {c : ClassId}

theorem Stage.supers (stage : Stage defs D w) (consistent : Consistent defs types)
    (present : c ∈ D ∨ Base c) : w.directSuperclasses c = hierarchy defs c := by
  rcases present with member | rfl | rfl
  · obtain ⟨d, inside, rfl⟩ := stage.inside c member
    rw [(stage.defined d inside member).supers, consistent.hierarchy_of_mem inside]
  · rw [stage.root.2.1, hierarchy_root]
  · rw [stage.top.2.1, hierarchy_top]

theorem Stage.directSlots (stage : Stage defs D w) (consistent : Consistent defs types)
    (present : c ∈ D ∨ Base c) : (w.classes c).directSlots = definedSlots defs c := by
  rcases present with member | base
  · obtain ⟨d, inside, rfl⟩ := stage.inside c member
    rw [(stage.defined d inside member).slots, consistent.definedSlots_of_mem inside]
  · rw [definedSlots_base base]
    rcases base with rfl | rfl
    · exact stage.root.2.2
    · exact stage.top.2.2

theorem Progress.above (progress : Progress types defs D w) {a : ClassId}
    (present : c ∈ D ∨ Base c) (final : (w.classes c).finalized = true)
    (path : Inherits defs c a) : (w.classes a).finalized = true ∧ (a ∈ D ∨ Base a) := by
  induction path with
  | refl => exact ⟨final, present⟩
  | @tail b a _ direct ih =>
    obtain ⟨final, member | base⟩ := ih
    · obtain ⟨cpl, slots, settled⟩ := progress.settled b member final
      exact settled.parents a direct
    · have baseA := base_of_inherits base (.single direct)
      refine ⟨?_, .inr baseA⟩
      rcases baseA with rfl | rfl
      · exact progress.root.1
      · exact progress.top.1

theorem linear_top : Linear (hierarchy defs) topClass [topClass] := by
  refine ⟨⟨[], rfl⟩, nodup_singleton _, fun d => ?_, fun d member a b sub => ?_⟩
  · rw [mem_singleton]
    refine ⟨fun same => same ▸ .refl, inherits_top⟩
  · rw [mem_singleton.mp member, hierarchy_top] at sub
    exact sub

theorem linear_root : Linear (hierarchy defs) rootClass [rootClass, topClass] := by
  refine linear_top.single hierarchy_root fun path => ?_
  cases inherits_top path

theorem Progress.linear (progress : Progress types defs D w)
    (present : c ∈ D ∨ Base c) (final : (w.classes c).finalized = true) :
    ∃ cpl, w.precedenceList c = some cpl ∧ Linear (hierarchy defs) c cpl := by
  rcases present with member | rfl | rfl
  · obtain ⟨cpl, slots, settled⟩ := progress.settled c member final
    exact ⟨cpl, settled.stored, settled.linear⟩
  · exact ⟨_, progress.root.2.1, linear_root⟩
  · exact ⟨_, progress.top.2.1, linear_top⟩

variable {cpl : List ClassId}

theorem sharedLocation_congr {w' : World Ty}
    (own : (w'.classes c).directSlots = (w.classes c).directSlots)
    (slots : ∀ d ∈ cpl, d ≠ c → (w'.classes d).slots = (w.classes d).slots) (slot : Slot Ty) :
    sharedLocation w' c cpl slot = sharedLocation w c cpl slot := by
  have others : ∀ ds : List ClassId, (∀ d ∈ ds, (w'.classes d).slots = (w.classes d).slots) →
      (ds.findSome? fun d => (((w'.classes d).slots.getD []).find? (·.name = slot.name)).bind
        fun other => if other.shared then other.location else none) =
      ds.findSome? fun d => (((w.classes d).slots.getD []).find? (·.name = slot.name)).bind
        fun other => if other.shared then other.location else none := by
    intro ds
    induction ds with
    | nil => exact fun _ => rfl
    | cons d ds ih =>
      intro same
      rw [List.findSome?_cons, List.findSome?_cons, same d mem_cons_self,
        ih fun e member => same e (mem_cons_of_mem _ member)]
  unfold sharedLocation
  rw [own, others]
  intro d member
  obtain ⟨inside, differ⟩ := mem_filter.mp member
  exact slots d inside (by simpa using differ)

theorem computeSlots_congr {w' : World Ty}
    (metaclass : (w'.classes c).metaclass = (w.classes c).metaclass)
    (own : (w'.classes c).directSlots = (w.classes c).directSlots)
    (direct : ∀ d ∈ cpl, (w'.classes d).directSlots = (w.classes d).directSlots)
    (slots : ∀ d ∈ cpl, d ≠ c → (w'.classes d).slots = (w.classes d).slots) :
    computeSlots types w' c cpl = computeSlots types w c cpl := by
  have all : (cpl.reverse.flatMap fun d => (w'.classes d).directSlots) =
      cpl.reverse.flatMap fun d => (w.classes d).directSlots :=
    flatMap_congr fun d member => direct d (mem_reverse.mp member)
  have shared :
    ∀ placed, stdClassComputeSlots w' c cpl placed = stdClassComputeSlots w c cpl placed := by
    intro placed
    refine map_congr_left fun slot _ => ?_
    rw [sharedLocation_congr own slots]
  unfold computeSlots
  simp only [all, metaclass, shared]

theorem computeSlots_ok {placed : List (Slot Ty)}
    (direct : ∀ d ∈ cpl, (w.classes d).directSlots = definedSlots defs d)
    (effective : effectiveSlots defs types cpl = .ok placed) :
    ∃ slots, computeSlots types w c cpl = .ok slots := by
  have all : (cpl.reverse.flatMap fun d => (w.classes d).directSlots) =
      cpl.reverse.flatMap (definedSlots defs) :=
    flatMap_congr fun d member => direct d (mem_reverse.mp member)
  unfold computeSlots
  unfold effectiveSlots at effective
  simp only [all] at effective ⊢
  cases loop : computeSlotsLoop types (cpl.reverse.flatMap (definedSlots defs))
      ((cpl.reverse.flatMap (definedSlots defs)).map (·.name)).reverse [] with
  | error e =>
    rw [loop] at effective
    cases effective
  | ok slots =>
    rw [loop] at effective
    change classComputeSlots slots = .ok placed at effective
    simp only [bind, Except.bind, effective]
    exact ⟨_, rfl⟩

variable (defs) in
def allClasses : List ClassId := defs.map Definition.id ++ [rootClass, topClass]

variable (defs) in
/-- A limit that every walk over superclasses keeps within. -/
def walkBound : Nat := 2 * ((allClasses defs).map fun c => (hierarchy defs c).length).sum

theorem Consistent.allClasses_nodup (consistent : Consistent defs types) :
    (allClasses defs).Nodup := by
  refine nodup_append'.mpr ⟨?_, by decide, ?_⟩
  · refine List.Nodup.of_map (fun c : ClassId => c.name) ?_
    rw [map_map]
    have names := consistent.nodup.map (f := fun n => some (ClassName.other n)) fun a b same => by
      injection same with same
      injection same
    rw [map_map] at names
    exact names
  · intro c member base
    obtain ⟨d, -, rfl⟩ := mem_map.mp member
    refine d.id_not_base ?_
    rcases mem_cons.mp base with same | same
    · exact .inl same
    · exact .inr (mem_singleton.mp same)

theorem Consistent.supers_inside (consistent : Consistent defs types)
    (inside : c ∈ allClasses defs) (direct : p ∈ hierarchy defs c) : p ∈ allClasses defs := by
  have root : rootClass ∈ allClasses defs := mem_append_right _ mem_cons_self
  have top : topClass ∈ allClasses defs := mem_append_right _ (by simp)
  rcases mem_append.mp inside with member | member
  · obtain ⟨d, known, rfl⟩ := mem_map.mp member
    rw [consistent.hierarchy_of_mem known, Definition.supers] at direct
    split at direct
    · rw [mem_singleton.mp direct]
      exact root
    · obtain ⟨s, named, rfl⟩ := mem_map.mp direct
      rcases consistent.closed d known s named with rfl | rfl | ⟨e, present, rfl⟩
      · exact top
      · exact root
      · exact mem_append_left _ (mem_map_of_mem present)
  · rcases mem_cons.mp member with rfl | member
    · rw [hierarchy_root] at direct
      rw [mem_singleton.mp direct]
      exact top
    · rw [mem_singleton.mp member, hierarchy_top] at direct
      cases direct

theorem Consistent.inherits_inside (consistent : Consistent defs types) {a : ClassId}
    (inside : c ∈ allClasses defs) (path : Inherits defs c a) : a ∈ allClasses defs := by
  induction path with
  | refl => exact inside
  | tail _ direct ih => exact consistent.supers_inside ih direct

theorem walkSize_le (inside : c ∈ allClasses defs) :
    walkSize (hierarchy defs) (allClasses defs) (hierarchy defs c) [] ≤ walkBound defs := by
  have own : (hierarchy defs c).length ≤
      ((allClasses defs).map fun c => (hierarchy defs c).length).sum :=
    single_le_sum (fun _ _ => Nat.zero_le _) _ (mem_map_of_mem inside)
  have everything : (allClasses defs).filter (· ∉ ([] : List ClassId)) = allClasses defs := by simp
  unfold walkSize walkBound
  rw [everything]
  omega

theorem hierarchy_ne_nil (stage : Stage defs D w) (consistent : Consistent defs types)
    (member : c ∈ D) : hierarchy defs c ≠ [] := by
  obtain ⟨d, inside, rfl⟩ := stage.inside c member
  rw [consistent.hierarchy_of_mem inside]
  exact d.supers_ne_nil

theorem single_or_several {supers : List ClassId} (some : supers ≠ []) :
    (∃ p, supers = [p]) ∨ 2 ≤ supers.length := by
  match supers, some with
  | [p], _ => exact .inl ⟨p, rfl⟩
  | p :: q :: rest, _ => exact .inr (by simp)

theorem Chosen.unique {cpl' : List ClassId} (some : hierarchy defs c ≠ [])
    (chosen : Chosen defs w c cpl) (chosen' : Chosen defs w c cpl') : cpl' = cpl := by
  rcases single_or_several some with ⟨p, single⟩ | several
  · obtain ⟨rest, stored, rfl⟩ := chosen.1 p single
    obtain ⟨rest', stored', rfl⟩ := chosen'.1 p single
    cases stored.symm.trans stored'
    rfl
  · obtain ⟨n, computed⟩ := chosen.2 several
    obtain ⟨n', computed'⟩ := chosen'.2 several
    exact computeClosClassPrecedenceList_unique several (fun _ _ => rfl) computed computed'

variable {slots : List (Slot Ty)}

theorem setFinal_other {d : ClassId} (differ : d ≠ c) :
    (w.setFinal c cpl slots).classes d = w.classes d := by
  simp [World.setFinal, World.modify, differ]

theorem setFinal_own : (w.setFinal c cpl slots).classes c = { w.classes c with
      precedenceList := some cpl, slots := some slots, finalized := true } := by
  simp [World.setFinal, World.modify]

theorem setFinal_eq_self (final : (w.classes c).finalized = true)
    (stored : w.precedenceList c = some cpl)
    (effective : (w.classes c).slots = some slots) : w.setFinal c cpl slots = w := by
  have classes : (w.setFinal c cpl slots).classes = w.classes := by
    funext d
    by_cases here : d = c
    · subst here
      rw [setFinal_own, ← stored, ← effective, ← final]
      rfl
    · exact setFinal_other here
  exact congrArg (fun classes => (⟨classes, w.made, w.find⟩ : World Ty)) classes

theorem Linear.not_direct (linear : Linear (hierarchy defs) c cpl) : c ∉ hierarchy defs c := by
  intro direct
  obtain ⟨rest, rfl⟩ := linear.head
  have twice := linear.ordered c mem_cons_self c c
    ((singleton_sublist.mpr direct).cons_cons c)
  have later : c ∈ rest := by
    cases twice with
    | cons _ sub => exact sub.subset mem_cons_self
    | cons_cons _ sub => exact sub.subset mem_cons_self
  exact (nodup_cons.mp linear.nodup).1 later

theorem Progress.write (stage : Stage defs D w) (consistent : Consistent defs types)
    (progress : Progress types defs D w) (member : c ∈ D)
    (linear : Linear (hierarchy defs) c cpl)
    (chosen : Chosen defs w c cpl)
    (others : ∀ d ∈ cpl, d ≠ c → (w.classes d).finalized = true ∧ (d ∈ D ∨ Base d))
    (computed : computeSlots types w c cpl = .ok slots) :
    Progress types defs D (w.setFinal c cpl slots) ∧ Extends w (w.setFinal c cpl slots) := by
  by_cases final : (w.classes c).finalized = true
  · -- finalized once more, with the same results
    obtain ⟨cpl', slots', settled⟩ := progress.settled c member final
    cases Chosen.unique (hierarchy_ne_nil stage consistent member) chosen settled.chosen
    cases computed.symm.trans settled.computed
    rw [setFinal_eq_self final settled.stored settled.effective]
    exact ⟨progress, .refl w⟩
  have notBase : ¬ Base c := by
    obtain ⟨d, -, rfl⟩ := stage.inside c member
    exact d.id_not_base
  have same := setFinal_sameDefinitions w c cpl slots
  have other : ∀ {d : ClassId}, d ≠ c → (w.setFinal c cpl slots).classes d = w.classes d :=
    setFinal_other
  have definition : ∀ d, ((w.setFinal c cpl slots).classes d).directSlots =
      (w.classes d).directSlots := fun d => congrArg (·.2.2.2.2) (same.definition d)
  have metaclass : ∀ d, ((w.setFinal c cpl slots).classes d).metaclass = (w.classes d).metaclass :=
    fun d => congrArg (·.2.1) (same.definition d)
  have ne : ∀ {d : ClassId}, (w.classes d).finalized = true → d ≠ c := fun {d} done here =>
    final (here ▸ done)
  refine ⟨⟨?_, ?_, fun p isForward => ?_, fun d present done => ?_,
    fun d present unfinalized => ?_⟩,
    fun d done => ?_, fun d done => ?_, fun d done => ?_⟩
  · have differ : rootClass ≠ c := fun here => notBase (.inl here.symm)
    rw [World.precedenceList, other differ]
    exact progress.root
  · have differ : topClass ≠ c := fun here => notBase (.inr here.symm)
    rw [World.precedenceList, other differ]
    exact progress.top
  · rw [same.isForward_iff] at isForward
    have differ : p ≠ c := fun here =>
      stage.not_isForward consistent (.inl member) (here ▸ isForward)
    rw [World.precedenceList, other differ]
    exact progress.forward p isForward
  · by_cases here : d = c
    · subst here
      have parent : ∀ p ∈ hierarchy defs d, p ≠ d ∧ (w.classes p).finalized = true ∧
          (p ∈ D ∨ Base p) := by
        intro p direct
        have differ : p ≠ d := fun here => linear.not_direct (here ▸ direct)
        exact ⟨differ, others p ((linear.mem p).mpr (.single direct)) differ⟩
      refine ⟨cpl, slots, ?_, ?_, fun p direct => ?_, linear, ⟨fun p single => ?_, chosen.2⟩, ?_⟩
      · rw [World.precedenceList, setFinal_own]
      · rw [setFinal_own]
      · obtain ⟨differ, done, known⟩ := parent p direct
        rw [other differ]
        exact ⟨done, known⟩
      · obtain ⟨differ, -⟩ := parent p (single ▸ mem_singleton_self p)
        obtain ⟨rest, stored, same⟩ := chosen.1 p single
        refine ⟨rest, ?_, same⟩
        rw [World.precedenceList, other differ]
        exact stored
      · rw [computeSlots_congr (metaclass d) (definition d) (fun e _ => definition e) fun e
          _ differ => by
          rw [other differ]]
        exact computed
    · rw [other here] at done
      obtain ⟨cpl', slots', settled⟩ := progress.settled d present done
      refine ⟨cpl', slots', ?_, ?_, fun p direct => ?_, settled.linear,
        ⟨fun p single => ?_, settled.chosen.2⟩, ?_⟩
      · rw [World.precedenceList, other here]
        exact settled.stored
      · rw [other here]
        exact settled.effective
      · obtain ⟨done, known⟩ := settled.parents p direct
        rw [other (ne done)]
        exact ⟨done, known⟩
      · obtain ⟨done, -⟩ := settled.parents p (single ▸ mem_singleton_self p)
        obtain ⟨rest, stored, same⟩ := settled.chosen.1 p single
        refine ⟨rest, ?_, same⟩
        rw [World.precedenceList, other (ne done)]
        exact stored
      · rw [computeSlots_congr (metaclass d) (definition d) (fun e _ => definition e)
          fun e inside _ => by
            rw [other
              (ne (progress.above (.inl present) done ((settled.linear.mem e).mp inside)).1)]]
        exact settled.computed
  · have differ : d ≠ c := by
      rintro rfl
      rw [setFinal_own] at unfinalized
      cases unfinalized
    rw [other differ] at unfinalized
    rw [World.precedenceList, other differ]
    exact progress.stale d present unfinalized
  · rw [other (ne done)]
    exact done
  · rw [World.precedenceList, other (ne done)]
    rfl
  · rw [other (ne done)]

end

end Ecl.Clos
