import Ecl.Clos.Downward

/- The states between two definitions, and the forward references that a definition
makes. -/
namespace Ecl.Clos

open List Option

variable {Ty : Type}

/-- The class has at most other direct subclasses. -/
def Retains (w w' : World Ty) (c : ClassId) : Prop :=
  w'.classes c = { w.classes c with directSubclasses := (w'.classes c).directSubclasses }

namespace Retains

variable {w w' : World Ty} {c : ClassId}

theorem of_eq (same : w'.classes c = w.classes c) : Retains w w' c := by
  rw [Retains, same]

theorem trans {w'' : World Ty} (first : Retains w w' c) (second : Retains w' w'' c) :
    Retains w w'' c := by
  rw [Retains, second, first]

variable (retains : Retains w w' c)

include retains

theorem name : (w'.classes c).name = (w.classes c).name := congrArg (·.name) retains

theorem metaclass : (w'.classes c).metaclass = (w.classes c).metaclass :=
  congrArg (·.metaclass) retains

theorem supers : w'.directSuperclasses c = w.directSuperclasses c :=
  congrArg (·.directSuperclasses) retains

theorem list : w'.precedenceList c = w.precedenceList c := congrArg (·.precedenceList) retains

theorem directSlots : (w'.classes c).directSlots = (w.classes c).directSlots :=
  congrArg (·.directSlots) retains

theorem slots : (w'.classes c).slots = (w.classes c).slots := congrArg (·.slots) retains

theorem finalized : (w'.classes c).finalized = (w.classes c).finalized :=
  congrArg (·.finalized) retains

theorem isForward_iff : w'.IsForward c ↔ w.IsForward c := by
  constructor
  · rintro ⟨isNamed, isForward, parents, noSlots⟩
    exact ⟨retains.name.symm.trans isNamed, retains.metaclass.symm.trans isForward,
      retains.supers.symm.trans parents, retains.directSlots.symm.trans noSlots⟩
  · rintro ⟨isNamed, isForward, parents, noSlots⟩
    exact ⟨retains.name.trans isNamed, retains.metaclass.trans isForward,
      retains.supers.trans parents, retains.directSlots.trans noSlots⟩

theorem defines {d : Definition Ty} (own : d.id = c) (defines : w.Defines d) : w'.Defines d := by
  subst own
  exact ⟨retains.name.trans defines.name, retains.metaclass.trans defines.metaclass,
    retains.supers.trans defines.supers, retains.directSlots.trans defines.slots⟩

end Retains

theorem modify_retains {w : World Ty} {c d : ClassId} {f : ClassObject Ty → ClassObject Ty}
    (differ : d ≠ c) : Retains w (w.modify c f) d :=
  .of_eq (by simp [World.modify, differ])

theorem addAll_retains {c : ClassId} (d : ClassId) : ∀ {supers : List ClassId} {w : World Ty},
    Retains w (supers.foldl (World.addDirectSubclass c) w) d := by
  intro supers
  induction supers with
  | nil => exact .of_eq rfl
  | cons parent supers ih =>
    intro w
    refine Retains.trans ?_ (ih (w := w.addDirectSubclass c parent))
    by_cases here : d = parent
    · subst here
      simp [Retains, World.addDirectSubclass, World.modify]
    · exact modify_retains here

theorem addAll_classes {c d : ClassId} : ∀ {supers : List ClassId} {w : World Ty}, d ∉ supers →
    (supers.foldl (World.addDirectSubclass c) w).classes d = w.classes d := by
  intro supers
  induction supers with
  | nil => exact fun _ => rfl
  | cons parent supers ih =>
    intro w absent
    obtain ⟨differ, absent⟩ := not_or.mp (mt mem_cons.mpr absent)
    rw [foldl_cons, ih absent]
    simp [World.addDirectSubclass, World.modify, differ]

/-- A class object is stored and linked to its superclasses. -/
def World.store (w : World Ty) (c : ClassId) (k : ClassObject Ty) : World Ty :=
  k.directSuperclasses.foldl (World.addDirectSubclass c) (w.modify c fun _ => k)

namespace World

variable {w : World Ty} {c : ClassId} {k : ClassObject Ty}

theorem store_retains {d : ClassId} (differ : d ≠ c) : Retains w (w.store c k) d :=
  (modify_retains differ).trans (addAll_retains d)

theorem store_own (acyclic : c ∉ k.directSuperclasses) : (w.store c k).classes c = k := by
  rw [store, addAll_classes acyclic]
  simp [World.modify]

theorem store_subs {p : ClassId} (differ : p ≠ c) (unrelated : p ∉ k.directSuperclasses) :
    (w.store c k).directSubclasses p = w.directSubclasses p := by
  rw [store, World.directSubclasses, addAll_classes unrelated]
  simp [World.modify, differ, World.directSubclasses]

theorem mem_store_subs {d p : ClassId} : d ∈ (w.store c k).directSubclasses p ↔
    d ∈ (if p = c then k.directSubclasses else w.directSubclasses p) ∨
      d = c ∧ p ∈ k.directSuperclasses := by
  rw [store, mem_addAll]
  simp only [World.directSubclasses, World.modify]
  split <;> rfl

theorem store_made : (w.store c k).made = w.made := addAll_made.1

theorem store_find : (w.store c k).find = w.find := addAll_made.2

end World

section

variable {types : Types Ty} {defs : List (Definition Ty)} {D D' : List ClassId} {w w' : World Ty}

theorem Progress.finished (progress : Progress types defs D w) (subset : D ⊆ D')
    (retains : ∀ e, e ∈ D ∨ Base e → Retains w w' e) {c : ClassId} (member : c ∈ D)
    (final : (w.classes c).finalized = true) :
    ∃ cpl slots, Finished types defs D' w' c cpl slots := by
  obtain ⟨cpl, slots, finished⟩ := progress.settled c member final
  have own := retains c (.inl member)
  have present : ∀ e ∈ cpl, e ∈ D ∨ Base e := fun e inside =>
    (progress.above (.inl member) final ((finished.linear.mem e).mp inside)).2
  refine ⟨cpl, slots, own.list.trans finished.stored, own.slots.trans finished.effective,
    fun p direct => ?_, finished.linear, ⟨fun p single => ?_, finished.chosen.2⟩, ?_⟩
  · obtain ⟨done, known⟩ := finished.parents p direct
    exact ⟨(retains p known).finalized.trans done, known.imp_left fun inside => subset inside⟩
  · obtain ⟨-, known⟩ := finished.parents p (single ▸ mem_singleton_self p)
    obtain ⟨rest, stored, same⟩ := finished.chosen.1 p single
    exact ⟨rest, (retains p known).list.trans stored, same⟩
  · rw [computeSlots_congr own.metaclass own.directSlots
      (fun e inside => (retains e (present e inside)).directSlots)
      fun e inside _ => (retains e (present e inside)).slots]
    exact finished.computed

theorem Progress.retain (progress : Progress types defs D w) (subset : D ⊆ D')
    (retains : ∀ e, e ∈ D ∨ Base e → Retains w w' e)
    (forward : ∀ p, w'.IsForward p → (w'.classes p).finalized = true ∧
      w'.precedenceList p = some [p, rootClass, topClass])
    (further : ∀ c ∈ D', c ∉ D → (w'.classes c).finalized = false ∧
      (w'.precedenceList c = none ∨ w'.precedenceList c = some [c, rootClass, topClass])) :
    Progress types defs D' w' := by
  refine ⟨?_, ?_, forward, fun c member final => ?_, fun c member unfinalized => ?_⟩
  · have root := retains rootClass (.inr (.inl rfl))
    rw [root.finalized, root.list, root.slots]
    exact progress.root
  · have top := retains topClass (.inr (.inr rfl))
    rw [top.finalized, top.list, top.slots]
    exact progress.top
  · by_cases before : c ∈ D
    · rw [(retains c (.inl before)).finalized] at final
      exact progress.finished subset retains before final
    · rw [(further c member before).1] at final
      cases final
  · by_cases before : c ∈ D
    · have retain := retains c (.inl before)
      rw [retain.finalized] at unfinalized
      rw [retain.list]
      exact progress.stale c before unfinalized
    · exact (further c member before).2

variable (types defs D w) in
/-- Between two definitions, all classes are finalized that can be. -/
structure Between : Prop where
  stage : Stage defs D w
  progress : Progress types defs D w
  names : Names D w
  complete : ∀ c ∈ D, Full defs D c → (w.classes c).finalized = true

variable (w w') in
/-- A forward reference is made. -/
structure Mentions (n : Nat) : Prop where
  retains : ∀ e, e ≠ .first (.other n) → Retains w w' e
  subs : ∀ p, ¬ Base p → p ≠ .first (.other n) → w'.directSubclasses p = w.directSubclasses p
  none : w'.directSubclasses (.first (.other n)) = []
  isForward : w'.IsForward (.first (.other n))
  finalized : (w'.classes (.first (.other n))).finalized = true
  list : w'.precedenceList (.first (.other n)) = some [.first (.other n), rootClass, topClass]
  found : w'.find (.other n) = some (.first (.other n))
  find : ∀ name, name ≠ .other n → w'.find name = w.find name
  made : ∀ name, name ≠ some (.other n) → w'.made name = w.made name

theorem not_base_other (n : Nat) : ¬ Base (.first (.other n)) := by
  rintro (same | same) <;> cases same

theorem first_other_ne {n m : Nat} (differ : n ≠ m) :
    ClassId.first (.other n) ≠ .first (.other m) := by
  intro same
  injection same with same
  injection same with same
  injection same with same
  exact differ same

theorem Stage.not_mentioned (stage : Stage defs D w) {p : ClassId} (absent : p ∉ D)
    (notBase : ¬ Base p) (notForward : ¬ w.IsForward p) {c : ClassId} (member : c ∈ D) :
    p ∉ hierarchy defs c := by
  intro direct
  rcases stage.mentioned c member p direct with defined | base | isForward
  · exact absent defined
  · exact notBase base
  · exact notForward isForward

theorem Stage.retain (stage : Stage defs D w)
    (retains : ∀ e, e ∈ D ∨ Base e ∨ w.IsForward e → Retains w w' e)
    (subs : ∀ n c, c ∈ w'.directSubclasses (.first (.other n)) ↔
      c ∈ D ∧ .first (.other n) ∈ hierarchy defs c) :
    Stage defs D w' := by
  refine ⟨stage.inside, ?_, ?_, fun d member here => ?_, fun c member p direct => ?_, subs⟩
  · have root := retains rootClass (.inr (.inl (.inl rfl)))
    rw [root.metaclass, root.supers, root.directSlots]
    exact stage.root
  · have top := retains topClass (.inr (.inl (.inr rfl)))
    rw [top.metaclass, top.supers, top.directSlots]
    exact stage.top
  · exact (retains d.id (.inl here)).defines rfl (stage.defined d member here)
  · rcases stage.mentioned c member p direct with defined | base | isForward
    · exact .inl defined
    · exact .inr (.inl base)
    · exact .inr (.inr ((retains p (.inr (.inr isForward))).isForward_iff.mpr isForward))

theorem Between.mention (between : Between types defs D w) {n : Nat}
    (absent : .first (.other n) ∉ D)
    (notForward : ¬ w.IsForward (.first (.other n))) (mentions : Mentions w w' n) :
    Between types defs D w' := by
  obtain ⟨stage, progress, names, complete⟩ := between
  have known : ∀ e, e ∈ D ∨ Base e ∨ w.IsForward e → e ≠ .first (.other n) := by
    rintro e present rfl
    rcases present with defined | base | isForward
    · exact absent defined
    · exact not_base_other n base
    · exact notForward isForward
  have retains : ∀ e, e ∈ D ∨ Base e ∨ w.IsForward e → Retains w w' e := fun e present =>
    mentions.retains e (known e present)
  have forward : ∀ e, w'.IsForward e → e = .first (.other n) ∨ w.IsForward e := by
    intro e isForward
    by_cases here : e = .first (.other n)
    · exact .inl here
    · exact .inr ((mentions.retains e here).isForward_iff.mp isForward)
  refine ⟨stage.retain retains fun m c => ?_,
    progress.retain (List.Subset.refl D) (fun e present => retains e (present.imp_right .inl))
      (fun p isForward => ?_) (fun c member outside => absurd member outside),
    ⟨?_, ?_, fun m present => ?_, fun m absentM notForwardM => ?_⟩, fun c member full => ?_⟩
  · by_cases here : m = n
    · subst here
      rw [mentions.none]
      refine iff_of_false not_mem_nil fun ⟨member, direct⟩ => ?_
      exact stage.not_mentioned absent (not_base_other m) notForward member direct
    · rw [mentions.subs _ (not_base_other m) (first_other_ne here)]
      exact stage.subs m c
  · rcases forward p isForward with rfl | before
    · exact ⟨mentions.finalized, mentions.list⟩
    · have retain := retains p (.inr (.inr before))
      rw [retain.finalized, retain.list]
      exact progress.forward p before
  · rw [mentions.find .standardObject nofun]
    exact names.root
  · rw [mentions.find .t nofun]
    exact names.top
  · by_cases here : m = n
    · subst here
      exact mentions.found
    · rw [mentions.find _ fun same => here (ClassName.other.inj same)]
      refine names.named m (present.imp_right fun isForward => ?_)
      exact (forward _ isForward).resolve_left (first_other_ne here)
  · have differ : m ≠ n := by
      rintro rfl
      exact notForwardM mentions.isForward
    rw [mentions.find _ fun same => differ (ClassName.other.inj same),
      mentions.made _ fun same => differ (ClassName.other.inj (some.inj same))]
    refine names.unnamed m absentM fun isForward => notForwardM ?_
    exact (mentions.retains _ (first_other_ne differ)).isForward_iff.mpr isForward
  · rw [(retains c (.inl member)).finalized]
    exact complete c member full

variable (types) in
theorem finalizeInheritance_forward {c : ClassId} (isForward : w.IsForward c)
    (none' : w.directSubclasses c = [])
    (root : (w.classes rootClass).finalized = true ∧ w.forward rootClass = false ∧
      (w.classes rootClass).directSlots = [])
    (top : (w.classes topClass).finalized = true ∧ w.forward topClass = false ∧
      (w.classes topClass).directSlots = [])
    (list : w.precedenceList rootClass = some [rootClass, topClass]) (n : Nat) :
    finalizeInheritance types (n + 1) c w =
      (.ok (), w.setFinal c [c, rootClass, topClass] []) := by
  have computed := computeClassPrecedenceList_single (n := n) isForward.supers
  rw [list] at computed
  have noForward : [c, rootClass, topClass].tail.any w.forward = false := by
    simp [root.2.1, top.2.1]
  have nothing : ([c, rootClass, topClass].reverse.find? fun x => !(w.classes x).finalized).filter
      (· ≠ c) = none := by
    rw [filter_eq_none_iff]
    intro x found
    have unfinalized := List.find?_some found
    have inside := mem_reverse.mp (mem_of_find?_eq_some found)
    simp only [mem_cons, not_mem_nil, or_false] at inside
    rcases inside with rfl | rfl | rfl
    · simp
    · rw [root.1] at unfinalized
      cases unfinalized
    · rw [top.1] at unfinalized
      cases unfinalized
  have slots : computeSlots types w c [c, rootClass, topClass] = .ok [] := by
    have none' :
      [c, rootClass, topClass].reverse.flatMap (fun d => (w.classes d).directSlots) = [] := by
      simp [isForward.slots, root.2.2, top.2.2]
    unfold computeSlots
    rw [none', isForward.metaclass]
    rfl
  have body : finalizeBody types n c w = (.ok (), w.setFinal c [c, rootClass, topClass] []) := by
    rw [finalizeBody, computed]
    dsimp only
    rw [noForward, nothing, slots]
    dsimp only [Bool.false_eq_true, if_false]
    rw [if_neg Bool.false_ne_true, show (w.classes c).directSubclasses = [] from none']
    rfl
  rw [finalizeInheritance_succ, body, finishFinalization, Outcome.andThen]
  rw [setFinal_own, isForward.metaclass]

theorem checkDirectSuperclasses_some (w : World Ty) (metaclass : Metaclass)
    {supplied : List ClassId}
    (some : supplied ≠ []) : w.checkDirectSuperclasses metaclass supplied = .ok supplied := by
  cases supplied with
  | nil => exact absurd rfl some
  | cons c rest => rfl

def forwardClass (n : Nat) : ClassObject Ty where
  name := some (.other n)
  metaclass := .forwardReferencedClass
  directSuperclasses := [rootClass]
  directSubclasses := []
  precedenceList := none
  directSlots := []
  slots := none
  finalized := false

theorem root_ne_other (n : Nat) : rootClass ≠ .first (.other n) := nofun

theorem top_ne_other (n : Nat) : topClass ≠ .first (.other n) := nofun

theorem makeClass_forward (stage : Stage defs D w) (progress : Progress types defs D w) {n : Nat}
    (unmade : w.made (some (.other n)) = 0) (limit : Nat) :
    makeClass types (limit + 1) .forwardReferencedClass (some (.other n)) [rootClass] [] w =
      (.ok (.first (.other n)),
        ((w.allocate (some (.other n))).store (.first (.other n)) (forwardClass n)).setFinal
          (.first (.other n)) [.first (.other n), rootClass, topClass] []) := by
  have fresh : w.fresh (some (.other n)) = .first (.other n) := by
    rw [World.fresh, unmade]
    rfl
  have stored : ([rootClass].foldl (World.addDirectSubclass (.first (.other n)))
      ((w.allocate (some (.other n))).modify (.first (.other n)) fun _ =>
        { name := some (.other n), metaclass := .forwardReferencedClass,
          directSuperclasses := [rootClass], directSubclasses := [], precedenceList := none,
          directSlots := [], slots := none, finalized := false })) =
      (w.allocate (some (.other n))).store (.first (.other n)) (forwardClass n) := rfl
  have own : ((w.allocate (some (.other n))).store (.first (.other n)) (forwardClass n)).classes
      (.first (.other n)) = forwardClass n :=
    World.store_own fun same => root_ne_other n (mem_singleton.mp same).symm
  have root : Retains w ((w.allocate (some (.other n))).store (.first (.other n)) (forwardClass n))
      rootClass := World.store_retains (root_ne_other n)
  have top : Retains w ((w.allocate (some (.other n))).store (.first (.other n)) (forwardClass n))
      topClass := World.store_retains (top_ne_other n)
  generalize (w.allocate (some (.other n))).store (.first (.other n)) (forwardClass n) = w₁ at *
  have rootForward : w₁.forward rootClass = false := by
    rw [World.forward, root.metaclass, stage.root.1]
    rfl
  have topForward : w₁.forward topClass = false := by
    rw [World.forward, top.metaclass, stage.top.1]
    rfl
  have isForward : w₁.IsForward (.first (.other n)) := by
    refine ⟨?_, ?_, ?_, ?_⟩
    · rw [own]
      rfl
    · rw [own]
      rfl
    · rw [World.directSuperclasses, own]
      rfl
    · rw [own]
      rfl
  have final := finalizeInheritance_forward types isForward
    (by rw [World.directSubclasses, own]; rfl)
    ⟨root.finalized.trans progress.root.1, rootForward, root.directSlots.trans stage.root.2.2⟩
    ⟨top.finalized.trans progress.top.1, topForward, top.directSlots.trans stage.top.2.2⟩
    (root.list.trans progress.root.2.1) limit
  have ready : (w₁.directSuperclasses (.first (.other n))).any w₁.forward = false := by
    rw [isForward.supers]
    simp [rootForward]
  unfold makeClass
  rw [checkDirectSuperclasses_some w _ (cons_ne_nil _ _)]
  dsimp only
  rw [fresh, stored, finalizeUnlessForward, ready, if_neg Bool.false_ne_true, final]
  rfl

theorem coerceToClass_forward (between : Between types defs D w) {n : Nat}
    (absent : .first (.other n) ∉ D) (notForward : ¬ w.IsForward (.first (.other n)))
    (limit : Nat) :
    ∃ w', coerceToClass types (limit + 1) w (.symbol (.other n)) = (.ok (.first (.other n)), w') ∧
      Mentions w w' n := by
  obtain ⟨unnamed, unmade⟩ := between.names.unnamed n absent notForward
  have make := makeClass_forward between.stage between.progress unmade limit
  have own : ((w.allocate (some (.other n))).store (.first (.other n)) (forwardClass n)).classes
      (.first (.other n)) = forwardClass n :=
    World.store_own fun same => root_ne_other n (mem_singleton.mp same).symm
  have find : ((w.allocate (some (.other n))).store (.first (.other n)) (forwardClass n)).find =
      w.find := World.store_find
  have made : ((w.allocate (some (.other n))).store (.first (.other n)) (forwardClass n)).made =
      (w.allocate (some (.other n))).made := World.store_made
  have retains : ∀ e, e ≠ .first (.other n) →
      Retains w ((w.allocate (some (.other n))).store (.first (.other n)) (forwardClass n)) e :=
    fun e differ => World.store_retains differ
  have subs : ∀ p, ¬ Base p → p ≠ .first (.other n) →
      ((w.allocate (some (.other n))).store (.first (.other n)) (forwardClass n)).directSubclasses
        p =
        w.directSubclasses p := fun p notBase differ =>
    World.store_subs differ fun same => notBase (.inl (mem_singleton.mp same))
  generalize (w.allocate (some (.other n))).store (.first (.other n)) (forwardClass n) = w₁ at *
  have final : (w₁.setFinal (.first (.other n)) [.first (.other n), rootClass, topClass] []).classes
      (.first (.other n)) = { w₁.classes (.first (.other n)) with
        precedenceList := some [.first (.other n), rootClass, topClass], slots := some []
        finalized := true } := setFinal_own
  have others : ∀ e, e ≠ .first (.other n) →
      (w₁.setFinal (.first (.other n)) [.first (.other n), rootClass, topClass] []).classes e =
        w₁.classes e := fun e differ => setFinal_other differ
  rw [own] at final
  have unprotected : ¬ (((w₁.setFinal (.first (.other n)) [.first (.other n), rootClass, topClass]
      []).find (.other n)).any (fun old => ((w₁.setFinal (.first (.other n))
        [.first (.other n), rootClass, topClass] []).classes old).metaclass = .builtInClass) =
          true ∨
      ClassName.other n = .theClass ∨ ClassName.other n = .builtInClass) := by
    have missing : (w₁.setFinal (.first (.other n)) [.first (.other n), rootClass, topClass]
        []).find (.other n) = none := (congrFun find _).trans unnamed
    rw [missing]
    rintro (builtIn | same | same)
    · cases builtIn
    · cases same
    · cases same
  rw [coerceToClass, unnamed, World.findClass, between.names.root]
  dsimp only
  rw [make, Outcome.andThen, setFindClass, if_neg unprotected]
  refine ⟨_, rfl, fun e differ => (retains e differ).trans (.of_eq (others e differ)),
    fun p notBase differ => ?_, ?_, ⟨?_, ?_, ?_, ?_⟩, ?_, ?_, if_pos rfl, fun name differ => ?_,
    fun name differ => ?_⟩
  · exact (congrArg (·.directSubclasses) (others p differ)).trans (subs p notBase differ)
  · exact congrArg (·.directSubclasses) final
  · exact congrArg (·.name) final
  · exact congrArg (·.metaclass) final
  · exact congrArg (·.directSuperclasses) final
  · exact congrArg (·.directSlots) final
  · exact congrArg (·.finalized) final
  · exact congrArg (·.precedenceList) final
  · exact (if_neg differ).trans (congrFun find name)
  · exact (congrFun made name).trans (if_neg differ)

theorem coerceToClass_between (between : Between types defs D w) {s : ClassName}
    (named : s = .t ∨ s = .standardObject ∨ ∃ n, s = .other n) (limit : Nat) :
    ∃ w', coerceToClass types (limit + 1) w (.symbol s) = (.ok (.first s), w') ∧
      Between types defs D w' ∧
      (∀ p, p = .first s ∨ p ∈ D ∨ Base p ∨ w.IsForward p → p ∈ D ∨ Base p ∨ w'.IsForward p) ∧
      ∀ p, p ≠ .first s → w'.IsForward p → w.IsForward p := by
  have there : ∀ s, w.find s = some (.first s) →
      (.first s ∈ D ∨ Base (.first s) ∨ w.IsForward (.first s)) →
      ∃ w', coerceToClass types (limit + 1) w (.symbol s) = (.ok (.first s), w') ∧
        Between types defs D w' ∧
        (∀ p, p = .first s ∨ p ∈ D ∨ Base p ∨ w.IsForward p → p ∈ D ∨ Base p ∨ w'.IsForward p) ∧
        ∀ p, p ≠ .first s → w'.IsForward p → w.IsForward p := by
    intro s found present
    refine ⟨w, by rw [coerceToClass, found], between, ?_, fun _ _ isForward => isForward⟩
    rintro p (rfl | known)
    · exact present
    · exact known
  rcases named with rfl | rfl | ⟨n, rfl⟩
  · exact there .t between.names.top (.inr (.inl (.inr rfl)))
  · exact there .standardObject between.names.root (.inr (.inl (.inl rfl)))
  · by_cases defined : .first (.other n) ∈ D
    · exact there _ (between.names.named n (.inl defined)) (.inl defined)
    by_cases isForward : w.IsForward (.first (.other n))
    · exact there _ (between.names.named n (.inr isForward)) (.inr (.inr isForward))
    obtain ⟨w', coerced, mentions⟩ := coerceToClass_forward between defined isForward limit
    refine ⟨w', coerced, between.mention defined isForward mentions, ?_, fun p differ forward =>
      (mentions.retains p differ).isForward_iff.mp forward⟩
    rintro p (rfl | inside | base | forward)
    · exact .inr (.inr mentions.isForward)
    · exact .inl inside
    · exact .inr (.inl base)
    · refine .inr (.inr ((mentions.retains p ?_).isForward_iff.mpr forward))
      rintro rfl
      exact isForward forward

theorem coerceAll_between (limit : Nat) : ∀ {names : List ClassName} {w : World Ty},
    Between types defs D w → (∀ s ∈ names, s = .t ∨ s = .standardObject ∨ ∃ n, s = .other n) →
    ∃ w', coerceAll types (limit + 1) (names.map .symbol) w = (.ok (names.map .first), w') ∧
      Between types defs D w' ∧
      (∀ p, p ∈ names.map .first ∨ p ∈ D ∨ Base p ∨ w.IsForward p →
        p ∈ D ∨ Base p ∨ w'.IsForward p) ∧
      ∀ p, p ∉ names.map .first → w'.IsForward p → w.IsForward p := by
  intro names
  induction names with
  | nil =>
    intro w between _
    refine ⟨w, rfl, between, ?_, fun _ _ isForward => isForward⟩
    rintro p (inside | known)
    · cases inside
    · exact known
  | cons s names ih =>
    intro w between named
    obtain ⟨w₁, first, between₁, present₁, forward₁⟩ :=
      coerceToClass_between between (named s mem_cons_self) limit
    obtain ⟨w₂, rest, between₂, present₂, forward₂⟩ := ih between₁
      fun s member => named s (mem_cons_of_mem _ member)
    refine ⟨w₂, ?_, between₂, fun p known => present₂ p ?_, fun p outside isForward => ?_⟩
    · rw [map_cons, coerceAll, first, Outcome.andThen]
      rw [rest]
      rfl
    · rcases known with inside | known
      · rcases mem_cons.mp inside with rfl | inside
        · exact .inr (present₁ _ (.inl rfl))
        · exact .inl inside
      · exact .inr (present₁ p (.inr known))
    · obtain ⟨differ, outside⟩ := not_or.mp (mt mem_cons.mpr outside)
      exact forward₁ p differ (forward₂ p outside isForward)

end

end Ecl.Clos
