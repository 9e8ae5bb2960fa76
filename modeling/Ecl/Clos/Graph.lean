import Ecl.Clos.Define

/- The links between classes and their direct subclasses. -/
namespace Ecl.Clos

open List

variable {Ty : Type}

/-- The part of a class object that finalization does not write. -/
def ClassObject.definition (k : ClassObject Ty) :
    Option ClassName × Metaclass × List ClassId × List ClassId × List (Slot Ty) :=
  (k.name, k.metaclass, k.directSuperclasses, k.directSubclasses, k.directSlots)

def ClassObject.identity (k : ClassObject Ty) : Option ClassName × Metaclass :=
  (k.name, k.metaclass)

/-- The worlds differ in what finalization writes only. -/
structure SameDefinitions (w w' : World Ty) : Prop where
  definition : ∀ c, (w'.classes c).definition = (w.classes c).definition
  made : w'.made = w.made
  find : w'.find = w.find

namespace SameDefinitions

theorem refl (w : World Ty) : SameDefinitions w w := ⟨fun _ => rfl, rfl, rfl⟩

theorem trans {w w' w'' : World Ty} (first : SameDefinitions w w')
    (second : SameDefinitions w' w'') : SameDefinitions w w'' :=
  ⟨fun c => (second.definition c).trans (first.definition c), second.made.trans first.made,
    second.find.trans first.find⟩

theorem modify {w : World Ty} {c : ClassId} {f : ClassObject Ty → ClassObject Ty}
    (same : (f (w.classes c)).definition = (w.classes c).definition) :
    SameDefinitions w (w.modify c f) := by
  refine ⟨fun d => ?_, rfl, rfl⟩
  simp only [World.modify]
  split
  · rename_i here
    rw [here, same]
  · rfl

variable {w w' : World Ty} (same : SameDefinitions w w')

include same

theorem supers (c : ClassId) :
    (w'.classes c).directSuperclasses = (w.classes c).directSuperclasses :=
  congrArg (·.2.2.1) (same.definition c)

theorem subs (c : ClassId) : (w'.classes c).directSubclasses = (w.classes c).directSubclasses :=
  congrArg (·.2.2.2.1) (same.definition c)

theorem identity (c : ClassId) : (w'.classes c).identity = (w.classes c).identity :=
  congrArg (fun d => (d.1, d.2.1)) (same.definition c)

end SameDefinitions

variable {α β : Type} {o : Outcome Ty α} {f : α → World Ty → Outcome Ty β}

theorem andThen_sameDefinitions {w : World Ty} (first : SameDefinitions w o.2)
    (second : ∀ x w', SameDefinitions w' (f x w').2) : SameDefinitions w (o.andThen f).2 := by
  obtain ⟨result, w'⟩ := o
  cases result with
  | error e => exact first
  | ok x => exact first.trans (second x w')

variable {c : ClassId}

theorem finishFinalization_sameDefinitions {w : World Ty} {o : Outcome Ty Unit}
    (first : SameDefinitions w o.2) : SameDefinitions w (finishFinalization c o).2 := by
  refine andThen_sameDefinitions first fun _ w' => ?_
  split
  · exact .refl w'
  · exact .refl w'
  · split
    · exact .refl w'
    · split <;> exact .refl w'
  · split <;> exact .refl w'
  · split <;> exact .refl w'

theorem finalizeUnlessForward_sameDefinitions
    {finalize : ClassId → World Ty → Outcome Ty Unit}
    (keeps : ∀ c w, SameDefinitions w (finalize c w).2) (c : ClassId) (w : World Ty) :
    SameDefinitions w (finalizeUnlessForward finalize c w).2 := by
  unfold finalizeUnlessForward
  split
  · exact .refl w
  · exact keeps c w

theorem finalizeSubclasses_sameDefinitions
    {finalize : ClassId → World Ty → Outcome Ty Unit}
    (keeps : ∀ c w, SameDefinitions w (finalize c w).2) (subs : List ClassId) :
    ∀ w, SameDefinitions w (finalizeSubclasses finalize subs w).2 := by
  induction subs with
  | nil => exact fun w => .refl w
  | cons c subs ih =>
    intro w
    exact andThen_sameDefinitions (finalizeUnlessForward_sameDefinitions keeps c w) fun _ w' =>
      ih w'

theorem setFinal_sameDefinitions (w : World Ty) (c : ClassId) (cpl : List ClassId)
    (slots : List (Slot Ty)) : SameDefinitions w (w.setFinal c cpl slots) :=
  .modify rfl

theorem finalizeInheritance_sameDefinitions (types : Types Ty) (n : Nat) :
    ∀ c w, SameDefinitions w (finalizeInheritance types n c w).2 := by
  induction n with
  | zero => exact fun c w => .refl w
  | succ n ih =>
    intro c w
    rw [finalizeInheritance]
    refine finishFinalization_sameDefinitions ?_
    split
    · exact .refl w
    · rename_i cpl _
      split
      · exact .refl w
      · split
        · exact ih _ w
        · split
          · dsimp only
            exact .modify rfl
          · exact (setFinal_sameDefinitions w c _ _).trans
              (finalizeSubclasses_sameDefinitions ih _ _)

namespace World

def directSubclasses (w : World Ty) (c : ClassId) : List ClassId :=
  (w.classes c).directSubclasses

def Exists (w : World Ty) (c : ClassId) : Prop := c.index < w.made c.name

/-- Links are between class objects that exist. -/
structure Closed (w : World Ty) : Prop where
  unused : ∀ c, ¬ w.Exists c → w.directSubclasses c = []
  child : ∀ p, ∀ c ∈ w.directSubclasses p, w.Exists c
  found : ∀ name c, w.find name = some c → w.Exists c

end World

/-- The links of a class are as before. -/
def Kept (c : ClassId) (w w' : World Ty) : Prop :=
  w'.directSuperclasses c = w.directSuperclasses c ∧
    ∀ p, c ∈ w'.directSubclasses p ↔ c ∈ w.directSubclasses p

/-- A class is linked to its superclasses, and to those it was linked to before. -/
def Relinked (c : ClassId) (w w' : World Ty) : Prop :=
  ∀ p, c ∈ w'.directSubclasses p ↔ c ∈ w.directSubclasses p ∨ p ∈ w'.directSuperclasses c

/-- No class has a direct subclass twice. -/
def NoDuplicates (w : World Ty) : Prop := ∀ p, (w.directSubclasses p).Nodup

/-- What no operation on classes spoils. -/
structure Grows (w w' : World Ty) : Prop where
  nodup : NoDuplicates w → NoDuplicates w'
  closed : w'.Closed
  still : ∀ d, w.Exists d → w'.Exists d

variable {w' w'' : World Ty}

theorem Grows.trans {w : World Ty} (first : Grows w w') (second : Grows w' w'') : Grows w w'' :=
  ⟨second.nodup ∘ first.nodup, second.closed, fun d exist => second.still d (first.still d exist)⟩

/-- What an operation that stores a list of superclasses in the one class does to the
links. -/
structure Relinks (c : ClassId) (stored : List ClassId) (w w' : World Ty) : Prop
    extends Grows w w' where
  others : ∀ d, d ≠ c → Kept d w w'
  own : Kept c w w' ∨ Relinked c w w' ∧ w'.directSuperclasses c = stored

theorem Kept.refl (c : ClassId) (w : World Ty) : Kept c w w := ⟨rfl, fun _ => Iff.rfl⟩

theorem Kept.trans {w : World Ty} (first : Kept c w w') (second : Kept c w' w'') : Kept c w w'' :=
  ⟨second.1.trans first.1, fun p => (second.2 p).trans (first.2 p)⟩

theorem Kept.relinked {w : World Ty} (first : Kept c w w')
    (second : Relinked c w' w'') : Relinked c w w'' := by
  intro p
  rw [second p, first.2 p]

theorem Relinked.kept {w : World Ty} (first : Relinked c w w')
    (second : Kept c w' w'') : Relinked c w w'' := by
  intro p
  rw [second.2 p, first p, second.1]

theorem SameDefinitions.kept {w : World Ty} (same : SameDefinitions w w') (c : ClassId) :
    Kept c w w' := by
  refine ⟨same.supers c, fun p => ?_⟩
  rw [World.directSubclasses, same.subs]
  rfl

theorem SameDefinitions.exists_iff {w : World Ty} (same : SameDefinitions w w') (c : ClassId) :
    w'.Exists c ↔ w.Exists c := by
  rw [World.Exists, World.Exists, same.made]

theorem SameDefinitions.closed {w : World Ty} (same : SameDefinitions w w')
    (closed : w.Closed) : w'.Closed := by
  refine ⟨fun c unused => ?_, fun p c member => ?_, fun name c found => ?_⟩
  · rw [World.directSubclasses, same.subs]
    exact closed.unused c fun exist => unused ((same.exists_iff c).mpr exist)
  · rw [World.directSubclasses, same.subs] at member
    exact (same.exists_iff c).mpr (closed.child p c member)
  · rw [same.find] at found
    exact (same.exists_iff c).mpr (closed.found name c found)

theorem SameDefinitions.grows {w : World Ty} (same : SameDefinitions w w')
    (closed : w.Closed) : Grows w w' := by
  refine ⟨fun nodup p => ?_, same.closed closed, fun d => (same.exists_iff d).mpr⟩
  rw [World.directSubclasses, same.subs]
  exact nodup p

theorem Relinks.finalized {stored : List ClassId} {w : World Ty}
    (relinks : Relinks c stored w w') (same : SameDefinitions w' w'') :
    Relinks c stored w w'' where
  toGrows := relinks.toGrows.trans (same.grows relinks.closed)
  others d differ := (relinks.others d differ).trans (same.kept d)
  own := relinks.own.imp (·.trans (same.kept c)) fun ⟨relinked, supers⟩ =>
    ⟨relinked.kept (same.kept c), (same.kept c).1.trans supers⟩

variable {d : ClassId}

theorem mem_addAll {p : ClassId} {supers : List ClassId} : ∀ {w : World Ty},
    d ∈ (supers.foldl (World.addDirectSubclass c) w).directSubclasses p ↔
      d ∈ w.directSubclasses p ∨ d = c ∧ p ∈ supers := by
  induction supers with
  | nil => simp
  | cons parent supers ih =>
    intro w
    have step : d ∈ (w.addDirectSubclass c parent).directSubclasses p ↔
        d ∈ w.directSubclasses p ∨ d = c ∧ p = parent := by
      simp only [World.directSubclasses, World.addDirectSubclass, World.modify]
      by_cases here : p = parent
      · subst here
        simp only [if_true, and_true]
        split
        · rename_i present
          refine (or_iff_left_of_imp ?_).symm
          rintro rfl
          exact present
        · rw [mem_cons, or_comm]
      · simp [here]
    rw [foldl_cons, ih, step, mem_cons]
    tauto

theorem addAll_supers {supers : List ClassId} : ∀ {w : World Ty},
    (supers.foldl (World.addDirectSubclass c) w).directSuperclasses d =
      w.directSuperclasses d := by
  induction supers with
  | nil => exact rfl
  | cons parent supers ih =>
    intro w
    rw [foldl_cons, ih]
    simp only [World.directSuperclasses, World.addDirectSubclass, World.modify]
    split
    · rename_i here
      rw [here]
    · rfl

theorem addAll_nodup {supers : List ClassId} : ∀ {w : World Ty},
    NoDuplicates w → NoDuplicates (supers.foldl (World.addDirectSubclass c) w) := by
  induction supers with
  | nil => exact id
  | cons parent supers ih =>
    intro w nodup
    refine ih fun p => ?_
    simp only [World.directSubclasses, World.addDirectSubclass, World.modify]
    split
    · split
      · exact nodup parent
      · rename_i absent
        exact nodup_cons.mpr ⟨absent, nodup parent⟩
    · exact nodup p

theorem addAll_made {supers : List ClassId} : ∀ {w : World Ty},
    (supers.foldl (World.addDirectSubclass c) w).made = w.made ∧
      (supers.foldl (World.addDirectSubclass c) w).find = w.find := by
  induction supers with
  | nil => exact ⟨rfl, rfl⟩
  | cons parent supers ih => exact ih

theorem World.not_exists_fresh (w : World Ty) (name : Option ClassName) :
    ¬ w.Exists (w.fresh name) :=
  Nat.lt_irrefl _

theorem World.exists_allocate {w : World Ty} {name : Option ClassName} :
    (w.allocate name).Exists c ↔ w.Exists c ∨ c = w.fresh name := by
  obtain ⟨other, index⟩ := c
  simp only [World.Exists, World.allocate, World.fresh, ClassId.mk.injEq]
  split
  · rename_i same
    subst same
    simp only [true_and]
    omega
  · rename_i differ
    simp [differ]

theorem relinks_of_links {w : World Ty} {supers : List ClassId}
    (closed : w.Closed) (parents : ∀ p ∈ supers, w.Exists p)
    (mem : ∀ d p, d ∈ w'.directSubclasses p ↔ d ∈ w.directSubclasses p ∨ d = c ∧ p ∈ supers)
    (superclasses : ∀ d, d ≠ c → w'.directSuperclasses d = w.directSuperclasses d)
    (own : w'.directSuperclasses c = supers) (nodup : NoDuplicates w → NoDuplicates w')
    (still : ∀ d, w'.Exists d ↔ w.Exists d ∨ d = c) (find : w'.find = w.find) :
    Relinks c supers w w' where
  others d differ := ⟨superclasses d differ, fun p => by simp [mem, differ]⟩
  own := .inr ⟨fun p => by simp [mem, own], own⟩
  nodup := nodup
  closed := by
    refine ⟨fun p unused => ?_, fun p d member => ?_, fun name d found => ?_⟩
    · refine eq_nil_iff_forall_not_mem.mpr fun d member => unused ((still p).mpr ?_)
      rcases (mem d p).mp member with member | ⟨-, parent⟩
      · by_contra absent
        rw [closed.unused p fun exist => absent (.inl exist)] at member
        cases member
      · exact .inl (parents p parent)
    · refine (still d).mpr ?_
      rcases (mem d p).mp member with member | ⟨rfl, -⟩
      · exact .inl (closed.child p d member)
      · exact .inr rfl
    · rw [find] at found
      exact (still d).mpr (.inl (closed.found name d found))
  still d exist := (still d).mpr (.inl exist)

theorem relinks_allocate {w : World Ty} (closed : w.Closed) (name : Option ClassName)
    (stored : List ClassId) : Relinks (w.fresh name) stored w (w.allocate name) where
  others _ _ := ⟨rfl, fun _ => Iff.rfl⟩
  own := .inl ⟨rfl, fun _ => Iff.rfl⟩
  nodup := id
  closed :=
    ⟨fun c unused => closed.unused c fun exist => unused (World.exists_allocate.mpr (.inl exist)),
    fun p c member => World.exists_allocate.mpr (.inl (closed.child p c member)),
    fun other c found => World.exists_allocate.mpr (.inl (closed.found other c found))⟩
  still _ exist := World.exists_allocate.mpr (.inl exist)

variable {metaclass : Metaclass} {supplied : List ClassId}

theorem checkDirectSuperclasses_exists {w : World Ty} (closed : w.Closed)
    {supers : List ClassId} (valid : ∀ p ∈ supplied, w.Exists p)
    (checked : w.checkDirectSuperclasses metaclass supplied = .ok supers) :
    ∀ p ∈ supers, w.Exists p := by
  have default : ∀ name, (w.findClass name).map ([·]) = .ok supers → ∀ p ∈ supers, w.Exists p := by
    intro name found
    unfold World.findClass at found
    split at found
    · rename_i c isFound
      cases found
      intro p member
      cases mem_singleton.mp member
      exact closed.found name c isFound
    · cases found
  cases supplied with
  | nil =>
    cases metaclass with
    | standardClass => exact default .standardObject checked
    | structureClass => exact default .structureObject checked
    | funcallableStandardClass => exact default .funcallableStandardObject checked
    | builtInClass => cases checked
    | forwardReferencedClass => cases checked
  | cons c supplied =>
    cases checked
    exact valid

/-- The superclasses that a definition stores. -/
def World.stored (w : World Ty) (metaclass : Metaclass) (supplied : List ClassId) :
    List ClassId :=
  match w.checkDirectSuperclasses metaclass supplied with
  | .ok supers => supers
  | .error _ => []

theorem World.stored_of_ok {w : World Ty} {supers : List ClassId}
    (checked : w.checkDirectSuperclasses metaclass supplied = .ok supers) :
    w.stored metaclass supplied = supers := by
  rw [World.stored, checked]

theorem makeClass_relinks (types : Types Ty) (limit : Nat) (metaclass : Metaclass)
    (name : Option ClassName) (directSlots : List (Slot Ty))
    {w : World Ty} (closed : w.Closed) (valid : ∀ p ∈ supplied, w.Exists p) :
    Relinks (w.fresh name) (w.stored metaclass supplied) w
      (makeClass types limit metaclass name supplied directSlots w).2 := by
  unfold makeClass
  split
  · exact relinks_allocate closed name _
  · rename_i supers checked
    rw [World.stored_of_ok checked]
    have parents := checkDirectSuperclasses_exists closed valid checked
    have absent := w.not_exists_fresh name
    refine Relinks.finalized (relinks_of_links closed parents ?_ ?_ ?_ ?_ ?_ ?_)
      (andThen_sameDefinitions (finalizeUnlessForward_sameDefinitions
        (finalizeInheritance_sameDefinitions types limit) _ _) fun _ w' => .refl w')
    · intro d p
      rw [mem_addAll]
      refine or_congr_left ?_
      simp only [World.directSubclasses, World.modify]
      split
      · rename_i here
        subst here
        have none' := closed.unused _ absent
        simp only [World.directSubclasses] at none'
        rw [none']
      · rfl
    · intro d differ
      rw [addAll_supers]
      simp [World.directSuperclasses, World.modify, differ, World.allocate]
    · rw [addAll_supers]
      simp [World.directSuperclasses, World.modify]
    · intro nodup
      refine addAll_nodup fun p => ?_
      simp only [World.directSubclasses, World.modify]
      split
      · exact nodup_nil
      · exact nodup p
    · intro d
      rw [World.Exists, addAll_made.1]
      exact World.exists_allocate
    · rw [addAll_made.2]
      rfl

/-- Nothing is unlinked: the slot was overwritten before the old superclasses are
looked up. -/
theorem dropped_eq_nil {w : World Ty} {supers : List ClassId}
    (checked : w.checkDirectSuperclasses metaclass supplied = .ok supers) :
    supplied.filter (· ∉ supers) = [] := by
  cases supplied with
  | nil => rfl
  | cons c supplied =>
    cases checked
    rw [filter_eq_nil_iff]
    intro d member
    simp [member]

theorem relinks_kept {stored : List ClassId} {w : World Ty} (closed : w.Closed)
    (supers : ∀ d, d ≠ c → w'.directSuperclasses d = w.directSuperclasses d)
    (own : w'.directSuperclasses c = w.directSuperclasses c ∨
      w'.directSuperclasses c = [] ∧ stored = [])
    (subs : w'.directSubclasses = w.directSubclasses) (made : w'.made = w.made)
    (find : w'.find = w.find) : Relinks c stored w w' where
  others d differ := ⟨supers d differ, fun p => by rw [subs]⟩
  own := own.imp (⟨·, fun p => by rw [subs]⟩) fun ⟨empty, none'⟩ =>
    ⟨fun p => by simp [subs, empty], empty.trans none'.symm⟩
  nodup nodup p := by
    rw [subs]
    exact nodup p
  closed := by
    have same : ∀ d, w'.Exists d ↔ w.Exists d := fun d => by
      rw [World.Exists, World.Exists, made]
    refine ⟨fun d unused => ?_, fun p d member => ?_, fun name d found => ?_⟩
    · rw [subs]
      exact closed.unused d fun exist => unused ((same d).mpr exist)
    · rw [subs] at member
      exact (same d).mpr (closed.child p d member)
    · rw [find] at found
      exact (same d).mpr (closed.found name d found)
  still d exist := by
    rw [World.Exists, made]
    exact exist

theorem modify_directSubclasses {w : World Ty} {f : ClassObject Ty → ClassObject Ty}
    (same : (f (w.classes c)).directSubclasses = (w.classes c).directSubclasses) :
    (w.modify c f).directSubclasses = w.directSubclasses := by
  funext p
  simp only [World.directSubclasses, World.modify]
  split
  · rename_i here
    rw [here, same]
  · rfl

theorem modify_directSuperclasses {w : World Ty} {f : ClassObject Ty → ClassObject Ty}
    (differ : d ≠ c) :
    (w.modify c f).directSuperclasses d = w.directSuperclasses d := by
  simp [World.directSuperclasses, World.modify, differ]

theorem modify_directSuperclasses_self {w : World Ty} {f : ClassObject Ty → ClassObject Ty} :
    (w.modify c f).directSuperclasses c = (f (w.classes c)).directSuperclasses := by
  simp [World.directSuperclasses, World.modify]

theorem modify_finalized_sameDefinitions (w : World Ty) (c : ClassId) :
    SameDefinitions w (w.modify c fun k => { k with finalized := false }) :=
  .modify rfl

theorem Relinks.andThen {stored : List ClassId} {w : World Ty} (relinks : Relinks c stored w o.2)
    (same : ∀ x w', SameDefinitions w' (f x w').2) : Relinks c stored w (o.andThen f).2 := by
  obtain ⟨result, w'⟩ := o
  cases result with
  | error e => exact relinks
  | ok x => exact relinks.finalized (same x w')

theorem refinalize_sameDefinitions (types : Types Ty) (limit : Nat) (c : ClassId) (w : World Ty) :
    SameDefinitions w (refinalize types limit c w).2 :=
  andThen_sameDefinitions ((modify_finalized_sameDefinitions w c).trans
    (finalizeUnlessForward_sameDefinitions (finalizeInheritance_sameDefinitions types limit) _ _))
    fun _ w' => .refl w'

theorem relinkSuperclasses_relinks {supplied : Option (List ClassId)}
    (directSlots : Option (List (Slot Ty))) {w : World Ty} (closed : w.Closed)
    (present : w.Exists c)
    (valid : ∀ p ∈ supplied.getD [], w.Exists p) :
    Relinks c (w.stored (w.classes c).metaclass (supplied.getD [])) w
      (relinkSuperclasses c supplied (w.storeInitargs c supplied directSlots)).2 := by
  have subs : (w.storeInitargs c supplied directSlots).directSubclasses = w.directSubclasses :=
    modify_directSubclasses rfl
  have others : ∀ d, d ≠ c → (w.storeInitargs c supplied directSlots).directSuperclasses d =
      w.directSuperclasses d := fun d differ => modify_directSuperclasses differ
  have own : (w.storeInitargs c supplied directSlots).directSuperclasses c =
      supplied.getD (w.directSuperclasses c) := modify_directSuperclasses_self
  cases supplied with
  | none => exact relinks_kept closed others (.inl own) subs rfl rfl
  | some supplied =>
    have asked : (w.storeInitargs c (some supplied) directSlots).checkDirectSuperclasses
        ((w.storeInitargs c (some supplied) directSlots).classes c).metaclass supplied =
          w.checkDirectSuperclasses (w.classes c).metaclass supplied := by
      simp [World.storeInitargs, World.modify, World.checkDirectSuperclasses, World.findClass]
    simp only [relinkSuperclasses, asked, Option.getD_some]
    split
    · rename_i e failed
      -- only an empty list is refused
      refine relinks_kept closed others (.inr ?_) subs rfl rfl
      cases supplied with
      | nil => exact ⟨own, by rw [World.stored, failed]⟩
      | cons d supplied => cases failed
    · rename_i supers checked
      rw [World.stored_of_ok checked]
      have dropped : ((w.storeInitargs c (some supplied) directSlots).directSuperclasses c).filter
          (· ∉ supers) = [] := by
        rw [own]
        exact dropped_eq_nil checked
      have parents : ∀ p ∈ supers, w.Exists p :=
        checkDirectSuperclasses_exists closed valid checked
      simp only [dropped, foldl_nil]
      refine relinks_of_links closed parents ?_ ?_ ?_ ?_ ?_ ?_
      · intro d p
        rw [mem_addAll, modify_directSubclasses rfl, subs]
      · intro d differ
        rw [addAll_supers, modify_directSuperclasses differ, others d differ]
      · rw [addAll_supers, modify_directSuperclasses_self]
      · intro nodup
        refine addAll_nodup fun p => ?_
        rw [modify_directSubclasses rfl, subs]
        exact nodup p
      · intro d
        rw [World.Exists, addAll_made.1]
        refine ⟨.inl, ?_⟩
        rintro (exist | rfl)
        · exact exist
        · exact present
      · rw [addAll_made.2]
        rfl

theorem reinitializeInstance_relinks (types : Types Ty) (limit : Nat)
    {supplied : Option (List ClassId)} (directSlots : Option (List (Slot Ty))) {w : World Ty}
    (closed : w.Closed) (present : w.Exists c) (valid : ∀ p ∈ supplied.getD [], w.Exists p) :
    Relinks c (w.stored (w.classes c).metaclass (supplied.getD [])) w
      (reinitializeInstance types limit c supplied directSlots w).2 := by
  unfold reinitializeInstance
  split
  · exact relinks_kept closed (fun _ _ => rfl) (.inl rfl) rfl rfl rfl
  · exact (relinkSuperclasses_relinks directSlots closed present valid).andThen fun _ w' =>
      refinalize_sameDefinitions types limit c w'

/-- Only forward references are made. -/
structure MakesOnly (w w' : World Ty) : Prop extends Grows w w' where
  each : ∀ d, Kept d w w' ∨ Relinked d w w' ∧ ¬ w.Exists d ∧
    (w'.directSuperclasses d).length = 1
  old : ∀ d, w.Exists d ∨ ¬ w'.Exists d → Kept d w w'
  identity : ∀ d, w.Exists d → (w'.classes d).identity = (w.classes d).identity

theorem MakesOnly.refl {w : World Ty} (closed : w.Closed) : MakesOnly w w where
  nodup := id
  closed := closed
  still _ := id
  each c := .inl (.refl c w)
  old c _ := .refl c w
  identity _ _ := rfl

theorem Relinks.makesOnly {parent : ClassId} {w : World Ty}
    (relinks : Relinks c [parent] w w') (absent : ¬ w.Exists c) (present : w'.Exists c)
    (identity : ∀ d, d ≠ c → (w'.classes d).identity = (w.classes d).identity) :
    MakesOnly w w' := by
  refine ⟨relinks.toGrows, fun d => ?_, fun d known => relinks.others d ?_, fun d exist =>
    identity d fun same => absent (same ▸ exist)⟩
  · by_cases here : d = c
    · subst here
      refine relinks.own.imp_right fun ⟨relinked, supers⟩ => ⟨relinked, absent, ?_⟩
      rw [supers, length_singleton]
    · exact .inl (relinks.others d here)
  · rintro rfl
    exact known.elim absent fun missing => missing present

theorem MakesOnly.trans {w : World Ty} (first : MakesOnly w w') (second : MakesOnly w' w'') :
    MakesOnly w w'' := by
  refine ⟨first.toGrows.trans second.toGrows, fun d => ?_, fun d known => ?_, fun d exist =>
    (second.identity d (first.still d exist)).trans (first.identity d exist)⟩
  · by_cases exist : w'.Exists d
    · have kept := second.old d (.inl exist)
      refine (first.each d).imp (·.trans kept) fun ⟨relinked, absent, single⟩ =>
        ⟨relinked.kept kept, absent, ?_⟩
      rw [kept.1]
      exact single
    · have kept := first.old d (.inr exist)
      exact (second.each d).imp kept.trans fun ⟨relinked, _, single⟩ =>
        ⟨kept.relinked relinked, fun old => exist (first.still d old), single⟩
  · rcases known with exist | missing
    · exact (first.old d (.inl exist)).trans (second.old d (.inl (first.still d exist)))
    · exact (first.old d (.inr fun exist => missing (second.still d exist))).trans
        (second.old d (.inr missing))

theorem setFindClass_classes (name : ClassName) (c : ClassId) (w : World Ty) :
    (setFindClass name c w).2.classes = w.classes ∧ (setFindClass name c w).2.made = w.made := by
  unfold setFindClass
  split <;> exact ⟨rfl, rfl⟩

theorem setFindClass_closed {name : ClassName} {w : World Ty} (closed : w.Closed)
    (present : w.Exists c) : (setFindClass name c w).2.Closed := by
  unfold setFindClass
  split
  · exact closed
  · refine ⟨closed.unused, closed.child, fun other d found => ?_⟩
    simp only at found
    split at found
    · cases found
      exact present
    · exact closed.found other d found

theorem setFindClass_kept (name : ClassName) (c : ClassId) (w : World Ty) (d : ClassId) :
    Kept d w (setFindClass name c w).2 := by
  obtain ⟨classes, -⟩ := setFindClass_classes name c w
  refine ⟨?_, fun p => ?_⟩
  · rw [World.directSuperclasses, classes]
    rfl
  · rw [World.directSubclasses, classes]
    rfl

theorem setFindClass_makesOnly {name : ClassName} {w : World Ty} (closed : w.Closed)
    (present : w.Exists c) : MakesOnly w (setFindClass name c w).2 := by
  obtain ⟨classes, made⟩ := setFindClass_classes name c w
  have kept := setFindClass_kept name c w
  refine ⟨⟨fun nodup p => ?_, setFindClass_closed closed present, fun d exist => ?_⟩,
    fun d => .inl (kept d), fun d _ => kept d, fun d _ => by rw [classes]⟩
  · rw [World.directSubclasses, classes]
    exact nodup p
  · rw [World.Exists, made]
    exact exist

theorem addAll_identity {supers : List ClassId} : ∀ {w : World Ty} (d : ClassId),
    ((supers.foldl (World.addDirectSubclass c) w).classes d).identity =
      (w.classes d).identity := by
  induction supers with
  | nil => exact fun _ => rfl
  | cons parent supers ih =>
    intro w d
    rw [foldl_cons, ih]
    simp only [World.addDirectSubclass, World.modify]
    split
    · rename_i here
      rw [here]
      rfl
    · rfl

theorem makeClass_identity (types : Types Ty) (limit : Nat) (metaclass : Metaclass)
    (name : Option ClassName) (supplied : List ClassId) (directSlots : List (Slot Ty))
    (w : World Ty) (d : ClassId) (differ : d ≠ w.fresh name) :
    ((makeClass types limit metaclass name supplied directSlots w).2.classes d).identity =
      (w.classes d).identity := by
  unfold makeClass
  split
  · rfl
  · refine ((andThen_sameDefinitions (finalizeUnlessForward_sameDefinitions
      (finalizeInheritance_sameDefinitions types limit) _ _) fun _ w' => .refl w').identity
        d).trans ?_
    rw [addAll_identity]
    simp [World.modify, differ, World.allocate]

theorem makeClass_present (types : Types Ty) (limit : Nat) (metaclass : Metaclass)
    (name : Option ClassName) (supplied : List ClassId) (directSlots : List (Slot Ty))
    (w : World Ty) :
    (makeClass types limit metaclass name supplied directSlots w).2.Exists (w.fresh name) ∧
      ∀ c, (makeClass types limit metaclass name supplied directSlots w).1 = .ok c →
        c = w.fresh name := by
  unfold makeClass
  split
  · exact ⟨World.exists_allocate.mpr (.inr rfl), fun c failed => by cases failed⟩
  · rename_i supers _
    refine ⟨?_, ?_⟩
    · refine ((andThen_sameDefinitions (finalizeUnlessForward_sameDefinitions
        (finalizeInheritance_sameDefinitions types limit) _ _) fun _ w' => .refl w').exists_iff
          _).mpr ?_
      rw [World.Exists, addAll_made.1]
      exact World.exists_allocate.mpr (.inr rfl)
    · intro c returned
      simp only [Outcome.andThen] at returned
      split at returned
      · cases returned
        rfl
      · cases returned

theorem Outcome.andThen_ok {y : β}
    (returned : (o.andThen f).1 = .ok y) : ∃ x, o.1 = .ok x ∧ (f x o.2).1 = .ok y ∧
      o.andThen f = f x o.2 := by
  obtain ⟨result, w⟩ := o
  cases result with
  | error e => cases returned
  | ok x => exact ⟨x, rfl, returned, rfl⟩

theorem MakesOnly.andThen {w : World Ty} (first : MakesOnly w o.2)
    (second : ∀ x, o.1 = .ok x → MakesOnly o.2 (f x o.2).2) : MakesOnly w (o.andThen f).2 := by
  obtain ⟨result, w'⟩ := o
  cases result with
  | error e => exact first
  | ok x => exact first.trans (second x rfl)

theorem coerceToClass_makesOnly (types : Types Ty) (limit : Nat) {w : World Ty} (closed : w.Closed)
    {spec : ClassSpec} (valid : ∀ c, spec = .object c → w.Exists c) :
    MakesOnly w (coerceToClass types limit w spec).2 ∧
      ∀ c, (coerceToClass types limit w spec).1 = .ok c →
        (coerceToClass types limit w spec).2.Exists c := by
  cases spec with
  | object c =>
    refine ⟨.refl closed, fun d returned => ?_⟩
    cases returned
    exact valid c rfl
  | symbol name =>
    simp only [coerceToClass]
    split
    · rename_i c found
      refine ⟨.refl closed, fun d returned => ?_⟩
      cases returned
      exact closed.found name c found
    · split
      · exact ⟨.refl closed, fun d returned => by cases returned⟩
      · rename_i root isRoot
        have rootExists : w.Exists root := by
          unfold World.findClass at isRoot
          split at isRoot
          · rename_i c found
            cases isRoot
            exact closed.found _ root found
          · cases isRoot
        obtain ⟨present, only⟩ := makeClass_present types limit .forwardReferencedClass (some name)
          [root] [] w
        have made : MakesOnly w (makeClass types limit .forwardReferencedClass (some name) [root]
            [] w).2 :=
          (makeClass_relinks types limit .forwardReferencedClass (some name) [] closed
            fun p member => mem_singleton.mp member ▸ rootExists).makesOnly
              (w.not_exists_fresh _) present
              (makeClass_identity types limit .forwardReferencedClass (some name) [root] [] w)
        have named : ∀ c, (makeClass types limit .forwardReferencedClass (some name) [root] []
            w).1 = .ok c →
            MakesOnly (makeClass types limit .forwardReferencedClass (some name) [root] [] w).2
              ((setFindClass name c (makeClass types limit .forwardReferencedClass (some name)
                [root] [] w).2).andThen fun _ w => (.ok c, w) : Outcome Ty ClassId).2 := by
          intro c returned
          cases only c returned
          exact (setFindClass_makesOnly made.closed present).andThen fun _ _ =>
            .refl (setFindClass_closed made.closed present)
        refine ⟨made.andThen named, fun c returned => ?_⟩
        obtain ⟨d, first, second, whole⟩ := Outcome.andThen_ok returned
        rw [whole]
        obtain ⟨_, _, last, -⟩ := Outcome.andThen_ok second
        cases last
        cases only _ first
        exact (named _ first).still _ present

end Ecl.Clos
