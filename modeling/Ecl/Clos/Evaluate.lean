import Ecl.Clos.Mention

/- The evaluation of one definition, after some of the others. -/
namespace Ecl.Clos

open List Option

variable {Ty : Type}

section

variable {types : Types Ty} {defs : List (Definition Ty)} {D : List ClassId} {w w' : World Ty}
  {d : Definition Ty}

variable (w w' d) in
/-- A class is stored as its definition says, before it is finalized. -/
structure Adds : Prop where
  defines : w'.Defines d
  unfinalized : (w'.classes d.id).finalized = false
  stale : w'.precedenceList d.id = none ∨ w'.precedenceList d.id = some [d.id, rootClass, topClass]
  retains : ∀ e, e ≠ d.id → Retains w w' e
  subs : ∀ p, ¬ Base p → ∀ c,
    c ∈ w'.directSubclasses p ↔ c ∈ w.directSubclasses p ∨ c = d.id ∧ p ∈ d.supers
  find : w'.find = w.find
  made : ∀ name, name ≠ some (.other d.name) → w'.made name = w.made name

theorem Consistent.eq_of_id (consistent : Consistent defs types) {d e : Definition Ty}
    (known : d ∈ defs) (known' : e ∈ defs) (same : e.id = d.id) : e = d := by
  have found := find_of_mem consistent.nodup known'
  rw [same, find_of_mem consistent.nodup known] at found
  exact (some.inj found).symm

namespace Adds

variable (adds : Adds w w' d)

include adds

theorem isForward_iff {p : ClassId} (differ : p ≠ d.id) : w'.IsForward p ↔ w.IsForward p :=
  (adds.retains p differ).isForward_iff

theorem not_isForward (consistent : Consistent defs types) (known : d ∈ defs) :
    ¬ w'.IsForward d.id := by
  intro isForward
  have std := (consistent.metaclass d known).1
  rw [← adds.defines.metaclass, isForward.metaclass] at std
  cases std

theorem stage (stage : Stage defs D w) (consistent : Consistent defs types) (known : d ∈ defs)
    (absent : d.id ∉ D) (present : ∀ p ∈ d.supers, p ∈ D ∨ Base p ∨ w.IsForward p) :
    Stage defs (d.id :: D) w' := by
  have supers := consistent.hierarchy_of_mem known
  refine ⟨fun c member => ?_, ?_, ?_, fun e inside member => ?_, fun c member p direct => ?_,
    fun n c => ?_⟩
  · rcases mem_cons.mp member with rfl | member
    · exact ⟨d, known, rfl⟩
    · exact stage.inside c member
  · have root := adds.retains rootClass fun same => d.id_not_base (.inl same.symm)
    rw [root.metaclass, root.supers, root.directSlots]
    exact stage.root
  · have top := adds.retains topClass fun same => d.id_not_base (.inr same.symm)
    rw [top.metaclass, top.supers, top.directSlots]
    exact stage.top
  · rcases mem_cons.mp member with same | member
    · cases consistent.eq_of_id known inside same
      exact adds.defines
    · have differ : e.id ≠ d.id := fun same => absent (same ▸ member)
      exact (adds.retains e.id differ).defines rfl (stage.defined e inside member)
  · by_cases here : p = d.id
    · exact .inl (here ▸ mem_cons_self)
    have there : p ∈ D ∨ Base p ∨ w.IsForward p := by
      rcases mem_cons.mp member with rfl | member
      · rw [supers] at direct
        exact present p direct
      · exact stage.mentioned c member p direct
    rcases there with defined | base | isForward
    · exact .inl (mem_cons_of_mem _ defined)
    · exact .inr (.inl base)
    · exact .inr (.inr ((adds.isForward_iff here).mpr isForward))
  · rw [adds.subs _ (not_base_other n) c, stage.subs n c, mem_cons]
    constructor
    · rintro (⟨member, direct⟩ | ⟨rfl, direct⟩)
      · exact ⟨.inr member, direct⟩
      · rw [supers]
        exact ⟨.inl rfl, direct⟩
    · rintro ⟨rfl | member, direct⟩
      · rw [supers] at direct
        exact .inr ⟨rfl, direct⟩
      · exact .inl ⟨member, direct⟩

theorem progress (progress : Progress types defs D w) (consistent : Consistent defs types)
    (known : d ∈ defs) (absent : d.id ∉ D) : Progress types defs (d.id :: D) w' := by
  refine progress.retain (subset_cons_self _ _) (fun e present => adds.retains e ?_)
    (fun p isForward => ?_) fun c member outside => ?_
  · rintro rfl
    rcases present with member | base
    · exact absent member
    · exact d.id_not_base base
  · have differ : p ≠ d.id := by
      rintro rfl
      exact adds.not_isForward consistent known isForward
    have retain := adds.retains p differ
    rw [retain.finalized, retain.list]
    exact progress.forward p (retain.isForward_iff.mp isForward)
  · cases (mem_cons.mp member).resolve_right outside
    exact ⟨adds.unfinalized, adds.stale⟩

theorem remaining (complete : ∀ c ∈ D, Full defs D c → (w.classes c).finalized = true) :
    Remaining defs (d.id :: D) d.id w' := by
  intro c member full unfinalized
  by_contra notBelow
  have differ : ∀ a, Inherits defs c a → a ≠ d.id := by
    rintro a path rfl
    exact notBelow path
  have before : Full defs D c := fun a path =>
    (full a path).imp_left fun inside => (mem_cons.mp inside).resolve_left (differ a path)
  have inside : c ∈ D := (mem_cons.mp member).resolve_left (differ c .refl)
  rw [(adds.retains c (differ c .refl)).finalized, complete c inside before] at unfinalized
  cases unfinalized

end Adds

theorem checkDirectSuperclasses_supers (consistent : Consistent defs types) (known : d ∈ defs)
    (root : w.find .standardObject = some rootClass) :
    w.checkDirectSuperclasses d.metaclass (d.superclasses.map .first) = .ok d.supers := by
  by_cases empty : d.superclasses = []
  · rw [Definition.supers, if_pos empty, empty, (consistent.metaclass d known).2 empty]
    simp [World.checkDirectSuperclasses, World.findClass, root, Except.map]
  · rw [Definition.supers, if_neg empty]
    exact checkDirectSuperclasses_some w _ (by simpa using empty)

theorem Consistent.not_own_super (consistent : Consistent defs types) (known : d ∈ defs) :
    d.id ∉ d.supers := by
  intro direct
  rw [← consistent.hierarchy_of_mem known] at direct
  exact consistent.acyclic known direct .refl

def Definition.classObject (d : Definition Ty) : ClassObject Ty where
  name := some (.other d.name)
  metaclass := d.metaclass
  directSuperclasses := d.supers
  directSubclasses := []
  precedenceList := none
  directSlots := d.slots
  slots := none
  finalized := false

theorem makeClass_adds (stage : Stage defs D w) (names : Names D w)
    (consistent : Consistent defs types) (known : d ∈ defs) (absent : d.id ∉ D)
    (notForward : ¬ w.IsForward d.id) (limit : Nat) :
    ∃ w', Adds w w' d ∧
      makeClass types limit d.metaclass (some (.other d.name))
        (d.superclasses.map .first) d.slots w =
        (finalizeUnlessForward (finalizeInheritance types limit) d.id w').andThen
          fun _ w => (.ok d.id, w) := by
  have unmade := (names.unnamed d.name absent notForward).2
  have fresh : w.fresh (some (.other d.name)) = d.id := by
    rw [World.fresh, unmade]
    rfl
  have own : ((w.allocate (some (.other d.name))).store d.id d.classObject).classes d.id =
      d.classObject := World.store_own (consistent.not_own_super known)
  refine ⟨(w.allocate (some (.other d.name))).store d.id d.classObject, ⟨⟨?_, ?_, ?_, ?_⟩, ?_, ?_,
    fun e differ => World.store_retains differ, fun p notBase c => ?_, World.store_find,
    fun name differ => ?_⟩, ?_⟩
  · rw [own]
    rfl
  · rw [own]
    rfl
  · rw [World.directSuperclasses, own]
    rfl
  · rw [own]
    rfl
  · rw [own]
    rfl
  · rw [World.precedenceList, own]
    exact .inl rfl
  · rw [World.mem_store_subs]
    refine or_congr_left ?_
    split
    · rename_i here
      subst here
      refine iff_of_false not_mem_nil fun sub => ?_
      obtain ⟨member, direct⟩ := (stage.subs d.name c).mp sub
      exact stage.not_mentioned absent notBase notForward member direct
    · rfl
  · rw [World.store_made]
    exact if_neg differ
  · unfold makeClass
    rw [checkDirectSuperclasses_supers consistent known names.root]
    dsimp only
    rw [fresh]
    rfl

theorem modify_modify (w : World Ty) (c : ClassId) (f g : ClassObject Ty → ClassObject Ty) :
    (w.modify c f).modify c g = w.modify c fun k => g (f k) := by
  unfold World.modify
  simp only [if_pos]
  congr 1
  funext e
  split <;> rfl

def World.redefined (w : World Ty) (d : Definition Ty) : ClassObject Ty :=
  { w.classes d.id with metaclass := d.metaclass, directSuperclasses := d.supers
                        directSlots := d.slots }

theorem relinkSuperclasses_redefined (consistent : Consistent defs types) (known : d ∈ defs)
    (root : w.find .standardObject = some rootClass) :
    relinkSuperclasses d.id (some (d.superclasses.map .first))
      ((w.modify d.id fun k => { k with metaclass := d.metaclass }).storeInitargs d.id
        (some (d.superclasses.map .first)) (some d.slots)) =
      (.ok (), w.store d.id (w.redefined d)) := by
  have stored : (w.modify d.id fun k => { k with metaclass := d.metaclass }).storeInitargs d.id
      (some (d.superclasses.map .first)) (some d.slots) =
      w.modify d.id fun k => { k with
        metaclass := d.metaclass, directSuperclasses := d.superclasses.map .first
        directSlots := d.slots } := modify_modify w d.id _ _
  have checked := checkDirectSuperclasses_supers (w := w.modify d.id fun k => { k with
    metaclass := d.metaclass, directSuperclasses := d.superclasses.map .first
    directSlots := d.slots }) consistent known root
  have metaclass : ((w.modify d.id fun k => { k with
      metaclass := d.metaclass, directSuperclasses := d.superclasses.map .first
      directSlots := d.slots }).classes d.id).metaclass = d.metaclass := by
    simp [World.modify]
  unfold relinkSuperclasses
  rw [stored]
  dsimp only
  rw [metaclass, checked]
  dsimp only
  rw [modify_directSuperclasses_self, dropped_eq_nil checked, foldl_nil, modify_modify]
  rfl

theorem ensureClassUsingClass_adds (progress : Progress types defs D w)
    (root : w.find .standardObject = some rootClass) (consistent : Consistent defs types)
    (known : d ∈ defs) (isForward : w.IsForward d.id) (limit : Nat) :
    ∃ w', Adds w w' d ∧
      ensureClassUsingClass types limit d.id d.metaclass (d.superclasses.map .first) d.slots w =
        (finalizeUnlessForward (finalizeInheritance types limit) d.id w').andThen
          fun _ w => (.ok d.id, w) := by
  have own :
    ((w.store d.id (w.redefined d)).modify d.id fun k => { k with finalized := false }).classes
      d.id = { w.redefined d with finalized := false } := by
    simp [World.modify, World.store_own (k := w.redefined d) (consistent.not_own_super known)]
  refine ⟨(w.store d.id (w.redefined d)).modify d.id fun k => { k with finalized := false },
    ⟨⟨?_, ?_, ?_, ?_⟩, ?_, ?_, fun e differ => ?_, fun p _ c => ?_, World.store_find,
      fun name _ => congrFun World.store_made name⟩, ?_⟩
  · rw [own]
    exact isForward.name
  · rw [own]
    rfl
  · rw [World.directSuperclasses, own]
    rfl
  · rw [own]
    rfl
  · rw [own]
  · rw [World.precedenceList, own]
    exact .inr (progress.forward d.id isForward).2
  · exact (World.store_retains differ).trans (modify_retains differ)
  · rw [modify_directSubclasses rfl, World.mem_store_subs]
    refine or_congr_left ?_
    split
    · rename_i here
      subst here
      rfl
    · rfl
  · have unprotected : ¬ (((w.modify d.id fun k => { k with metaclass := d.metaclass }).classes
        d.id).name = some .theClass ∨
          ((w.modify d.id fun k => { k with metaclass := d.metaclass }).classes
        d.id).name = some .builtInClass) := by
      have name : ((w.modify d.id fun k => { k with metaclass := d.metaclass }).classes d.id).name =
          some (.other d.name) := by
        simp only [World.modify, if_pos]
        exact isForward.name
      rw [name]
      rintro (same | same) <;> cases same
    rw [ensureClassUsingClass, if_pos isForward.forward, reinitializeInstance, if_neg unprotected,
      relinkSuperclasses_redefined consistent known root]
    rfl

/-- The evaluation stores the class, finalizes it unless a superclass is missing, and
names it. -/
theorem define_adds (between : Between types defs D w) (consistent : Consistent defs types)
    (known : d ∈ defs) (absent : d.id ∉ D) (limit : Nat) :
    ∃ w₁ w₂, Between types defs D w₁ ∧ Adds w₁ w₂ d ∧
      (∀ p ∈ d.supers, p ∈ D ∨ Base p ∨ w₁.IsForward p) ∧
      define types (limit + 1) d w =
        (finalizeUnlessForward (finalizeInheritance types (limit + 1)) d.id w₂).andThen fun _ w =>
          (setFindClass (.other d.name) d.id w).andThen fun _ w => (.ok d.id, w) := by
  have named : ∀ s ∈ d.superclasses, s = .t ∨ s = .standardObject ∨ ∃ n, s = .other n := by
    intro s member
    rcases consistent.closed d known s member with top | root | ⟨e, -, other⟩
    · exact .inl top
    · exact .inr (.inl root)
    · exact .inr (.inr ⟨e.name, other⟩)
  obtain ⟨w₁, coerced, between₁, present, forward⟩ := coerceAll_between limit between named
  have supers : ∀ p ∈ d.supers, p ∈ D ∨ Base p ∨ w₁.IsForward p := by
    intro p direct
    rw [Definition.supers] at direct
    split at direct
    · exact .inr (.inl (.inl (mem_singleton.mp direct)))
    · exact present p (.inl direct)
  have outside : d.id ∉ d.superclasses.map .first := by
    intro inside
    have some : d.superclasses ≠ [] := by
      rintro empty
      rw [empty] at inside
      cases inside
    refine consistent.not_own_super known ?_
    rw [Definition.supers, if_neg some]
    exact inside
  by_cases isForward : w.IsForward d.id
  · have still : w₁.IsForward d.id := by
      rcases present d.id (.inr (.inr (.inr isForward))) with defined | base | still
      · exact absurd defined absent
      · exact absurd base d.id_not_base
      · exact still
    have old : w.oldClass (.other d.name) = some d.id := by
      have found : w.find (.other d.name) = some d.id := between.names.named d.name (.inr isForward)
      rw [World.oldClass, found, filter_some, if_pos]
      exact decide_eq_true isForward.name
    obtain ⟨w₂, adds, ensured⟩ := ensureClassUsingClass_adds between₁.progress
      between₁.names.root consistent known still (limit + 1)
    refine ⟨w₁, w₂, between₁, adds, supers, ?_⟩
    rw [define, ensureClass]
    rw [old, coerced, Outcome.andThen]
    dsimp only
    rw [ensured]
    generalize finalizeUnlessForward (finalizeInheritance types (limit + 1)) d.id w₂ = o
    obtain ⟨result, w₃⟩ := o
    cases result <;> rfl
  · have still : ¬ w₁.IsForward d.id := fun yes => isForward (forward d.id outside yes)
    have old : w.oldClass (.other d.name) = none := by
      rw [World.oldClass, (between.names.unnamed d.name absent isForward).1]
      rfl
    obtain ⟨w₂, adds, made⟩ := makeClass_adds between₁.stage between₁.names consistent known absent
      still (limit + 1)
    refine ⟨w₁, w₂, between₁, adds, supers, ?_⟩
    rw [define, ensureClass]
    rw [old, coerced, Outcome.andThen]
    dsimp only
    rw [made]
    generalize finalizeUnlessForward (finalizeInheritance types (limit + 1)) d.id w₂ = o
    obtain ⟨result, w₃⟩ := o
    cases result <;> rfl

theorem setFindClass_between (consistent : Consistent defs types) (known : d ∈ defs)
    (absent : d.id ∉ D) {w₁ w₂ w₃ : World Ty} (names : Names D w₁) (adds : Adds w₁ w₂ d)
    (same : SameDefinitions w₂ w₃)
    (stage : Stage defs (d.id :: D) w₃) (progress : Progress types defs (d.id :: D) w₃)
    (complete : ∀ c ∈ d.id :: D, Full defs (d.id :: D) c → (w₃.classes c).finalized = true) :
    ∃ w₄, setFindClass (.other d.name) d.id w₃ = (.ok (), w₄) ∧
      Between types defs (d.id :: D) w₄ := by
  have find : w₃.find = w₁.find := same.find.trans adds.find
  have made : ∀ name, name ≠ some (.other d.name) → w₃.made name = w₁.made name :=
    fun name differ => (congrFun same.made name).trans (adds.made name differ)
  have forward : ∀ {p : ClassId}, p ≠ d.id → (w₃.IsForward p ↔ w₁.IsForward p) := fun differ =>
    (same.isForward_iff _).trans (adds.isForward_iff differ)
  have other : ∀ {m : Nat}, m ≠ d.name → ClassId.first (.other m) ≠ d.id := first_other_ne
  have unprotected : ¬ ((w₃.find (.other d.name)).any
      (fun old => (w₃.classes old).metaclass = .builtInClass) = true ∨
      ClassName.other d.name = .theClass ∨ ClassName.other d.name = .builtInClass) := by
    have metaclass := (stage.defined d known mem_cons_self).metaclass
    rintro (builtIn | same | same)
    · by_cases isForward : w₁.IsForward d.id
      · rw [find, names.named d.name (.inr isForward), any_some, decide_eq_true_eq] at builtIn
        have std := (consistent.metaclass d known).1
        change (w₃.classes d.id).metaclass = .builtInClass at builtIn
        rw [← metaclass, builtIn] at std
        cases std
      · rw [find, (names.unnamed d.name absent isForward).1] at builtIn
        cases builtIn
    · cases same
    · cases same
  have retains : ∀ e, Retains w₃ { w₃ with
      find := fun other => if other = .other d.name then some d.id else w₃.find other } e :=
    fun e => .of_eq rfl
  refine ⟨_, by rw [setFindClass, if_neg unprotected],
    stage.retain (fun e _ => retains e) stage.subs,
    progress.retain (List.Subset.refl _) (fun e _ => retains e) (fun p isForward => ?_)
      (fun c member outside => absurd member outside),
    ⟨?_, ?_, fun m present => ?_, fun m absent notForward => ?_⟩, complete⟩
  · exact progress.forward p ((retains p).isForward_iff.mp isForward)
  · exact (congrFun find _).trans names.root
  · exact (congrFun find _).trans names.top
  · by_cases here : m = d.name
    · subst here
      exact if_pos rfl
    · refine (if_neg fun same => here (ClassName.other.inj same)).trans ((congrFun find _).trans ?_)
      refine names.named m (present.imp (fun member => ?_) fun isForward => ?_)
      · exact (mem_cons.mp member).resolve_left (other here)
      · exact (forward (other here)).mp ((retains _).isForward_iff.mp isForward)
  · have differ : m ≠ d.name := by
      rintro rfl
      exact absent mem_cons_self
    obtain ⟨unnamed, unmade⟩ := names.unnamed m (fun member => absent (mem_cons_of_mem _ member))
      fun isForward =>
        notForward ((retains _).isForward_iff.mpr ((forward (other differ)).mpr isForward))
    refine ⟨(if_neg fun same => differ (ClassName.other.inj same)).trans
      ((congrFun find _).trans unnamed), (made _ ?_).trans unmade⟩
    exact fun same => differ (ClassName.other.inj (some.inj same))

/-- What follows when the class, or all the classes below that can be, are finalized. -/
theorem Adds.finish (consistent : Consistent defs types) (known : d ∈ defs) (absent : d.id ∉ D)
    {w₁ w₂ w₃ : World Ty} (between : Between types defs D w₁) (adds : Adds w₁ w₂ d)
    (present : ∀ p ∈ d.supers, p ∈ D ∨ Base p ∨ w₁.IsForward p) {limit : Nat}
    (returns : finalizeUnlessForward (finalizeInheritance types limit) d.id w₂ = (.ok (), w₃)) :
    SafeStep defs (d.id :: D) d.id ∧ ∃ w₄, setFindClass (.other d.name) d.id w₃ = (.ok (), w₄) ∧
      Between types defs (d.id :: D) w₄ := by
  have stage := adds.stage between.stage consistent known absent present
  have progress := adds.progress between.progress consistent known absent
  have remaining := adds.remaining between.complete
  obtain ⟨keeps, swept⟩ := finalizeUnlessForward_ran consistent
    (finalizeInheritance_ran consistent limit) mem_cons_self stage progress
  rw [returns] at keeps swept
  have complete : ∀ c ∈ d.id :: D, Full defs (d.id :: D) c → (w₃.classes c).finalized = true := by
    intro c member full
    by_contra unfinalized
    have below := (remaining.extend keeps.extend) c member full
      (Bool.eq_false_of_not_eq_true unfinalized)
    exact unfinalized ((swept rfl (full.above below).ready).below c member full below)
  refine ⟨fun c member ready related => ?_, setFindClass_between consistent known absent
    between.names adds keeps.same (keeps.same.stage stage) keeps.progress complete⟩
  rcases related with rfl | ⟨p, direct, full, path⟩
  · exact (swept rfl ready).full
  · exact (swept rfl (full.above path).ready).next p full path c member direct ready

/-- When the evaluation returns, the definition left no class stuck, and everything is
finalized that can be. -/
theorem define_between (between : Between types defs D w) (consistent : Consistent defs types)
    (known : d ∈ defs) (absent : d.id ∉ D) {limit : Nat} {c : ClassId}
    (returns : define types (limit + 1) d w = (.ok c, w')) :
    SafeStep defs (d.id :: D) d.id ∧ Between types defs (d.id :: D) w' := by
  obtain ⟨w₁, w₂, between₁, adds, present, evaluated⟩ :=
    define_adds between consistent known absent limit
  rw [evaluated] at returns
  generalize finalized : finalizeUnlessForward (finalizeInheritance types (limit + 1)) d.id w₂ = o
    at returns
  obtain ⟨result, w₃⟩ := o
  cases result with
  | error e => cases returns
  | ok u =>
    obtain ⟨safe, w₄, named, after⟩ :=
      adds.finish consistent known absent between₁ present finalized
    rw [Outcome.andThen, named] at returns
    cases returns
    exact ⟨safe, after⟩

variable (defs) in
/-- A limit that every evaluation keeps within. -/
def defineLimit : Nat := walkBound defs + (defs.length + 1) * (defs.length + 3)

theorem Stage.length_le (stage : Stage defs D w) (nodup : D.Nodup) : D.length ≤ defs.length := by
  have subset : D ⊆ defs.map Definition.id := by
    intro c member
    obtain ⟨d, known, rfl⟩ := stage.inside c member
    exact mem_map_of_mem known
  have length := (subperm_of_subset nodup subset).length_le
  rwa [length_map] at length

theorem define_returns (between : Between types defs D w) (consistent : Consistent defs types)
    (known : d ∈ defs) (nodup : (d.id :: D).Nodup) {limit : Nat}
    (enough : defineLimit defs ≤ limit) (safe : SafeStep defs (d.id :: D) d.id) :
    ∃ w', define types (limit + 1) d w = (.ok d.id, w') := by
  have absent := (nodup_cons.mp nodup).1
  obtain ⟨w₁, w₂, between₁, adds, present, evaluated⟩ :=
    define_adds between consistent known absent limit
  have stage := adds.stage between₁.stage consistent known absent present
  have progress := adds.progress between₁.progress consistent known absent
  have remaining := adds.remaining between₁.complete
  have here : d.id ∈ d.id :: D := mem_cons_self
  have returns : (finalizeUnlessForward (finalizeInheritance types (limit + 1)) d.id w₂).1 =
      .ok () := by
    by_cases ready : Ready defs (d.id :: D) d.id
    · rw [finalizeUnlessForward_ready stage consistent here ready]
      have full := safe d.id here ready (.inl rfl)
      have unblocked : Unblocked defs (d.id :: D) d.id := fun c fullC path k member direct readyK =>
        safe k member readyK (.inr ⟨c, direct, fullC, path⟩)
      have callable : Callable defs w₂ d.id := by
        intro p single
        have direct : p ∈ hierarchy defs d.id := single ▸ mem_singleton_self p
        by_contra unfinalized
        rcases ready p direct with member | rfl | rfl
        · exact consistent.acyclic known direct (remaining p member (full.above (.single direct))
            (Bool.eq_false_of_not_eq_true unfinalized))
        · exact unfinalized progress.root.1
        · exact unfinalized progress.top.1
      have depth := nesting_le_length (w := w₂) (stage.length_le nodup) d.id
      have enough' : walkBound defs + nesting defs (d.id :: D) w₂ d.id < limit + 1 := by
        unfold defineLimit at enough
        omega
      exact finalizeInheritance_returns consistent unblocked (limit + 1) d.id here w₂ stage progress
        remaining full callable .refl enough'
    · rw [finalizeUnlessForward_later stage consistent here ready]
  rw [evaluated]
  generalize finalized : finalizeUnlessForward (finalizeInheritance types (limit + 1)) d.id w₂ = o
    at returns ⊢
  obtain ⟨result, w₃⟩ := o
  cases returns
  obtain ⟨-, w₄, named, -⟩ := adds.finish consistent known absent between₁ present finalized
  rw [Outcome.andThen, named]
  exact ⟨w₄, rfl⟩

end

end Ecl.Clos
