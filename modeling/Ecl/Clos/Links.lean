import Ecl.Clos.Graph

/- The links between classes over a whole run of definitions and redefinitions. -/
namespace Ecl.Clos

open List

variable {Ty : Type}

/-- The class that a superclass of a definition stands for. -/
def World.resolve (w : World Ty) : ClassSpec → ClassId
  | .object c => c
  | .symbol name => (w.find name).getD (w.fresh (some name))

theorem makeClass_tables (types : Types Ty) (limit : Nat) (metaclass : Metaclass)
    (name : Option ClassName) (supplied : List ClassId) (directSlots : List (Slot Ty))
    (w : World Ty) :
    (makeClass types limit metaclass name supplied directSlots w).2.find = w.find ∧
      (makeClass types limit metaclass name supplied directSlots w).2.made =
        (w.allocate name).made := by
  unfold makeClass
  split
  · exact ⟨rfl, rfl⟩
  · have same (linked : World Ty) := andThen_sameDefinitions
      (f := fun _ w' => ((.ok (w.fresh name), w') : Outcome Ty ClassId))
      (finalizeUnlessForward_sameDefinitions (finalizeInheritance_sameDefinitions types limit)
        (w.fresh name) linked) fun _ w' => .refl w'
    exact ⟨(same _).find.trans addAll_made.2, (same _).made.trans addAll_made.1⟩

variable {name : ClassName} {c : ClassId} {w : World Ty}

theorem setFindClass_find (done : (setFindClass name c w).1 = .ok ()) (other : ClassName) :
    (setFindClass name c w).2.find other = if other = name then some c else w.find other := by
  unfold setFindClass at done ⊢
  split
  · rename_i protect
    rw [if_pos protect] at done
    cases done
  · rfl

variable {types : Types Ty} {limit : Nat}

theorem coerceToClass_resolve {spec : ClassSpec}
    (coerced : (coerceToClass types limit w spec).1 = .ok c) :
    c = w.resolve spec ∧
      ∀ other, (coerceToClass types limit w spec).2.resolve other = w.resolve other := by
  cases spec with
  | object d =>
    cases coerced
    exact ⟨rfl, fun _ => rfl⟩
  | symbol name =>
    simp only [coerceToClass] at coerced ⊢
    split at coerced
    · rename_i d found
      cases coerced
      exact ⟨by simp [World.resolve, found], fun _ => rfl⟩
    · rename_i missing
      split at coerced
      · cases coerced
      · rename_i root _
        obtain ⟨find, made⟩ := makeClass_tables types limit .forwardReferencedClass (some name)
          [root] [] w
        obtain ⟨d, first, second, whole⟩ := Outcome.andThen_ok coerced
        obtain ⟨_, named, last, whole'⟩ := Outcome.andThen_ok second
        cases last
        have fresh := (makeClass_present types limit .forwardReferencedClass (some name) [root]
          [] w).2 c first
        refine ⟨by simp [World.resolve, missing, fresh], fun other => ?_⟩
        rw [whole, whole']
        cases other with
        | object d => rfl
        | symbol other =>
          simp only [World.resolve, setFindClass_find named]
          by_cases same : other = name
          · subst same
            simp [missing, fresh]
          · simp [same, find, World.fresh, (setFindClass_classes name c _).2, made,
              World.allocate]

variable {specs : List ClassSpec}

theorem coerceAll_resolve : ∀ {w : World Ty} {supers : List ClassId},
      (coerceAll types limit specs w).1 = .ok supers → supers = specs.map w.resolve := by
  induction specs with
  | nil =>
    intro w supers coerced
    cases coerced
    rfl
  | cons spec specs ih =>
    intro w supers coerced
    obtain ⟨c, first, second, -⟩ := Outcome.andThen_ok coerced
    obtain ⟨rest, others, last, -⟩ := Outcome.andThen_ok second
    cases last
    obtain ⟨own, stable⟩ := coerceToClass_resolve first
    rw [ih others, map_cons, ← own]
    exact congrArg _ (map_congr_left fun other _ => stable other)

theorem coerceAll_makesOnly (types : Types Ty) (limit : Nat) :
    ∀ {w : World Ty}, w.Closed → (∀ c, .object c ∈ specs → w.Exists c) →
      MakesOnly w (coerceAll types limit specs w).2 ∧
        ∀ supers, (coerceAll types limit specs w).1 = .ok supers →
          ∀ p ∈ supers, (coerceAll types limit specs w).2.Exists p := by
  induction specs with
  | nil =>
    intro w closed _
    refine ⟨.refl closed, fun supers coerced p member => ?_⟩
    cases coerced
    cases member
  | cons spec specs ih =>
    intro w closed valid
    have validHead : ∀ c, spec = .object c → w.Exists c := fun c same =>
      valid c (same ▸ mem_cons_self)
    obtain ⟨makes, present⟩ := coerceToClass_makesOnly types limit closed validHead
    obtain ⟨makesRest, presentRest⟩ := ih (w := (coerceToClass types limit w spec).2)
      makes.closed fun c member => makes.still c (valid c (mem_cons_of_mem _ member))
    have after : ∀ c, (coerceToClass types limit w spec).1 = .ok c →
        MakesOnly (coerceToClass types limit w spec).2
          ((coerceAll types limit specs (coerceToClass types limit w spec).2).andThen
            fun rest w => (.ok (c :: rest), w) : Outcome Ty (List ClassId)).2 := fun c _ =>
      makesRest.andThen fun _ _ => .refl makesRest.closed
    refine ⟨makes.andThen after, fun supers coerced p member => ?_⟩
    obtain ⟨c, first, second, whole⟩ := Outcome.andThen_ok coerced
    obtain ⟨rest, others, last, whole'⟩ := Outcome.andThen_ok second
    cases last
    simp only [coerceAll]
    rw [whole, whole']
    rcases mem_cons.mp member with rfl | member
    · exact makesRest.still p (present p first)
    · exact presentRest rest others p member

/-- The links of a class agree on both ends. -/
def Linked (w : World Ty) (c : ClassId) : Prop :=
  (∀ p, c ∈ w.directSubclasses p ↔ p ∈ w.directSuperclasses c) ∧ (w.directSuperclasses c).Nodup

variable {w' : World Ty}

theorem Kept.linked (kept : Kept c w w') (linked : Linked w c) : Linked w' c := by
  refine ⟨fun p => ?_, ?_⟩
  · rw [kept.2, kept.1]
    exact linked.1 p
  · rw [kept.1]
    exact linked.2

/-- Since no link is ever removed, new superclasses must take over all the old ones. -/
theorem Relinked.linked_iff (relinked : Relinked c w w') (linked : Linked w c) :
    Linked w' c ↔ w.directSuperclasses c ⊆ w'.directSuperclasses c ∧
      (w'.directSuperclasses c).Nodup := by
  refine and_congr_left fun _ => ⟨fun both p member => ?_, fun within p => ?_⟩
  · exact (both p).mp ((relinked p).mpr (.inl ((linked.1 p).mpr member)))
  · rw [relinked p, linked.1 p]
    exact or_iff_right_of_imp fun member => within member

theorem Linked.unused (linked : Linked w c) (closed : w.Closed)
    (absent : ¬ w.Exists c) : w.directSuperclasses c = [] :=
  eq_nil_iff_forall_not_mem.mpr fun p member =>
    absent (closed.child p c ((linked.1 p).mpr member))

/-- No class loses a superclass. -/
structure Tidy (w w' : World Ty) : Prop extends Grows w w' where
  each : ∀ d, Kept d w w' ∨ Relinked d w w' ∧
    (w.Exists d → w.directSuperclasses d ⊆ w'.directSuperclasses d) ∧
      (w'.directSuperclasses d).Nodup

theorem Tidy.linked (tidy : Tidy w w') (closed : w.Closed) (linked : Linked w c) : Linked w' c := by
  rcases tidy.each c with kept | ⟨relinked, within, nodup⟩
  · exact kept.linked linked
  · refine (relinked.linked_iff linked).mpr ⟨?_, nodup⟩
    by_cases exist : w.Exists c
    · exact within exist
    · rw [linked.unused closed exist]
      exact nil_subset _

variable {supers : List ClassId}

theorem nodup_of_length_eq_one (single : supers.length = 1) : supers.Nodup := by
  obtain ⟨p, only⟩ := length_eq_one_iff.mp single
  rw [only]
  exact nodup_singleton p

theorem MakesOnly.tidy (makes : MakesOnly w w') : Tidy w w' :=
  ⟨makes.toGrows, fun d => (makes.each d).imp_right fun ⟨relinked, absent, single⟩ =>
    ⟨relinked, fun exist => absurd exist absent, nodup_of_length_eq_one single⟩⟩

variable {w'' : World Ty}

theorem MakesOnly.tidy_relinks {stored : List ClassId}
    (first : MakesOnly w w') (second : Relinks c stored w' w'')
    (old : w.Exists c ∨ ¬ w'.Exists c)
    (within : w.Exists c → w.directSuperclasses c ⊆ stored) (nodup : stored.Nodup) :
    Tidy w w'' := by
  refine ⟨first.toGrows.trans second.toGrows, fun d => ?_⟩
  by_cases here : d = c
  · subst here
    have kept := first.old d old
    refine second.own.imp kept.trans fun ⟨relinked, supers⟩ => ⟨kept.relinked relinked, ?_⟩
    rw [supers]
    exact ⟨within, nodup⟩
  · have kept := second.others d here
    refine (first.each d).imp (·.trans kept) fun ⟨relinked, absent, single⟩ =>
      ⟨relinked.kept kept, fun exist => absurd exist absent, ?_⟩
    rw [kept.1]
    exact nodup_of_length_eq_one single

/-- The links stay as they are. -/
structure Idle (w w' : World Ty) : Prop extends Grows w w' where
  kept : ∀ d, Kept d w w'

theorem Idle.refl (closed : w.Closed) : Idle w w :=
  ⟨(MakesOnly.refl closed).toGrows, fun d => .refl d w⟩

theorem Tidy.idle (tidy : Tidy w w') (idle : Idle w' w'') : Tidy w w'' := by
  refine ⟨tidy.toGrows.trans idle.toGrows, fun d => ?_⟩
  have kept := idle.kept d
  refine (tidy.each d).imp (·.trans kept) fun ⟨relinked, within, nodup⟩ =>
    ⟨relinked.kept kept, ?_⟩
  rw [kept.1]
  exact ⟨within, nodup⟩

theorem setFindClass_idle (name : ClassName) (closed : w.Closed)
    (present : w.Exists c) : Idle w (setFindClass name c w).2 :=
  ⟨(setFindClass_makesOnly closed present).toGrows, setFindClass_kept name c w⟩

theorem modify_metaclass_idle (closed : w.Closed) (c : ClassId) (metaclass : Metaclass) :
    Idle w (w.modify c fun k => { k with metaclass := metaclass }) := by
  have subs : (w.modify c fun k => { k with metaclass := metaclass }).directSubclasses =
      w.directSubclasses := modify_directSubclasses rfl
  refine ⟨⟨fun nodup p => ?_, ⟨fun d unused => ?_, fun p d member => ?_, closed.found⟩,
    fun d => id⟩, fun d => ⟨?_, fun p => by rw [subs]⟩⟩
  · rw [subs]
    exact nodup p
  · rw [subs]
    exact closed.unused d unused
  · rw [subs] at member
    exact closed.child p d member
  · by_cases here : d = c
    · rw [here, modify_directSuperclasses_self]
      rfl
    · exact modify_directSuperclasses here

theorem Idle.relinks {stored : List ClassId}
    (idle : Idle w w') (relinks : Relinks c stored w' w'') : Relinks c stored w w'' :=
  ⟨idle.toGrows.trans relinks.toGrows,
    fun d differ => (idle.kept d).trans (relinks.others d differ),
    relinks.own.imp (idle.kept c).trans fun ⟨relinked, own⟩ =>
      ⟨(idle.kept c).relinked relinked, own⟩⟩

/-- The class is not one of those that REINITIALIZE-INSTANCE refuses. -/
def World.Redefinable (w : World Ty) (c : ClassId) : Prop :=
  ¬ ((w.classes c).name = some .theClass ∨ (w.classes c).name = some .builtInClass)

/-- ENSURE-CLASS redefines the class. -/
def World.Redefines (w : World Ty) (c : ClassId) (metaclass : Metaclass) : Prop :=
  w.Redefinable c ∧ (w.forward c ∨ (w.classes c).metaclass = metaclass)

theorem World.redefines_congr
    (same : (w'.classes c).identity = (w.classes c).identity) (metaclass : Metaclass) :
    w'.Redefines c metaclass ↔ w.Redefines c metaclass := by
  obtain ⟨sameName, sameMetaclass⟩ := Prod.mk.inj same
  simp only [World.Redefines, World.Redefinable, World.forward, sameName, sameMetaclass]

variable {metaclass : Metaclass}

theorem ensureClassUsingClass_relinks (types : Types Ty) (limit : Nat)
    (directSlots : List (Slot Ty))
    (redefines : w.Redefines c metaclass) (closed : w.Closed) (present : w.Exists c)
    (valid : ∀ p ∈ supers, w.Exists p) :
    Relinks c (w.stored metaclass supers) w
      (ensureClassUsingClass types limit c metaclass supers directSlots w).2 := by
  have given : ∀ p ∈ (some supers).getD [], w.Exists p := valid
  unfold ensureClassUsingClass
  split
  · -- a forward reference takes on its metaclass first
    have idle := modify_metaclass_idle closed c metaclass
    have relinks := reinitializeInstance_relinks types limit (some directSlots) idle.closed present
      given
    have own : ((w.modify c fun k => { k with metaclass := metaclass }).classes c).metaclass =
        metaclass := by simp [World.modify]
    rw [own] at relinks
    exact idle.relinks relinks
  · rename_i notForward
    rw [if_pos (redefines.2.resolve_left notForward), ← redefines.2.resolve_left notForward]
    exact reinitializeInstance_relinks types limit (some directSlots) closed present given

theorem reinitializeInstance_refused (types : Types Ty) (limit : Nat)
    (supplied : Option (List ClassId)) (directSlots : Option (List (Slot Ty)))
    (refused : ¬ w.Redefinable c) :
    reinitializeInstance types limit c supplied directSlots w = (.error .kernelClass, w) := by
  rw [reinitializeInstance, if_pos (not_not.mp refused)]

theorem ensureClassUsingClass_idle (types : Types Ty) (limit : Nat)
    (supers : List ClassId) (directSlots : List (Slot Ty))
    (closed : w.Closed) (refused : ¬ w.Redefines c metaclass) :
    Idle w (ensureClassUsingClass types limit c metaclass supers directSlots w).2 := by
  unfold ensureClassUsingClass
  split
  · rename_i forward
    have idle := modify_metaclass_idle closed c metaclass
    rw [reinitializeInstance_refused types limit _ _ fun able => refused ⟨?_, .inl forward⟩]
    · exact idle
    · simpa [World.Redefinable, World.modify] using able
  · split
    · rename_i same
      rw [reinitializeInstance_refused types limit _ _ fun able => refused ⟨able, .inr same⟩]
      exact .refl closed
    · exact .refl closed

theorem reinitializeInstance_returns {d : ClassId}
    {supplied : Option (List ClassId)} {directSlots : Option (List (Slot Ty))}
    (returned : (reinitializeInstance types limit c supplied directSlots w).1 = .ok d) : d = c := by
  unfold reinitializeInstance at returned
  split at returned
  · cases returned
  · obtain ⟨_, -, last, -⟩ := Outcome.andThen_ok returned
    obtain ⟨_, -, last, -⟩ := Outcome.andThen_ok last
    cases last
    rfl

theorem ensureClassUsingClass_returns {d : ClassId} {directSlots : List (Slot Ty)}
    (returned : (ensureClassUsingClass types limit c metaclass supers directSlots w).1 = .ok d) :
    d = c := by
  unfold ensureClassUsingClass at returned
  split at returned
  · exact reinitializeInstance_returns returned
  · split at returned
    · exact reinitializeInstance_returns returned
    · cases returned

theorem coerceAll_stored (coerced : (coerceAll types limit specs w).1 = .ok supers)
    (metaclass : Metaclass) :
    (coerceAll types limit specs w).2.stored metaclass supers =
      w.stored metaclass (specs.map w.resolve) := by
  rw [coerceAll_resolve coerced]
  cases specs with
  | nil => rfl
  | cons spec specs => rfl

theorem World.oldClass_exists (closed : w.Closed) (old : w.oldClass name = some c) : w.Exists c :=
  closed.found name c (Option.filter_eq_some_iff.mp old).1

theorem Tidy.andThen {α β : Type} {o : Outcome Ty α} {f : α → World Ty → Outcome Ty β}
    (first : Tidy w o.2)
    (second : ∀ x, o.1 = .ok x → Tidy w (f x o.2).2) : Tidy w (o.andThen f).2 := by
  obtain ⟨result, w'⟩ := o
  cases result with
  | error e => exact first
  | ok x => exact second x rfl

/-- The operations that define and redefine classes. -/
inductive Operation (Ty : Type) where
  | ensureClass (name : ClassName) (metaclass : Metaclass) (superclasses : List ClassSpec)
      (directSlots : List (Slot Ty))
  | reinitializeInstance (c : ClassId) (directSuperclasses : Option (List ClassId))
      (directSlots : Option (List (Slot Ty)))
  | makeClass (metaclass : Metaclass) (name : Option ClassName) (superclasses : List ClassId)
      (directSlots : List (Slot Ty))

namespace Operation

/-- The world that an operation leaves, whether it returns or signals an error. -/
def run (types : Types Ty) (limit : Nat) (w : World Ty) : Operation Ty → World Ty
  | ensureClass name metaclass superclasses directSlots =>
    (Clos.ensureClass types limit name metaclass superclasses directSlots w).2
  | reinitializeInstance c directSuperclasses directSlots =>
    (Clos.reinitializeInstance types limit c directSuperclasses directSlots w).2
  | makeClass metaclass name superclasses directSlots =>
    (Clos.makeClass types limit metaclass name superclasses directSlots w).2

/-- Only class objects that exist are passed. -/
def Valid (w : World Ty) : Operation Ty → Prop
  | ensureClass _ _ superclasses _ => ∀ c, .object c ∈ superclasses → w.Exists c
  | reinitializeInstance c directSuperclasses _ =>
    w.Exists c ∧ ∀ p ∈ directSuperclasses.getD [], w.Exists p
  | makeClass _ _ superclasses _ => ∀ p ∈ superclasses, w.Exists p

/-- The superclasses that are stored are different, and include all that the class
has. -/
def Respects (w : World Ty) : Operation Ty → Prop
  | ensureClass name metaclass superclasses _ =>
    match w.oldClass name with
    | none => (w.stored metaclass (superclasses.map w.resolve)).Nodup
    | some c => w.Redefines c metaclass →
        w.directSuperclasses c ⊆ w.stored metaclass (superclasses.map w.resolve) ∧
          (w.stored metaclass (superclasses.map w.resolve)).Nodup
  | reinitializeInstance c directSuperclasses _ =>
    ∀ supplied, directSuperclasses = some supplied → w.Redefinable c →
      w.directSuperclasses c ⊆ w.stored (w.classes c).metaclass supplied ∧
        (w.stored (w.classes c).metaclass supplied).Nodup
  | makeClass metaclass _ superclasses _ => (w.stored metaclass superclasses).Nodup

end Operation

theorem makeClass_tidy (types : Types Ty) (limit : Nat)
    (name : Option ClassName) {supplied : List ClassId} (directSlots : List (Slot Ty))
    (makes : MakesOnly w w') (valid : ∀ p ∈ supplied, w'.Exists p)
    (nodup : (w'.stored metaclass supplied).Nodup) :
    Tidy w (makeClass types limit metaclass name supplied directSlots w').2 :=
  makes.tidy_relinks (makeClass_relinks types limit metaclass name directSlots makes.closed valid)
    (.inr (w'.not_exists_fresh name))
    (fun exist => absurd (makes.still _ exist) (w'.not_exists_fresh name)) nodup

theorem reinitializeInstance_idle (types : Types Ty) (limit : Nat) (c : ClassId)
    (directSlots : Option (List (Slot Ty))) (closed : w.Closed) :
    Idle w (reinitializeInstance types limit c none directSlots w).2 := by
  unfold reinitializeInstance
  split
  · exact .refl closed
  · have subs : (w.storeInitargs c none directSlots).directSubclasses = w.directSubclasses :=
      modify_directSubclasses rfl
    have supers : ∀ d, (w.storeInitargs c none directSlots).directSuperclasses d =
        w.directSuperclasses d := by
      intro d
      by_cases here : d = c
      · rw [here]
        exact modify_directSuperclasses_self
      · exact modify_directSuperclasses here
    have stored : Idle w (w.storeInitargs c none directSlots) := by
      refine ⟨⟨fun nodup p => ?_, ⟨fun d unused => ?_, fun p d member => ?_, closed.found⟩,
        fun d => id⟩, fun d => ⟨supers d, fun p => by rw [subs]⟩⟩
      · rw [subs]
        exact nodup p
      · rw [subs]
        exact closed.unused d unused
      · rw [subs] at member
        exact closed.child p d member
    have same := refinalize_sameDefinitions types limit c (w.storeInitargs c none directSlots)
    exact ⟨stored.toGrows.trans (same.grows stored.closed),
      fun d => (stored.kept d).trans (same.kept d)⟩

theorem ensureClass_tidy (types : Types Ty) (limit : Nat)
    {superclasses : List ClassSpec} {directSlots : List (Slot Ty)}
    (closed : w.Closed)
    (valid : (Operation.ensureClass name metaclass superclasses directSlots).Valid w)
    (respects : (Operation.ensureClass name metaclass superclasses directSlots).Respects w) :
    Tidy w (ensureClass types limit name metaclass superclasses directSlots w).2 := by
  obtain ⟨makes, present⟩ := coerceAll_makesOnly types limit closed valid
  refine makes.tidy.andThen fun supers coerced => ?_
  have parents := present supers coerced
  have stored := coerceAll_stored coerced metaclass
  simp only [Operation.Respects] at respects
  cases old : w.oldClass name with
  | none =>
    rw [old] at respects
    have tidy := makeClass_tidy types limit (some name) directSlots makes parents
      (stored ▸ respects)
    obtain ⟨made, returned⟩ := makeClass_present types limit metaclass (some name) supers
      directSlots (coerceAll types limit superclasses w).2
    refine tidy.andThen fun c result => ?_
    have named := tidy.idle (setFindClass_idle name tidy.closed
      (returned c result ▸ made))
    exact named.andThen fun _ _ => named
  | some c =>
    rw [old] at respects
    have exist := World.oldClass_exists closed old
    have redefines := World.redefines_congr (makes.identity c exist) metaclass
    have tidy : Tidy w (ensureClassUsingClass types limit c metaclass supers directSlots
        (coerceAll types limit superclasses w).2).2 := by
      by_cases redefined : w.Redefines c metaclass
      · obtain ⟨within, nodup⟩ := respects redefined
        refine makes.tidy_relinks (ensureClassUsingClass_relinks types limit directSlots
          (redefines.mpr redefined) makes.closed (makes.still c exist) parents) (.inl exist)
          (fun _ => ?_) ?_
        · rw [stored]
          exact within
        · rw [stored]
          exact nodup
      · exact makes.tidy.idle (ensureClassUsingClass_idle types limit supers directSlots
          makes.closed fun yes => redefined (redefines.mp yes))
    refine tidy.andThen fun d result => ?_
    cases ensureClassUsingClass_returns result
    have named := tidy.idle (setFindClass_idle name tidy.closed (tidy.still c exist))
    exact named.andThen fun _ _ => named

theorem Operation.tidy (types : Types Ty) (limit : Nat) (closed : w.Closed)
    {op : Operation Ty} (valid : op.Valid w) (respects : op.Respects w) :
    Tidy w (op.run types limit w) := by
  cases op with
  | ensureClass name metaclass superclasses directSlots =>
    exact ensureClass_tidy types limit closed valid respects
  | makeClass metaclass name superclasses directSlots =>
    exact makeClass_tidy types limit name directSlots (.refl closed) valid respects
  | reinitializeInstance c directSuperclasses directSlots =>
    obtain ⟨present, parents⟩ := valid
    cases directSuperclasses with
    | none =>
      exact (MakesOnly.refl closed).tidy.idle
        (reinitializeInstance_idle types limit c directSlots closed)
    | some supplied =>
      by_cases redefinable : w.Redefinable c
      · obtain ⟨within, nodup⟩ := respects supplied rfl redefinable
        exact (MakesOnly.refl closed).tidy_relinks (reinitializeInstance_relinks types limit
          directSlots closed present parents) (.inl present) (fun _ => within) nodup
      · simp only [Operation.run]
        rw [reinitializeInstance_refused types limit _ _ redefinable]
        exact (MakesOnly.refl closed).tidy

/-- The classes that boot.lsp links on one end only. -/
def bootExceptions : List ClassId :=
  [.first .stdClass, .first .standardClass, .first .funcallableStandardClass]

/-- What holds of the links in every state of a run. -/
structure ClassGraph (w : World Ty) : Prop where
  closed : w.Closed
  nodup : NoDuplicates w
  linked : ∀ c, c ∉ bootExceptions → Linked w c

theorem ClassGraph.operation (graph : ClassGraph w) (types : Types Ty)
    (limit : Nat) {op : Operation Ty} (valid : op.Valid w) (respects : op.Respects w) :
    ClassGraph (op.run types limit w) := by
  have tidy := Operation.tidy types limit graph.closed valid respects
  exact ⟨tidy.closed, tidy.nodup graph.nodup, fun c other =>
    tidy.linked graph.closed (graph.linked c other)⟩

variable (Ty) in
theorem boot_classes (c : ClassId) : (∃ name ∈ bootNames, c = .first name) ∨
    (boot : World Ty).classes c = blankClass ∧ ¬ (boot : World Ty).Exists c := by
  obtain ⟨name, index⟩ := c
  cases index with
  | succ index =>
    refine .inr ⟨rfl, fun exist => ?_⟩
    simp only [World.Exists, boot] at exist
    split at exist <;> omega
  | zero =>
    cases name with
    | none => exact .inr ⟨rfl, by simp [World.Exists, boot]⟩
    | some name =>
      cases name <;> first
        | exact .inl ⟨_, by decide, rfl⟩
        | exact .inr ⟨rfl, by simp [World.Exists, boot, bootNames]⟩

theorem boot_exists (known : name ∈ bootNames) : (boot : World Ty).Exists (.first name) := by
  simp [World.Exists, boot, ClassId.first, known]

theorem boot_children (name : ClassName) : ∀ c ∈ (boot : World Ty).directSubclasses (.first name),
    ∃ child ∈ bootNames, c = .first child := by
  cases name <;> simp [World.directSubclasses, boot, ClassId.first, bootHierarchy, bootClass,
    blankClass, bootNames]

theorem boot_parents (name : ClassName) : ∀ p ∈ (boot : World Ty).directSuperclasses (.first name),
    ∃ parent ∈ bootNames, p = .first parent := by
  cases name <;> simp [World.directSuperclasses, boot, ClassId.first, bootHierarchy, bootClass,
    blankClass, bootNames]

theorem boot_closed : (boot : World Ty).Closed := by
  refine ⟨fun c unused => ?_, fun p c member => ?_, fun name c found => ?_⟩
  · rcases boot_classes Ty c with ⟨name, known, rfl⟩ | ⟨blank, -⟩
    · exact absurd (boot_exists known) unused
    · rw [World.directSubclasses, blank]
      rfl
  · rcases boot_classes Ty p with ⟨name, known, rfl⟩ | ⟨blank, -⟩
    · obtain ⟨child, known, rfl⟩ := boot_children name c member
      exact boot_exists known
    · rw [World.directSubclasses, blank] at member
      cases member
  · simp only [boot] at found
    split at found
    · rename_i known
      cases found
      exact boot_exists known
    · cases found

theorem boot_graph : ClassGraph (boot : World Ty) := by
  refine ⟨boot_closed, fun p => ?_, fun c other => ⟨fun p => ?_, ?_⟩⟩
  · rcases boot_classes Ty p with ⟨name, known, rfl⟩ | ⟨blank, -⟩
    · cases name <;> simp [World.directSubclasses, boot, ClassId.first, bootHierarchy, bootClass,
        blankClass]
    · rw [World.directSubclasses, blank]
      exact nodup_nil
  · rcases boot_classes Ty c with ⟨name, known, rfl⟩ | ⟨blank, absent⟩
    · rcases boot_classes Ty p with ⟨parent, -, rfl⟩ | ⟨blank, absent⟩
      · cases name <;> first
          | exact absurd (by decide) other
          | cases parent <;> simp [World.directSubclasses, World.directSuperclasses, boot,
              ClassId.first, bootHierarchy, bootClass, blankClass]
      · rw [World.directSubclasses, blank]
        refine iff_of_false (by simp [blankClass]) fun member => absent ?_
        obtain ⟨parent, known, rfl⟩ := boot_parents name p member
        exact boot_exists known
    · rw [World.directSuperclasses, blank]
      exact iff_of_false (fun member => absent (boot_closed.child p c member))
        (by simp [blankClass])
  · rcases boot_classes Ty c with ⟨name, known, rfl⟩ | ⟨blank, -⟩
    · cases name <;> simp [World.directSuperclasses, boot, ClassId.first, bootHierarchy, bootClass,
        blankClass]
    · rw [World.directSuperclasses, blank]
      exact nodup_nil

/-- The states that are reached from the start by operations that meet a condition. -/
inductive Reached (types : Types Ty) (meets : World Ty → Operation Ty → Prop) :
    World Ty → Prop where
  | boot : Reached types meets boot
  | step {w : World Ty} (limit : Nat) (op : Operation Ty) (reached : Reached types meets w)
      (valid : op.Valid w) (met : meets w op) : Reached types meets (op.run types limit w)

theorem Reached.graph (reached : Reached types (fun w op => op.Respects w) w) : ClassGraph w := by
  induction reached with
  | boot => exact boot_graph
  | step limit op _ valid respects ih => exact ih.operation types limit valid respects

/-- Both ends of the links agree in every state of a run in which no redefinition
drops a superclass. -/
theorem subclass_iff_superclass {types : Types Ty} {w : World Ty}
    (reached : Reached types (fun w op => op.Respects w) w) (p c : ClassId)
    (other : c ∉ bootExceptions) :
    (c ∈ (w.classes p).directSubclasses ↔ p ∈ (w.classes c).directSuperclasses) ∧
      (w.classes p).directSubclasses.Nodup ∧ (w.classes c).directSuperclasses.Nodup :=
  ⟨(reached.graph.linked c other).1 p, reached.graph.nodup p, (reached.graph.linked c other).2⟩

instance (w : World Ty) (c : ClassId) (metaclass : Metaclass) :
    Decidable (w.Redefines c metaclass) :=
  inferInstanceAs (Decidable (¬ (_ ∨ _) ∧ (_ ∨ _)))

instance (w : World Ty) (name : ClassName) (metaclass : Metaclass)
    (superclasses : List ClassSpec) (directSlots : List (Slot Ty)) :
    Decidable ((Operation.ensureClass name metaclass superclasses directSlots).Respects w) :=
  match old : w.oldClass name with
  | none =>
    decidable_of_iff (w.stored metaclass (superclasses.map w.resolve)).Nodup
      (by rw [Operation.Respects, old])
  | some c =>
    decidable_of_iff (w.Redefines c metaclass →
      w.directSuperclasses c ⊆ w.stored metaclass (superclasses.map w.resolve) ∧
        (w.stored metaclass (superclasses.map w.resolve)).Nodup)
      (by rw [Operation.Respects, old])

def oneType : Types Unit := ⟨fun _ _ => true, fun _ _ => ()⟩

/-- (defclass name superclasses ()). -/
def defclass (name : ClassName) (superclasses : List ClassName) : Operation Unit :=
  .ensureClass name .standardClass (superclasses.map .symbol) []

instance (w : World Unit) (name : ClassName) (superclasses : List ClassName) :
    Decidable ((defclass name superclasses).Respects w) :=
  inferInstanceAs (Decidable ((Operation.ensureClass _ _ _ _).Respects w))

theorem defclass_valid (name : ClassName) (superclasses : List ClassName) (w : World Unit) :
    (defclass name superclasses).Valid w := by
  simp [defclass, Operation.Valid]

/-- A class before its superclass, the superclass, and then a second superclass for
the first. -/
def extendedWorld : World Unit :=
  [defclass (.other 0) [.other 1], defclass (.other 1) [],
    defclass (.other 0) [.other 1, .standardObject]].foldl (fun w op => op.run oneType 20 w) boot

theorem subclass_iff_superclass_extended :
    ClassId.first (.other 0) ∈ (extendedWorld.classes (.first .standardObject)).directSubclasses ∧
      (ClassId.first (.other 0) ∈
          (extendedWorld.classes (.first .standardObject)).directSubclasses ↔
        .first .standardObject ∈ (extendedWorld.classes (.first (.other 0))).directSuperclasses) ∧
      (extendedWorld.classes (.first .standardObject)).directSubclasses.Nodup ∧
      (extendedWorld.classes (.first (.other 0))).directSuperclasses.Nodup := by
  have first : Reached oneType (fun w op => op.Respects w)
      ((defclass (.other 0) [.other 1]).run oneType 20 boot) :=
    .step 20 _ .boot (defclass_valid _ _ _) (by decide +kernel)
  have second := first.step 20 (defclass (.other 1) []) (defclass_valid _ _ _) (by decide +kernel)
  have third := second.step 20 (defclass (.other 0) [.other 1, .standardObject])
    (defclass_valid _ _ _) (by decide +kernel)
  exact ⟨by decide +kernel, subclass_iff_superclass third _ _ (by decide)⟩

/-- (defclass a () ()) (defclass b () ()) (defclass a (b) ()): the class is still
among the subclasses of STANDARD-OBJECT. -/
def droppedWorld : World Unit :=
  [defclass (.other 0) [], defclass (.other 1) [], defclass (.other 0) [.other 1]].foldl
    (fun w op => op.run oneType 20 w) boot

theorem dropped_superclass_keeps_subclass :
    Reached oneType (fun _ _ => True) droppedWorld ∧
      ¬ (ClassId.first (.other 0) ∈
          (droppedWorld.classes (.first .standardObject)).directSubclasses ↔
        .first .standardObject ∈
          (droppedWorld.classes (.first (.other 0))).directSuperclasses) := by
  refine ⟨.step 20 _ (.step 20 _ (.step 20 _ .boot (defclass_valid _ _ _) trivial)
    (defclass_valid _ _ _) trivial) (defclass_valid _ _ _) trivial, by decide +kernel⟩

end Ecl.Clos
