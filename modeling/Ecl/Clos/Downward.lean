import Ecl.Clos.Cascade

/- What a whole call of FINALIZE-INHERITANCE does to the classes below. -/
namespace Ecl.Clos

open List Relation

variable {Ty : Type}

section

variable {types : Types Ty} {defs : List (Definition Ty)} {D : List ClassId} {w : World Ty}

variable (defs D) in
/-- The class and all that is below it are finalized, as far as all classes above are
defined, and no class right below has an undefined class above. -/
structure Swept (c : ClassId) (w : World Ty) : Prop where
  full : Full defs D c
  below : ∀ d ∈ D, Full defs D d → Inherits defs d c → (w.classes d).finalized = true
  next : ∀ d, Full defs D d → Inherits defs d c →
    ∀ k ∈ D, d ∈ hierarchy defs k → Ready defs D k → Full defs D k

variable {c : ClassId}

theorem Swept.extend {w' : World Ty} (swept : Swept defs D c w) (extend : Extends w w') :
    Swept defs D c w' :=
  ⟨swept.full, fun d member full path => extend.finalized d (swept.below d member full path),
    swept.next⟩

variable (types defs D) in
/-- What a call leaves, whether it returns or not. -/
structure Keeps (w w' : World Ty) : Prop where
  same : SameDefinitions w w'
  progress : Progress types defs D w'
  extend : Extends w w'

theorem Keeps.refl (progress : Progress types defs D w) : Keeps types defs D w w :=
  ⟨.refl w, progress, .refl w⟩

theorem Keeps.trans {w' w'' : World Ty} (first : Keeps types defs D w w')
    (second : Keeps types defs D w' w'') : Keeps types defs D w w'' :=
  ⟨first.same.trans second.same, second.progress, first.extend.trans second.extend⟩

variable (types defs D) in
/-- A call that keeps to this, and finalizes what is below when it returns. -/
structure Ran (c : ClassId) (w : World Ty) (o : Outcome Ty Unit) : Prop where
  keeps : Keeps types defs D w o.2
  swept : o.1 = .ok () → Swept defs D c o.2

theorem Stage.any_forward_iff (stage : Stage defs D w) (consistent : Consistent defs types)
    (member : c ∈ D) :
    (w.directSuperclasses c).any w.forward = true ↔ ¬ Ready defs D c := by
  rw [stage.supers consistent (.inl member), any_eq_true]
  constructor
  · rintro ⟨p, direct, forward⟩ ready
    rw [stage.not_forward consistent (ready p direct)] at forward
    cases forward
  · intro notReady
    by_contra none'
    refine notReady fun p direct => ?_
    rcases stage.mentioned c member p direct with defined | base | isForward
    · exact .inl defined
    · exact .inr base
    · exact absurd ⟨p, direct, isForward.forward⟩ none'

variable {finalize : ClassId → World Ty → Outcome Ty Unit}

theorem finalizeUnlessForward_ready (stage : Stage defs D w) (consistent : Consistent defs types)
    (member : c ∈ D)
    (ready : Ready defs D c) : finalizeUnlessForward finalize c w = finalize c w := by
  unfold finalizeUnlessForward
  rw [if_neg fun forward => (stage.any_forward_iff consistent member).mp forward ready]

theorem finalizeUnlessForward_later (stage : Stage defs D w) (consistent : Consistent defs types)
    (member : c ∈ D)
    (notReady : ¬ Ready defs D c) : finalizeUnlessForward finalize c w = (.ok (), w) := by
  unfold finalizeUnlessForward
  rw [if_pos ((stage.any_forward_iff consistent member).mpr notReady)]

theorem finalizeUnlessForward_ran (consistent : Consistent defs types)
    (ran : ∀ c ∈ D, ∀ w, Stage defs D w → Progress types defs D w →
      Ran types defs D c w (finalize c w))
    (member : c ∈ D) (stage : Stage defs D w) (progress : Progress types defs D w) :
    Keeps types defs D w (finalizeUnlessForward finalize c w).2 ∧
      ((finalizeUnlessForward finalize c w).1 = .ok () → Ready defs D c →
        Swept defs D c (finalizeUnlessForward finalize c w).2) := by
  by_cases ready : Ready defs D c
  · rw [finalizeUnlessForward_ready stage consistent member ready]
    have call := ran c member w stage progress
    exact ⟨call.keeps, fun returns _ => call.swept returns⟩
  · rw [finalizeUnlessForward_later stage consistent member ready]
    exact ⟨.refl progress, fun _ yes => absurd yes ready⟩

theorem finalizeSubclasses_ran (consistent : Consistent defs types)
    (ran : ∀ c ∈ D, ∀ w, Stage defs D w → Progress types defs D w →
      Ran types defs D c w (finalize c w)) :
    ∀ (subs : List ClassId) {w : World Ty}, subs ⊆ D → Stage defs D w → Progress types defs D w →
      Keeps types defs D w (finalizeSubclasses finalize subs w).2 ∧
        ((finalizeSubclasses finalize subs w).1 = .ok () → ∀ k ∈ subs, Ready defs D k →
          Swept defs D k (finalizeSubclasses finalize subs w).2) := by
  intro subs
  induction subs with
  | nil =>
    intro w _ _ progress
    exact ⟨.refl progress, fun _ k member => absurd member not_mem_nil⟩
  | cons c subs ih =>
    intro w inside stage progress
    obtain ⟨here, later⟩ := cons_subset.mp inside
    obtain ⟨keeps, swept⟩ := finalizeUnlessForward_ran consistent ran here stage progress
    rw [finalizeSubclasses]
    generalize finalizeUnlessForward finalize c w = o at keeps swept
    obtain ⟨result, w'⟩ := o
    cases result with
    | error e => exact ⟨keeps, fun returns => nomatch returns⟩
    | ok x =>
      obtain ⟨keeps', swept'⟩ := ih later (keeps.same.stage stage) keeps.progress
      refine ⟨keeps.trans keeps', fun returns k member ready => ?_⟩
      rcases mem_cons.mp member with rfl | member
      · exact (swept rfl ready).extend keeps'.extend
      · exact swept' returns k member ready

theorem Stage.directSubclasses_subset (stage : Stage defs D w) (member : c ∈ D) :
    (w.directSubclasses c).reverse ⊆ D := by
  intro k here
  obtain ⟨d, -, rfl⟩ := stage.inside c member
  exact ((stage.subs d.name k).mp (mem_reverse.mp here)).1

theorem inherits_cases_last {d : ClassId} (path : Inherits defs d c) :
    d = c ∨ ∃ k, Inherits defs d k ∧ c ∈ hierarchy defs k := by
  rcases ReflTransGen.cases_tail path with same | ⟨k, rest, direct⟩
  · exact .inl same.symm
  · exact .inr ⟨k, rest, direct⟩

theorem swept_of_subclasses (stage : Stage defs D w) (member : c ∈ D)
    (full : Full defs D c) (final : (w.classes c).finalized = true)
    (subs : ∀ k ∈ w.directSubclasses c, Ready defs D k → Swept defs D k w) :
    Swept defs D c w := by
  obtain ⟨e, -, rfl⟩ := stage.inside c member
  have sub : ∀ k ∈ D, e.id ∈ hierarchy defs k → Ready defs D k → Swept defs D k w :=
    fun k inside direct ready => subs k ((stage.subs e.name k).mpr ⟨inside, direct⟩) ready
  -- a full class below a direct subclass makes that full, too
  have cover : ∀ d k, Full defs D d → Inherits defs d k → e.id ∈ hierarchy defs k →
      Swept defs D k w := by
    intro d k fullD path direct
    have fullK := fullD.above path
    rcases fullK k .refl with inside | base
    · exact sub k inside direct fullK.ready
    · exact absurd (base_of_inherits base (.single direct)) e.id_not_base
  refine ⟨full, fun d inside fullD path => ?_, fun d fullD path k inside direct ready => ?_⟩
  · rcases inherits_cases_last path with rfl | ⟨k, rest, direct⟩
    · exact final
    · exact (cover d k fullD rest direct).below d inside fullD rest
  · rcases inherits_cases_last path with rfl | ⟨k', rest, direct'⟩
    · exact (sub k inside direct ready).full
    · exact (cover d k' fullD rest direct').next d fullD rest k inside direct ready

theorem finalizeBody_ran (stage : Stage defs D w) (consistent : Consistent defs types)
    (progress : Progress types defs D w) {n : Nat}
    (ran : ∀ c ∈ D, ∀ w, Stage defs D w → Progress types defs D w →
      Ran types defs D c w (finalizeInheritance types n c w))
    (member : c ∈ D) : Ran types defs D c w (finalizeBody types n c w) := by
  cases finalizeCase stage consistent progress n member with
  | failed e body why =>
    rw [body]
    exact ⟨.refl progress, fun returns => nomatch returns⟩
  | redirect x inside unfinalized differ above callable incomplete body =>
    rw [body]
    have call := ran x inside w stage progress
    refine ⟨call.keeps, fun returns => ?_⟩
    have swept := call.swept returns
    refine ⟨?_, fun d here full path => swept.below d here full (path.trans above),
      fun d full path => swept.next d full (path.trans above)⟩
    by_contra notFull
    exact incomplete notFull swept.full
  | write w' full parents same progress' extend final body =>
    rw [body]
    have stage' := same.stage stage
    have keeps : Keeps types defs D w w' := ⟨same, progress', extend⟩
    obtain ⟨keeps', swept⟩ := finalizeSubclasses_ran consistent ran _
      (stage.directSubclasses_subset member) stage' progress'
    refine ⟨keeps.trans keeps', fun returns => ?_⟩
    have subs := (keeps.trans keeps').same.subs c
    refine swept_of_subclasses (keeps'.same.stage stage') member full
      (keeps'.extend.finalized c final) fun k direct ready => ?_
    refine swept returns k (mem_reverse.mpr ?_) ready
    rw [World.directSubclasses, ← subs]
    exact direct

theorem finishFinalization_world (c : ClassId) (o : Outcome Ty Unit) :
    (finishFinalization c o).2 = o.2 := by
  obtain ⟨result, w⟩ := o
  cases result with
  | error e => rfl
  | ok x =>
    rw [finishFinalization, Outcome.andThen]
    split
    · rfl
    · rfl
    · split
      · rfl
      · split <;> rfl
    · split <;> rfl
    · split <;> rfl

theorem finishFinalization_returns {o : Outcome Ty Unit}
    (returns : (finishFinalization c o).1 = .ok ()) : o.1 = .ok () := by
  obtain ⟨result, w⟩ := o
  cases result with
  | error e => cases returns
  | ok x => rfl

theorem finalizeInheritance_ran (consistent : Consistent defs types) (n : Nat) :
    ∀ c ∈ D, ∀ w, Stage defs D w → Progress types defs D w →
      Ran types defs D c w (finalizeInheritance types n c w) := by
  induction n with
  | zero =>
    intro c _ w _ progress
    exact ⟨.refl progress, fun returns => nomatch returns⟩
  | succ n ih =>
    intro c member w stage progress
    have body := finalizeBody_ran stage consistent progress ih member
    rw [finalizeInheritance_succ]
    refine ⟨?_, fun returns => ?_⟩
    · rw [finishFinalization_world]
      exact body.keeps
    · rw [finishFinalization_world]
      exact body.swept (finishFinalization_returns returns)

end

/- A call of FINALIZE-INHERITANCE returns when no class that it comes to has an
undefined class above. -/

open List Nat

variable {Ty : Type}

section

variable {types : Types Ty} {defs : List (Definition Ty)} {D : List ClassId} {w : World Ty}

variable (defs) in
open scoped Classical in
/-- The classes that inherit from a class. -/
noncomputable def heirs (c : ClassId) : Finset ClassId :=
  (defs.map Definition.id).toFinset.filter fun d => Inherits defs d c

variable (D w) in
def waiting : Finset ClassId := D.toFinset.filter fun c => (w.classes c).finalized = false

variable (defs D w) in
open scoped Classical in
/-- Bounds the nesting of the calls that one call makes: finalizing a class lowers the
first part, and turning to a class above or finalizing once more the second. -/
noncomputable def nesting (c : ClassId) : Nat :=
  (waiting D w).card * (defs.length + 3) +
    if (w.classes c).finalized = true then 2 + (heirs defs c).card
    else if ∀ p ∈ hierarchy defs c, (w.classes p).finalized = true then 0 else 1

variable {c : ClassId}

theorem mem_heirs {d : ClassId} :
    d ∈ heirs defs c ↔ d ∈ defs.map Definition.id ∧ Inherits defs d c := by
  classical
  rw [heirs, Finset.mem_filter, mem_toFinset]

variable (defs) in
theorem heirs_card_le (c : ClassId) : (heirs defs c).card ≤ defs.length := by
  classical
  calc (heirs defs c).card
      ≤ (defs.map Definition.id).toFinset.card := Finset.card_filter_le _ _
    _ ≤ (defs.map Definition.id).length := toFinset_card_le _
    _ = defs.length := length_map _

theorem waiting_card_le (D : List ClassId) (w : World Ty) : (waiting D w).card ≤ D.length :=
  le_trans (Finset.card_filter_le _ _) (toFinset_card_le _)

theorem heirs_lt (stage : Stage defs D w) (consistent : Consistent defs types) {k : ClassId}
    (member : c ∈ D) (sub : k ∈ D) (direct : c ∈ hierarchy defs k) :
    (heirs defs k).card < (heirs defs c).card := by
  obtain ⟨d, known, rfl⟩ := stage.inside c member
  obtain ⟨e, known', rfl⟩ := stage.inside k sub
  apply Finset.card_lt_card
  rw [Finset.ssubset_iff_of_subset]
  · refine ⟨d.id, ?_, ?_⟩
    · exact mem_heirs.mpr ⟨mem_map_of_mem known, .refl⟩
    · intro above
      exact consistent.acyclic known' direct (mem_heirs.mp above).2
  · intro a here
    obtain ⟨inside, path⟩ := mem_heirs.mp here
    exact mem_heirs.mpr ⟨inside, path.tail direct⟩

variable {w' : World Ty}

theorem waiting_mono (extend : Extends w w') : waiting D w' ⊆ waiting D w := by
  intro c here
  obtain ⟨inside, unfinalized⟩ := Finset.mem_filter.mp here
  refine Finset.mem_filter.mpr ⟨inside, Bool.eq_false_of_not_eq_true fun final => ?_⟩
  rw [extend.finalized c final] at unfinalized
  cases unfinalized

theorem waiting_card_lt (extend : Extends w w') (member : c ∈ D)
    (before : (w.classes c).finalized = false) (after : (w'.classes c).finalized = true) :
    (waiting D w').card < (waiting D w).card := by
  apply Finset.card_lt_card
  rw [Finset.ssubset_iff_of_subset (waiting_mono extend)]
  refine ⟨c, Finset.mem_filter.mpr ⟨mem_toFinset.mpr member, before⟩, fun still => ?_⟩
  rw [(Finset.mem_filter.mp still).2] at after
  cases after

theorem nesting_lt (D : List ClassId) (w : World Ty) (c : ClassId) :
    nesting defs D w c < ((waiting D w).card + 1) * (defs.length + 3) := by
  have heirsLe := heirs_card_le defs c
  unfold nesting
  rw [add_mul]
  split
  · omega
  · split <;> omega

theorem nesting_le_length (inside : D.length ≤ defs.length) (c : ClassId) :
    nesting defs D w c < (defs.length + 1) * (defs.length + 3) := by
  have bound :
    ((waiting D w).card + 1) * (defs.length + 3) ≤ (defs.length + 1) * (defs.length + 3) :=
    mul_le_mul_right _ (by have := waiting_card_le D w; omega)
  exact lt_of_lt_of_le (nesting_lt D w c) bound

theorem nesting_subclass (stage : Stage defs D w) (consistent : Consistent defs types) {k : ClassId}
    (extend : Extends w w') (final : (w'.classes c).finalized = true)
    (member : c ∈ D) (sub : k ∈ D) (direct : c ∈ hierarchy defs k) :
    nesting defs D w' k < nesting defs D w c := by
  by_cases before : (w.classes c).finalized = true
  · have fewer := heirs_lt stage consistent member sub direct
    have less : (waiting D w').card * (defs.length + 3) ≤ (waiting D w).card * (defs.length + 3) :=
      mul_le_mul_right _ (Finset.card_le_card (waiting_mono extend))
    rw [nesting, nesting, if_pos before]
    split
    · omega
    · split <;> omega
  · have fewer := waiting_card_lt extend member (Bool.eq_false_of_not_eq_true before) final
    calc nesting defs D w' k
        < ((waiting D w').card + 1) * (defs.length + 3) := nesting_lt D w' k
      _ ≤ (waiting D w).card * (defs.length + 3) := mul_le_mul_right _ fewer
      _ ≤ nesting defs D w c := le_add_right _ _

theorem nesting_redirect (progress : Progress types defs D w) {x : ClassId} (member : c ∈ D)
    (full : Full defs D c) (unfinalized : (w.classes x).finalized = false) (differ : x ≠ c)
    (above : Inherits defs c x)
    (parents : ∀ p ∈ hierarchy defs x, (w.classes p).finalized = true) :
    nesting defs D w x < nesting defs D w c := by
  have notFinal : ¬ (w.classes c).finalized = true := by
    intro final
    rw [(progress.above (.inl member) final above).1] at unfinalized
    cases unfinalized
  have someParent : ¬ ∀ p ∈ hierarchy defs c, (w.classes p).finalized = true := by
    intro all
    rcases ReflTransGen.cases_head above with same | ⟨p, direct, rest⟩
    · exact differ same.symm
    · rw [(progress.above (full p (.single direct)) (all p direct) rest).1] at unfinalized
      cases unfinalized
  rw [nesting, nesting, if_neg notFinal, if_neg someParent,
    if_neg (by rw [unfinalized]; exact Bool.false_ne_true), if_pos parents]
  omega

theorem finalizeSubclasses_returns (consistent : Consistent defs types)
    {finalize : ClassId → World Ty → Outcome Ty Unit}
    (ran : ∀ c ∈ D, ∀ w, Stage defs D w → Progress types defs D w →
      Ran types defs D c w (finalize c w)) :
    ∀ (subs : List ClassId) {w : World Ty}, subs ⊆ D → Stage defs D w → Progress types defs D w →
      (∀ w', Keeps types defs D w w' → ∀ k ∈ subs, Ready defs D k → (finalize k w').1 = .ok ()) →
      (finalizeSubclasses finalize subs w).1 = .ok () := by
  intro subs
  induction subs with
  | nil => exact fun _ _ _ _ => rfl
  | cons c subs ih =>
    intro w inside stage progress returns
    obtain ⟨here, later⟩ := cons_subset.mp inside
    have keeps := (finalizeUnlessForward_ran consistent ran here stage progress).1
    have first : (finalizeUnlessForward finalize c w).1 = .ok () := by
      by_cases ready : Ready defs D c
      · rw [finalizeUnlessForward_ready stage consistent here ready]
        exact returns w (.refl progress) c mem_cons_self ready
      · rw [finalizeUnlessForward_later stage consistent here ready]
    rw [finalizeSubclasses]
    generalize finalizeUnlessForward finalize c w = o at keeps first
    obtain ⟨result, w'⟩ := o
    cases first
    exact ih later (keeps.same.stage stage) keeps.progress fun w'' after k member =>
      returns w'' (keeps.trans after) k (mem_cons_of_mem _ member)

theorem finishFinalization_ok {o : Outcome Ty Unit} (returns : o.1 = .ok ())
    (std : (o.2.classes c).metaclass.isStd = true) {slots : List (Slot Ty)}
    (effective : (o.2.classes c).slots = some slots) : (finishFinalization c o).1 = .ok () := by
  obtain ⟨result, w⟩ := o
  cases returns
  rw [finishFinalization, Outcome.andThen]
  dsimp only at std effective ⊢
  split
  · rfl
  · rfl
  · rename_i structure'
    rw [structure'] at std
    cases std
  · rw [effective]
  · rw [effective]

variable (defs D) in
/-- No class below `r` is stuck right below a class with all classes above defined. -/
def Unblocked (r : ClassId) : Prop :=
  ∀ c, Full defs D c → Inherits defs c r →
    ∀ k ∈ D, c ∈ hierarchy defs k → Ready defs D k → Full defs D k

variable (defs D) in
/-- Only classes below `r` are still to be finalized. -/
def Remaining (r : ClassId) (w : World Ty) : Prop :=
  ∀ c ∈ D, Full defs D c → (w.classes c).finalized = false → Inherits defs c r

theorem Remaining.extend {r : ClassId} (remaining : Remaining defs D r w)
    (extend : Extends w w') : Remaining defs D r w' := by
  intro c member full unfinalized
  refine remaining c member full (Bool.eq_false_of_not_eq_true fun final => ?_)
  rw [extend.finalized c final] at unfinalized
  cases unfinalized

theorem finalizeInheritance_returns (consistent : Consistent defs types) {r : ClassId}
    (unblocked : Unblocked defs D r) (n : Nat) :
    ∀ c ∈ D, ∀ w, Stage defs D w → Progress types defs D w → Remaining defs D r w →
      Full defs D c → Callable defs w c → Inherits defs c r →
      walkBound defs + nesting defs D w c < n → (finalizeInheritance types n c w).1 = .ok () := by
  induction n with
  | zero =>
    intro c _ w _ _ _ _ _ _ enough
    omega
  | succ n ih =>
    intro c member w stage progress remaining full callable path enough
    have ran := finalizeBody_ran stage consistent progress
      (finalizeInheritance_ran consistent n) member
    have body : (finalizeBody types n c w).1 = .ok () := by
      cases finalizeCase stage consistent progress n member with
      | failed e body why => exact absurd ⟨full, callable, by omega⟩ why
      | redirect x inside unfinalized differ above parents incomplete body =>
        rw [body]
        have less := nesting_redirect progress member full unfinalized differ above
          (parents callable)
        exact ih x inside w stage progress remaining (full.above above)
          (fun p single => parents callable p (single ▸ mem_singleton_self p))
          (remaining x inside (full.above above) unfinalized) (by omega)
      | write w' _ parents same progress' extend final body =>
        rw [body]
        refine finalizeSubclasses_returns consistent (finalizeInheritance_ran consistent n) _
          (stage.directSubclasses_subset member) (same.stage stage) progress' ?_
        intro w'' keeps k here ready
        obtain ⟨d, -, rfl⟩ := stage.inside c member
        obtain ⟨sub, direct⟩ :=
          (stage.subs d.name k).mp (mem_reverse.mp here)
        have done := keeps.extend.finalized d.id final
        have less := nesting_subclass stage consistent (extend.trans keeps.extend) done member
          sub direct
        refine ih k sub w'' ((same.trans keeps.same).stage stage) keeps.progress
          (remaining.extend (extend.trans keeps.extend))
          (unblocked d.id full path k sub direct ready) (fun p single => ?_)
          (.head direct path) (by omega)
        rw [single, mem_singleton] at direct
        exact direct ▸ done
    have final := (ran.swept body).below c member full .refl
    obtain ⟨cpl, slots, finished⟩ := ran.keeps.progress.settled c member final
    rw [finalizeInheritance_succ]
    refine finishFinalization_ok body ?_ finished.effective
    obtain ⟨d, known, rfl⟩ := stage.inside c member
    rw [((ran.keeps.same.stage stage).defined d known member).metaclass]
    exact (consistent.metaclass d known).1

end

end Ecl.Clos
