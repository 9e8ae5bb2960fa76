import Ecl.Clos.Evaluate

/- The definitions of a set of classes in two orders. -/
namespace Ecl.Clos

open List

variable {Ty : Type}

theorem boot_not_forward (c : ClassId) :
    ((boot : World Ty).classes c).metaclass ≠ .forwardReferencedClass := by
  rcases boot_classes Ty c with ⟨name, known, rfl⟩ | ⟨blank, -⟩
  · cases name <;> simp [boot, ClassId.first, bootHierarchy, bootClass, blankClass]
  · rw [blank]
    simp [blankClass]

theorem boot_between (types : Types Ty) (defs : List (Definition Ty)) :
    Between types defs [] (boot : World Ty) := by
  refine ⟨⟨nofun, ⟨rfl, rfl, rfl⟩, ⟨rfl, rfl, rfl⟩, nofun, nofun, fun n c => ?_⟩,
    ⟨⟨rfl, rfl, rfl⟩, ⟨rfl, rfl, rfl⟩, fun p isForward => ?_, nofun, nofun⟩,
    ⟨rfl, rfl, fun n present => ?_, fun n _ _ => ⟨rfl, rfl⟩⟩, nofun⟩
  · exact iff_of_false not_mem_nil fun present => absurd present.1 not_mem_nil
  · exact absurd isForward.metaclass (boot_not_forward p)
  · rcases present with member | isForward
    · cases member
    · exact absurd isForward.metaclass (boot_not_forward _)

section

variable {types : Types Ty} {defs : List (Definition Ty)}

theorem defineAll_between (consistent : Consistent defs types) {limit : Nat} :
    ∀ {order : List (Definition Ty)} {D : List ClassId} {w w' : World Ty},
      Between types defs D w → order ⊆ defs → ((order.map Definition.id).reverse ++ D).Nodup →
      defineAll types (limit + 1) order w = (.ok (), w') →
      Safe defs D (order.map Definition.id) ∧
        Between types defs ((order.map Definition.id).reverse ++ D) w' := by
  intro order
  induction order with
  | nil =>
    intro D w w' between _ _ returns
    cases returns
    exact ⟨trivial, between⟩
  | cons d order ih =>
    intro D w w' between inside nodup returns
    obtain ⟨known, later⟩ := cons_subset.mp inside
    rw [map_cons, reverse_cons, append_assoc, singleton_append] at nodup ⊢
    have absent : d.id ∉ D := (nodup_cons.mp (nodup_append'.mp nodup).2.1).1
    rw [defineAll] at returns
    generalize defined : define types (limit + 1) d w = o at returns
    obtain ⟨result, w₁⟩ := o
    cases result with
    | error e => cases returns
    | ok c =>
      obtain ⟨safe, after⟩ := define_between between consistent known absent defined
      obtain ⟨safeLater, final⟩ := ih after later nodup returns
      exact ⟨⟨safe, safeLater⟩, final⟩

theorem defineAll_returns (consistent : Consistent defs types) {limit : Nat}
    (enough : defineLimit defs ≤ limit) :
    ∀ {order : List (Definition Ty)} {D : List ClassId} {w : World Ty},
      Between types defs D w → order ⊆ defs → ((order.map Definition.id).reverse ++ D).Nodup →
      Safe defs D (order.map Definition.id) →
      ∃ w', defineAll types (limit + 1) order w = (.ok (), w') := by
  intro order
  induction order with
  | nil => exact fun {_ w} _ _ _ _ => ⟨w, rfl⟩
  | cons d order ih =>
    intro D w between inside nodup safe
    obtain ⟨known, later⟩ := cons_subset.mp inside
    rw [map_cons, reverse_cons, append_assoc, singleton_append] at nodup
    have nodup' := (nodup_append'.mp nodup).2.1
    obtain ⟨w₁, defined⟩ := define_returns between consistent known nodup' enough safe.1
    have after := (define_between between consistent known (nodup_cons.mp nodup').1 defined).2
    obtain ⟨w', returns⟩ := ih after later nodup safe.2
    refine ⟨w', ?_⟩
    rw [defineAll, defined]
    exact returns

variable {c : ClassId}

theorem Linear.length_lt {a : ClassId} {cpl cpl' : List ClassId}
    (linear : Linear (hierarchy defs) c cpl) (linear' : Linear (hierarchy defs) a cpl')
    (above : Inherits defs c a) (differ : ¬ Inherits defs a c) : cpl'.length < cpl.length := by
  obtain ⟨rest, rfl⟩ := linear.head
  have subset : cpl' ⊆ rest := by
    intro e inside
    have path := (linear'.mem e).mp inside
    have member := (linear.mem e).mpr (above.trans path)
    refine (mem_cons.mp member).resolve_left ?_
    rintro rfl
    exact differ path
  have shorter := (subperm_of_subset linear'.nodup subset).length_le
  exact Nat.lt_succ_of_le shorter

variable {d : Definition Ty}

theorem Consistent.not_inherits (consistent : Consistent defs types)
    (known : d ∈ defs) {a : ClassId} (above : Inherits defs d.id a) (differ : a ≠ d.id) :
    ¬ Inherits defs a d.id := by
  intro back
  rcases Relation.ReflTransGen.cases_head above with same | ⟨p, direct, rest⟩
  · exact differ same.symm
  · exact consistent.acyclic known direct (rest.trans back)

variable {D D' : List ClassId} {w w' : World Ty}

theorem computeSlots_agree (consistent : Consistent defs types)
    (stage : Stage defs D w) (stage' : Stage defs D' w')
    (known : d ∈ defs) (member : d.id ∈ D) (member' : d.id ∈ D') {cpl : List ClassId}
    (present : ∀ a ∈ cpl, (a ∈ D ∨ Base a) ∧ (a ∈ D' ∨ Base a))
    (slots : ∀ a ∈ cpl, a ≠ d.id → (w'.classes a).slots = (w.classes a).slots) :
    computeSlots types w' d.id cpl = computeSlots types w d.id cpl := by
  have defines := stage.defined d known member
  have defines' := stage'.defined d known member'
  refine computeSlots_congr (defines'.metaclass.trans defines.metaclass.symm)
    (defines'.slots.trans defines.slots.symm) (fun a inside => ?_) slots
  obtain ⟨here, there⟩ := present a inside
  exact (stage'.directSlots consistent there).trans (stage.directSlots consistent here).symm

theorem Between.agree (consistent : Consistent defs types)
    (between : Between types defs D w) (between' : Between types defs D' w')
    (same : ∀ c, c ∈ D ↔ c ∈ D') (n : Nat) :
    ∀ (c : ClassId) (cpl : List ClassId), c ∈ D ∨ Base c → Full defs D c →
      w.precedenceList c = some cpl → cpl.length = n →
      w'.precedenceList c = some cpl ∧ (w'.classes c).slots = (w.classes c).slots := by
  induction n using Nat.strongRecOn with
  | ind n ih =>
    intro c cpl present full stored length
    have present' : ∀ a, a ∈ D ∨ Base a → a ∈ D' ∨ Base a := fun a known =>
      known.imp_left (same a).mp
    rcases present with member | rfl | rfl
    · obtain ⟨d, known, rfl⟩ := between.stage.inside c member
      have member' := (same d.id).mp member
      have final := between.complete d.id member full
      have final' := between'.complete d.id member' fun a path => present' a (full a path)
      obtain ⟨list, slots, finished⟩ := between.progress.settled d.id member final
      obtain ⟨list', slots', finished'⟩ := between'.progress.settled d.id member' final'
      cases finished.stored.symm.trans stored
      have above : ∀ a, Inherits defs d.id a → a ≠ d.id →
          w'.precedenceList a = w.precedenceList a ∧
            (w'.classes a).slots = (w.classes a).slots := by
        intro a path differ
        obtain ⟨final, present⟩ := between.progress.above (.inl member) final path
        obtain ⟨listA, storedA, linearA⟩ := between.progress.linear present final
        have shorter := finished.linear.length_lt linearA path
          (consistent.not_inherits known path differ)
        obtain ⟨lists, slots⟩ :=
          ih listA.length (by omega) a listA present (full.above path) storedA rfl
        exact ⟨lists.trans storedA.symm, slots⟩
      have lists : list' = cpl := by
        rcases single_or_several (hierarchy_ne_nil between.stage consistent member) with
          ⟨p, single⟩ | several
        · have direct : p ∈ hierarchy defs d.id := single ▸ mem_singleton_self p
          have differ : p ≠ d.id := fun here => finished.linear.not_direct (here ▸ direct)
          obtain ⟨rest, storedP, rfl⟩ := finished.chosen.1 p single
          obtain ⟨rest', storedP', rfl⟩ := finished'.chosen.1 p single
          rw [(above p (.single direct) differ).1, storedP] at storedP'
          cases storedP'
          rfl
        · obtain ⟨m, computed⟩ := finished.chosen.2 several
          obtain ⟨m', computed'⟩ := finished'.chosen.2 several
          exact computeClosClassPrecedenceList_unique several (fun _ _ => rfl) computed computed'
      subst lists
      refine ⟨finished'.stored, ?_⟩
      have computed := computeSlots_agree consistent between.stage between'.stage known member
        member' (fun a inside => by
          have known := full a ((finished.linear.mem a).mp inside)
          exact ⟨known, present' a known⟩)
        fun a inside differ => (above a ((finished.linear.mem a).mp inside) differ).2
      rw [finished.computed, finished'.computed] at computed
      cases computed
      exact finished'.effective.trans finished.effective.symm
    · rw [between.progress.root.2.2, between'.progress.root.2.2, ← stored,
        between.progress.root.2.1, between'.progress.root.2.1]
      exact ⟨rfl, rfl⟩
    · rw [between.progress.top.2.2, between'.progress.top.2.2, ← stored,
        between.progress.top.2.1, between'.progress.top.2.1]
      exact ⟨rfl, rfl⟩

/-- The same precedence list, and the same effective slots with the same locations, in a
class that is finalized in both. -/
structure SameClass (w w' : World Ty) (c : ClassId) : Prop where
  finalized : (w.classes c).finalized = true ∧ (w'.classes c).finalized = true
  list : ∃ cpl, w.precedenceList c = some cpl ∧ w'.precedenceList c = some cpl
  slots : ∃ slots, (w.classes c).slots = some slots ∧ (w'.classes c).slots = some slots

/-- Neither run signals an error, and both leave the same classes. -/
def OrderIrrelevant (types : Types Ty) (limit : Nat) (order order' : List (Definition Ty)) : Prop :=
  ∃ w w', defineAll types limit order boot = (.ok (), w) ∧
    defineAll types limit order' boot = (.ok (), w') ∧ ∀ d ∈ order, SameClass w w' d.id

theorem Consistent.order_nodup (consistent : Consistent defs types) {order : List (Definition Ty)}
    (perm : order.Perm defs) : ((order.map Definition.id).reverse ++ []).Nodup := by
  rw [append_nil, nodup_reverse, (perm.map Definition.id).nodup_iff]
  exact (nodup_append'.mp consistent.allClasses_nodup).1

theorem Consistent.full_at_end (consistent : Consistent defs types) {order : List (Definition Ty)}
    (perm : order.Perm defs) (known : d ∈ defs) :
    Full defs ((order.map Definition.id).reverse ++ []) d.id := by
  intro a path
  have inside := consistent.inherits_inside
    (mem_append_left _ (mem_map_of_mem known)) path
  rcases mem_append.mp inside with member | base
  · rw [append_nil, mem_reverse, (perm.map Definition.id).mem_iff]
    exact .inl member
  · rcases mem_cons.mp base with same | same
    · exact .inr (.inl same)
    · exact .inr (.inr (mem_singleton.mp same))

theorem Between.sameClass (consistent : Consistent defs types)
    (between : Between types defs D w) (between' : Between types defs D' w')
    (same : ∀ c, c ∈ D ↔ c ∈ D') (member : c ∈ D) (full : Full defs D c) :
    SameClass w w' c := by
  have final := between.complete c member full
  have final' := between'.complete c ((same c).mp member) fun a path =>
    (full a path).imp_left (same a).mp
  obtain ⟨cpl, slots, finished⟩ := between.progress.settled c member final
  obtain ⟨list, effective⟩ := between.agree consistent between' same cpl.length c cpl (.inl member)
    full finished.stored rfl
  exact ⟨⟨final, final'⟩, ⟨cpl, finished.stored, list⟩,
    ⟨slots, finished.effective, effective.trans finished.effective⟩⟩

theorem full_of_closed
    (closed : ∀ c ∈ D, ∀ p ∈ hierarchy defs c, p ∈ D ∨ p = rootClass ∨ p = topClass)
    (member : c ∈ D) : Full defs D c := by
  intro a path
  induction path with
  | refl => exact .inl member
  | @tail b a _ direct ih =>
    rcases ih with inside | base
    · exact closed b inside a direct
    · exact .inr (base_of_inherits base (.single direct))

end

/-- A slot with a name only. -/
def plainSlot (name : Nat) : Slot Unit := ⟨name, none, (), false, [], [], [], none⟩

def chainClass (name : Nat) (superclasses : List ClassName) : Definition Unit :=
  ⟨name, .standardClass, superclasses, [plainSlot name]⟩

/-- The second class inherits from the first and the third from the second. -/
def chain : List (Definition Unit) :=
  [chainClass 0 [], chainClass 1 [.other 0], chainClass 2 [.other 1]]

def chainRank (c : ClassId) : Nat :=
  match c.name with
  | some (.other n) => 2 - n
  | some .standardObject => 3
  | _ => 4

theorem chain_ranked (c : ClassId) : Ranked (hierarchy chain) chainRank c := by
  unfold Ranked hierarchy
  split
  · rename_i d found
    have member := mem_of_find?_eq_some found
    have same := List.find?_some found
    rw [decide_eq_true_eq] at same
    simp only [chain, mem_cons, not_mem_nil, or_false] at member
    subst same
    rcases member with rfl | rfl | rfl <;> decide
  · split
    · rename_i same
      subst same
      decide
    · exact pairwise_singleton _ _

theorem chain_consistent : Consistent chain oneType := by
  refine ⟨by decide, ?_, by decide, fun d _ => ⟨chainRank, fun c _ => chain_ranked c⟩,
    fun d _ cpl _ => effectiveSlots_unplaced oneType (by decide) cpl⟩
  intro d member s named
  simp only [chain, mem_cons, not_mem_nil, or_false] at member
  rcases member with rfl | rfl | rfl
  · cases named
  · exact .inr (.inr ⟨chainClass 0 [], by simp [chain], mem_singleton.mp named⟩)
  · exact .inr (.inr ⟨chainClass 1 [.other 0], by simp [chain], mem_singleton.mp named⟩)

/-- The two subclasses before their superclasses, from the bottom up. -/
def chainReversed : List (Definition Unit) :=
  [chainClass 2 [.other 1], chainClass 1 [.other 0], chainClass 0 []]

/-- The third class after the second, and the first class last. -/
def chainStuck : List (Definition Unit) :=
  [chainClass 1 [.other 0], chainClass 2 [.other 1], chainClass 0 []]

theorem safeStep_of_closed {Ty : Type} {defs : List (Definition Ty)}
    {D : List ClassId} {x : ClassId}
    (closed : ∀ c ∈ D, ∀ p ∈ hierarchy defs c, p ∈ D ∨ p = rootClass ∨ p = topClass) :
    SafeStep defs D x :=
  fun _ member _ _ => full_of_closed closed member

theorem safeStep_of_missing {Ty : Type} {defs : List (Definition Ty)} {D : List ClassId}
    {x p : ClassId} (direct : p ∈ hierarchy defs x)
    (missing : ¬ (p ∈ D ∨ p = rootClass ∨ p = topClass)) : SafeStep defs D x := by
  intro c _ ready related
  rcases related with rfl | ⟨q, -, full, path⟩
  · exact absurd (ready p direct) missing
  · exact absurd (full p (path.tail direct)) missing

end Ecl.Clos
