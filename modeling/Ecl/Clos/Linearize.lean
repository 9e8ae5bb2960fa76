import Ecl.Lib.Stable
import Ecl.Lib.Select
import Mathlib.Algebra.Ring.Nat

/- The class precedence list, from the direct superclasses. -/
namespace Ecl.Clos

open List Relation

inductive ClassError where
  /-- The control stack is exhausted. -/
  | exhausted
  /-- "A cycle has been detected in the class precedence list" -/
  | cycle
  /-- The precedence list of a class that was never finalized is no list. -/
  | notSequence
  /-- A slot of NIL. -/
  | notInstance
  /-- "Cannot finish building the class ... because it contains a reference to
  the undefined class" -/
  | undefinedClass
  /-- "When redefining a class, the metaclass can not change." -/
  | metaclass
  /-- "The kernel CLOS class cannot be changed." -/
  | kernelClass
  /-- "No :DIRECT-SUPERCLASS argument was supplied for metaclass" -/
  | noSuperclass
  /-- FIND-CLASS of a name without a class. -/
  | noClass
  /-- "You have specified two conflicting slot locations" -/
  | conflictingLocations
  /-- "Slots are said to have the same location" -/
  | sameLocation
  /-- "The structure class can't have shared slots" -/
  | sharedSlots
  deriving DecidableEq

section

variable {α : Type} [DecidableEq α] (supers : α → List α)

/-- walk-supers: the classes above the given ones, and the lists that order
them. -/
def walkSupers : Nat → List α → List α → List (List α) →
    Except ClassError (List α × List (List α))
  | _, [], classList, precedenceLists => .ok (classList, precedenceLists)
  | 0, _, _, _ => .error .exhausted
  | n + 1, nextClass :: superclasses, classList, precedenceLists =>
    if nextClass ∈ classList then walkSupers n superclasses classList precedenceLists
    else
      walkSupers n (supers nextClass ++ superclasses) (nextClass :: classList)
        ((nextClass :: supers nextClass) :: precedenceLists)

def hasNoPrecedent (c : α) (precedenceLists : List (List α)) : Bool :=
  precedenceLists.all fun partialOrder => c ∉ partialOrder.tail

def freeElements (classList : List α) (precedenceLists : List (List α)) : List α :=
  (classList.filter fun c => hasNoPrecedent c precedenceLists).reverse

/-- next-element: of several candidates, the first direct superclass of the class
placed last. -/
def nextElement (freeList cpl : List α) : Option α :=
  match freeList with
  | [] => none
  | [c] => some c
  | _ => (cpl.flatMap supers).find? (· ∈ freeList)

def deleteClass (c : α) (precedenceLists : List (List α)) : List (List α) :=
  (precedenceLists.map fun oneList => if oneList.head? =
    some c then oneList.tail else oneList).filter
    (· ≠ [])

/-- The loop of COMPUTE-CLOS-CLASS-PRECEDENCE-LIST. -/
def placeClasses : Nat → List α → List (List α) → List α → Except ClassError (List α)
  | _, [], precedenceLists, cpl =>
    if precedenceLists = [] then .ok cpl.reverse else .error .cycle
  | 0, _, _, _ => .error .exhausted
  | n + 1, classList, precedenceLists, cpl =>
    match nextElement supers (freeElements classList precedenceLists) cpl with
    | none => .error .cycle
    | some next =>
      placeClasses n (classList.filter (· ≠ next)) (deleteClass next precedenceLists)
        (next :: cpl)

/-- compute-clos-class-precedence-list. A single superclass contributes the
precedence list that is stored in it. -/
def computeClosClassPrecedenceList (limit : Nat) (stored : α → Option (List α)) (newClass : α)
    (superclasses : List α) : Except ClassError (List α) :=
  match superclasses with
  | [] => .error .notInstance
  | [c] =>
    match stored c with
    | some cpl => .ok (newClass :: cpl)
    | none => .error .notSequence
  | _ => do
      let (classList, precedenceLists) ← walkSupers supers limit superclasses [] [superclasses]
      placeClasses supers classList.length classList precedenceLists [newClass]

end

section Walk

variable {α : Type} {supers : α → List α}

def Direct (supers : α → List α) (c d : α) : Prop := d ∈ supers c

/-- The classes that the given ones inherit from, themselves included. -/
def Above (supers : α → List α) (classes : List α) (d : α) : Prop :=
  ∃ c ∈ classes, Relation.ReflTransGen (Direct supers) c d

variable [DecidableEq α]

/-- The state of the walk: what is done and what is waiting covers the classes
above the start. -/
structure Walking (supers : α → List α) (start waiting classList : List α)
    (precedenceLists : List (List α)) : Prop where
  nodup : classList.Nodup
  lists : precedenceLists = classList.map (fun c => c :: supers c) ++ [start]
  above : ∀ c ∈ classList ++ waiting, Above supers start c
  started : ∀ c ∈ start, c ∈ classList ∨ c ∈ waiting
  closed : ∀ c ∈ classList, ∀ d ∈ supers c, d ∈ classList ∨ d ∈ waiting

/-- The steps that the walk still needs when all classes are in `universe`. -/
def walkSize (supers : α → List α) (everything waiting classList : List α) : Nat :=
  waiting.length + ((everything.filter (· ∉ classList)).map fun c => (supers c).length).sum

theorem walkSize_visit {everything waiting classList : List α} {c : α} (nodup : everything.Nodup)
    (member : c ∈ everything) (fresh : c ∉ classList) :
    walkSize supers everything (supers c ++ waiting) (c :: classList) + 1 =
      walkSize supers everything (c :: waiting) classList := by
  have remaining : everything.filter (· ∉ c :: classList) =
      (everything.filter (· ∉ classList)).filter (· ≠ c) := by
    rw [filter_filter]
    refine filter_congr fun d _ => ?_
    simp [not_or]
  have inside : c ∈ everything.filter (· ∉ classList) :=
    mem_filter.mpr ⟨member, by simpa using fresh⟩
  have perm := Select.filter_ne_perm (nodup.filter _) inside
  have sum := (perm.map fun d => (supers d).length).sum_nat
  simp only [walkSize, remaining, length_append, length_cons, map_cons,
    sum_cons] at sum ⊢
  omega

theorem walkSupers_walking {everything start : List α} (nodup : everything.Nodup)
    (inside : ∀ c, Above supers start c → c ∈ everything) (n : Nat) :
    ∀ {waiting classList : List α} {precedenceLists : List (List α)},
      walkSize supers everything waiting classList ≤ n →
      Walking supers start waiting classList precedenceLists →
      ∃ classes lists, walkSupers supers n waiting classList precedenceLists =
        .ok (classes, lists) ∧
        Walking supers start [] classes lists := by
  induction n with
  | zero =>
    intro waiting classList precedenceLists bound walking
    cases waiting with
    | nil => exact ⟨classList, precedenceLists, rfl, walking⟩
    | cons c waiting => simp [walkSize] at bound
  | succ n ih =>
    intro waiting classList precedenceLists bound walking
    cases waiting with
    | nil => exact ⟨classList, precedenceLists, rfl, walking⟩
    | cons c waiting =>
      have above := walking.above c (by simp)
      by_cases done : c ∈ classList
      · simp only [walkSupers, done, if_true]
        refine ih ?_ ⟨walking.nodup, walking.lists, ?_, ?_, ?_⟩
        · simp only [walkSize, length_cons] at bound ⊢
          omega
        · intro d member
          exact walking.above d (by simp only [mem_append, mem_cons] at member ⊢; tauto)
        · intro d member
          rcases walking.started d member with placed | waits
          · exact .inl placed
          · rcases mem_cons.mp waits with rfl | waits
            · exact .inl done
            · exact .inr waits
        · intro d placed e member
          rcases walking.closed d placed e member with placed | waits
          · exact .inl placed
          · rcases mem_cons.mp waits with rfl | waits
            · exact .inl done
            · exact .inr waits
      · simp only [walkSupers, done, if_false]
        have size : walkSize supers everything (supers c ++ waiting) (c :: classList) + 1 =
            walkSize supers everything (c :: waiting) classList :=
          walkSize_visit nodup (inside c above) done
        refine ih (by omega) ⟨nodup_cons.mpr ⟨done, walking.nodup⟩, ?_, ?_, ?_, ?_⟩
        · rw [walking.lists]
          rfl
        · intro d member
          simp only [mem_append, mem_cons] at member
          rcases member with (rfl | placed) | above' | waits
          · exact above
          · exact walking.above d (by simp [placed])
          · obtain ⟨b, from', path⟩ := above
            exact ⟨b, from', path.tail above'⟩
          · exact walking.above d (by simp [waits])
        · intro d member
          rcases walking.started d member with placed | waits
          · exact .inl (mem_cons_of_mem _ placed)
          · rcases mem_cons.mp waits with rfl | waits
            · exact .inl mem_cons_self
            · exact .inr (mem_append_right _ waits)
        · intro d placed e member
          rcases mem_cons.mp placed with rfl | placed
          · exact .inr (mem_append_left _ member)
          · rcases walking.closed d placed e member with placed | waits
            · exact .inl (mem_cons_of_mem _ placed)
            · rcases mem_cons.mp waits with rfl | waits
              · exact .inl mem_cons_self
              · exact .inr (mem_append_right _ waits)

omit [DecidableEq α] in
theorem Walking.mem_iff {start classList : List α} {precedenceLists : List (List α)}
    (walking : Walking supers start [] classList precedenceLists) {c : α} :
    c ∈ classList ↔ Above supers start c := by
  refine ⟨fun member => walking.above c (by simpa using member), ?_⟩
  rintro ⟨b, member, path⟩
  induction path with
  | refl => exact (walking.started b member).resolve_right not_mem_nil
  | tail _ step ih => exact (walking.closed _ ih _ step).resolve_right not_mem_nil

end Walk

section Place

variable {α : Type} [DecidableEq α] {supers : α → List α}

/-- What is left of the ordering lists when the classes in `classList` are still
to be placed. -/
def leftOver (orders : List (List α)) (classList : List α) : List (List α) :=
  (orders.map fun order => order.filter (· ∈ classList)).filter (· ≠ [])

/-- A rank of the classes that increases along every ordering list. -/
def Ranked (supers : α → List α) (rank : α → Nat) (c : α) : Prop :=
  (c :: supers c).Pairwise fun a b => rank a < rank b

variable {orders : List (List α)} {classList : List α} {c : α}

theorem free_iff (member : c ∈ classList) : hasNoPrecedent c (leftOver orders classList) = true ↔
      ∀ order ∈ orders, ∀ a ∈ classList, ¬ [a, c].Sublist order := by
  simp only [hasNoPrecedent, leftOver, all_eq_true, mem_filter, mem_map,
    decide_eq_true_eq, Before.mem_tail_iff, not_exists]
  constructor
  · intro free order present a memberA sub
    have filtered : [a, c].Sublist (order.filter (· ∈ classList)) :=
      Before.filter_iff.mpr ⟨sub, by simpa using memberA, by simpa using member⟩
    refine free _ ⟨⟨order, present, rfl⟩, ?_⟩ a filtered
    intro empty
    rw [empty] at filtered
    cases filtered
  · rintro free _ ⟨⟨order, present, rfl⟩, -⟩ a filtered
    obtain ⟨sub, memberA, -⟩ := Before.filter_iff.mp filtered
    exact free order present a (by simpa using memberA) sub

theorem filter_ne_of_free {l : List α} (free : c ∉ l.tail) :
    l.filter (· ≠ c) = if l.head? = some c then l.tail else l := by
  cases l with
  | nil => simp
  | cons x l =>
    have rest : l.filter (· ≠ c) = l := by
      refine filter_eq_self.mpr fun y member => ?_
      simp only [decide_eq_true_eq]
      rintro rfl
      exact free member
    by_cases here : x = c
    · subst here
      simpa using rest
    · simpa [here] using rest

theorem deleteClass_leftOver (free : ∀ order ∈ orders, c ∉ (order.filter (· ∈ classList)).tail) :
    deleteClass c (leftOver orders classList) = leftOver orders (classList.filter (· ≠ c)) := by
  induction orders with
  | nil => rfl
  | cons order orders ih =>
    obtain ⟨here, later⟩ := forall_mem_cons.mp free
    have next := ih later
    have removed : order.filter (· ∈ classList.filter (· ≠ c)) =
        (order.filter (· ∈ classList)).filter (· ≠ c) := by
      rw [filter_filter]
      refine filter_congr fun d _ => ?_
      simp [and_comm]
    have shortened := filter_ne_of_free here
    simp only [deleteClass, leftOver, map_cons] at next ⊢
    rw [removed, shortened]
    by_cases empty : order.filter (· ∈ classList) = []
    · simp only [empty, ne_eq, not_true_eq_false, decide_false, Bool.false_eq_true,
        not_false_eq_true, filter_cons_of_neg, List.head?_nil, reduceCtorEq, if_false]
      exact next
    · rw [filter_cons_of_pos (by simpa using empty), map_cons, filter_cons,
        filter_cons, next]

theorem leftOver_nil (orders : List (List α)) : leftOver orders [] = [] := by
  simp [leftOver]

theorem leftOver_all (inside : ∀ order ∈ orders, order ≠ [] ∧ order ⊆ classList) :
    leftOver orders classList = orders := by
  induction orders with
  | nil => rfl
  | cons order orders ih =>
    obtain ⟨⟨nonempty, subset⟩, later⟩ := forall_mem_cons.mp inside
    have whole : order.filter (· ∈ classList) = order :=
      filter_eq_self.mpr fun c member => by simpa using subset member
    have rest := ih later
    unfold leftOver at rest ⊢
    rw [map_cons, whole, filter_cons_of_pos (by simpa using nonempty), rest]

end Place

/-- A list of the classes above a class, the class itself first and each class
before its direct superclasses, which keep their order. -/
structure Linear {α : Type} (supers : α → List α) (c : α) (cpl : List α) : Prop where
  head : ∃ rest, cpl = c :: rest
  nodup : cpl.Nodup
  mem : ∀ d, d ∈ cpl ↔ Relation.ReflTransGen (Direct supers) c d
  ordered : ∀ d ∈ cpl, ∀ a b, [a, b].Sublist (d :: supers d) → [a, b].Sublist cpl

section Linear

variable {α : Type} {supers : α → List α}

variable {c d : α}

theorem Linear.before {e : α} {cpl : List α} (linear : Linear supers c cpl)
    (member : d ∈ cpl) (path : TransGen (Direct supers) d e) : [d, e].Sublist cpl := by
  have step : ∀ {d e}, d ∈ cpl → e ∈ supers d → [d, e].Sublist cpl := fun {d e} member direct =>
    linear.ordered d member d e ((singleton_sublist.mpr direct).cons_cons d)
  induction path with
  | single direct => exact step member direct
  | tail _ direct ih => exact Before.trans linear.nodup ih (step (ih.subset (by simp)) direct)

theorem Linear.single {cpl : List α} (linear : Linear supers d cpl)
    (direct : supers c = [d]) (acyclic : ¬ ReflTransGen (Direct supers) d c) :
    Linear supers c (c :: cpl) := by
  have fresh : c ∉ cpl := fun member => acyclic ((linear.mem c).mp member)
  refine ⟨⟨cpl, rfl⟩, nodup_cons.mpr ⟨fresh, linear.nodup⟩, fun e => ?_, ?_⟩
  · rw [mem_cons, linear.mem]
    constructor
    · rintro (rfl | path)
      · exact .refl
      · exact .head (by rw [Direct, direct]; exact mem_cons_self) path
    · intro path
      rcases ReflTransGen.cases_head path with same | ⟨b, step, path⟩
      · exact .inl same.symm
      · rw [Direct, direct, mem_singleton] at step
        exact .inr (step ▸ path)
  · intro e member a b sub
    rcases mem_cons.mp member with rfl | member
    · rw [direct] at sub
      obtain ⟨rest, rfl⟩ := linear.head
      exact sub.trans (((nil_sublist rest).cons_cons d).cons_cons e)
    · exact (linear.ordered e member a b sub).cons c

theorem mem_of_reaches {classes : List α} (mem : ∀ d, d ∈ classes ↔ Above supers (supers c) d) :
    d = c ∨ d ∈ classes ↔ ReflTransGen (Direct supers) c d := by
  rw [mem]
  constructor
  · rintro (rfl | ⟨b, direct, path⟩)
    · exact .refl
    · exact .head direct path
  · intro path
    rcases ReflTransGen.cases_head path with same | ⟨b, direct, path⟩
    · exact .inl same.symm
    · exact .inr ⟨b, direct, path⟩

theorem rank_lt {rank : α → Nat}
    (ranked : ∀ d, ReflTransGen (Direct supers) c d → Ranked supers rank d)
    (path : TransGen (Direct supers) c d) : rank c < rank d := by
  have step : ∀ {a b}, ReflTransGen (Direct supers) c a → b ∈ supers a →
      rank a < rank b := fun {a b} reaches direct =>
    (pairwise_cons.mp (ranked a reaches)).1 b direct
  induction path with
  | single direct => exact step .refl direct
  | tail path direct ih => exact Nat.lt_trans ih (step path.to_reflTransGen direct)

end Linear

end Ecl.Clos
