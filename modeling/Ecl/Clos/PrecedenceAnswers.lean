import Ecl.Clos.PrecedenceOrder
import Mathlib.Data.Finset.Max
import Mathlib.Data.Set.Finite.Basic

/- When the computation of a precedence list answers with the topological order, or with
a cycle where there is none. -/
namespace Ecl.Clos

open List Relation

section Whole

variable {α : Type} [DecidableEq α]

/-- COMPUTE-CLOS-CLASS-PRECEDENCE-LIST without its case of a single superclass. -/
def generalPrecedenceList (supers : α → List α) (limit : Nat) (newClass : α)
    (superclasses : List α) : Except ClassError (List α) := do
  let (classList, precedenceLists) ← walkSupers supers limit superclasses [] [superclasses]
  placeClasses supers classList.length classList precedenceLists [newClass]

variable {supers : α → List α} {c : α}

variable {limit : Nat}

theorem computeClosClassPrecedenceList_general {stored : α → Option (List α)}
    {superclasses : List α} (several : 2 ≤ superclasses.length) :
    computeClosClassPrecedenceList supers limit stored c superclasses =
      generalPrecedenceList supers limit c superclasses := by
  match superclasses, several with
  | a :: b :: rest, _ => rfl

/-- The classes and the ordering lists after the walk. -/
structure Orders (supers : α → List α) (c : α) (classes : List α) (orders : List (List α)) :
    Prop where
  nodup : classes.Nodup
  orders : orders = classes.map (fun d => d :: supers d) ++ [supers c]
  mem : ∀ d, d ∈ classes ↔ Above supers (supers c) d

variable {classes : List α} {orders : List (List α)} {d : α}

omit [DecidableEq α] in
theorem Orders.closed (walked : Orders supers c classes orders) {e : α}
    (known : d = c ∨ d ∈ classes)
    (direct : e ∈ supers d) : e ∈ classes := by
  rw [walked.mem]
  rcases known with rfl | member
  · exact ⟨e, direct, .refl⟩
  · obtain ⟨b, start, path⟩ := (walked.mem d).mp member
    exact ⟨b, start, path.tail direct⟩

omit [DecidableEq α] in
theorem Orders.reaches (walked : Orders supers c classes orders) (d : α) :
    d = c ∨ d ∈ classes ↔ ReflTransGen (Direct supers) c d :=
  mem_of_reaches walked.mem

omit [DecidableEq α] in
theorem Orders.own (walked : Orders supers c classes orders) (member : d ∈ classes) :
    (d :: supers d) ∈ orders := by
  rw [walked.orders]
  exact mem_append_left _ (mem_map_of_mem member)

omit [DecidableEq α] in
theorem Orders.cases (walked : Orders supers c classes orders) {order : List α}
    (present : order ∈ orders) :
    (∃ d ∈ classes, order = d :: supers d) ∨ order = supers c := by
  rw [walked.orders] at present
  rcases mem_append.mp present with member | member
  · obtain ⟨d, inside, rfl⟩ := mem_map.mp member
    exact .inl ⟨d, inside, rfl⟩
  · exact .inr (mem_singleton.mp member)

omit [DecidableEq α] in
theorem Orders.waiting (walked : Orders supers c classes orders) :
    Waiting supers orders classes [c] := by
  intro x member
  obtain ⟨b, start, path⟩ := (walked.mem x).mp member
  rcases ReflTransGen.cases_tail path with same | ⟨d, path, direct⟩
  · exact ⟨c, same ▸ start, .inl mem_cons_self⟩
  · have inside := (walked.mem d).mpr ⟨b, start, path⟩
    exact ⟨d, direct, .inr ⟨inside, walked.own inside⟩⟩

theorem Orders.leftOver (walked : Orders supers c classes orders) (nonempty : supers c ≠ []) :
    leftOver orders classes = orders := by
  refine leftOver_all fun order present => ?_
  rcases walked.cases present with ⟨d, member, rfl⟩ | rfl
  · exact ⟨cons_ne_nil _ _,
      cons_subset.mpr ⟨member, fun e direct => walked.closed (.inr member) direct⟩⟩
  · exact ⟨nonempty, fun e direct => walked.closed (.inl rfl) direct⟩

variable {cpl : List α}

omit [DecidableEq α] in
theorem Orders.fresh {rest : List α} (walked : Orders supers c classes orders)
    (arranged : Arranged supers orders classes cpl rest) : c ∉ rest := by
  intro member
  have own := (arranged.mem c).mp member
  have before : ∀ e, TransGen (Direct supers) c e → [c, e].Sublist rest := by
    have step : ∀ {d e}, d ∈ classes → e ∈ supers d → [d, e].Sublist rest := by
      intro d e inside direct
      have later := walked.closed (.inr inside) direct
      exact arranged.ordered _ (walked.own inside) d ((arranged.mem d).mpr inside) e
        ((arranged.mem e).mpr later) ((singleton_sublist.mpr direct).cons_cons d)
    intro e path
    induction path with
    | single direct => exact step own direct
    | @tail d _ _ direct ih =>
      have inside := (arranged.mem d).mp (ih.subset (by simp))
      exact Before.trans arranged.nodup ih (step inside direct)
  obtain ⟨b, direct, path⟩ := (walked.mem c).mp own
  exact nodup_iff_sublist.mp arranged.nodup c (before c (TransGen.head' direct path))

variable {remaining : List α}

omit [DecidableEq α] in
theorem Orders.free_of_candidate (walked : Orders supers c classes orders) {x : α}
    (candidate : Candidate supers c remaining x) : Free orders remaining x := by
  refine ⟨candidate.1, fun order present a member sub => ?_⟩
  rcases walked.cases present with ⟨d, inside, rfl⟩ | rfl
  · exact candidate.2 d ((walked.reaches d).mp (.inr inside)) a member sub
  · exact candidate.2 c .refl a member (sub.cons c)

theorem Orders.precedence {rest : List α} (walked : Orders supers c classes orders)
    (arranged : Arranged supers orders classes [c] rest) : Precedence supers c (c :: rest) := by
  have fresh := walked.fresh arranged
  have reaches : ∀ d, d ∈ c :: rest ↔ ReflTransGen (Direct supers) c d := by
    intro d
    rw [mem_cons, arranged.mem, walked.reaches]
  refine ⟨⟨⟨rest, rfl⟩, nodup_cons.mpr ⟨fresh, arranged.nodup⟩, reaches, ?_⟩, ?_⟩
  · intro d member a b sub
    have known := (walked.reaches d).mpr ((reaches d).mp member)
    have inside : ∀ e ∈ supers d, e ∈ rest := fun e direct =>
      (arranged.mem e).mpr (walked.closed known direct)
    have later := inside b (Before.mem_tail_iff.mpr ⟨a, sub⟩)
    by_cases same : a = c
    · subst same
      exact (singleton_sublist.mpr later).cons_cons a
    · rcases known with rfl | known
      · cases sub with
        | cons _ sub =>
          have listed : supers d ∈ orders := by simp [walked.orders]
          exact (arranged.ordered _ listed a (inside a (sub.subset (by simp))) b later sub).cons d
        | cons_cons _ sub => exact absurd rfl same
      · have memberA : a ∈ rest := by
          rcases mem_cons.mp (sub.subset (mem_cons_self)) with rfl | direct
          · exact (arranged.mem a).mpr known
          · exact inside a direct
        exact (arranged.ordered _ (walked.own known) a memberA b later sub).cons c
  · intro front next later started split
    cases front with
    | nil => exact absurd rfl started
    | cons d front =>
      cases split
      have found := arranged.latest front next later rfl
      simpa using found.congr fun y => walked.free_of_candidate

theorem Orders.no_order (walked : Orders supers c classes orders) (nonempty : remaining ≠ [])
    (subset : remaining ⊆ classes) (stuck : ∀ x, ¬ Free orders remaining x) (cpl : List α) :
    ¬ Linear supers c cpl := by
  intro linear
  have inside : ∀ d ∈ remaining, d ∈ cpl := fun d member =>
    (linear.mem d).mpr ((walked.reaches d).mp (.inr (subset member)))
  obtain ⟨d, member⟩ := exists_mem_of_ne_nil remaining nonempty
  -- the first of them in the order is free
  cases placed : cpl.filter (· ∈ remaining) with
  | nil =>
    have dropped := filter_eq_nil_iff.mp placed d (inside d member)
    simp [member] at dropped
  | cons x later =>
    have here : x ∈ cpl.filter (· ∈ remaining) := placed ▸ mem_cons_self
    have left : x ∈ remaining := by simpa using (mem_filter.mp here).2
    refine stuck x ⟨left, fun order present a memberA sub => ?_⟩
    have ordered : [a, x].Sublist cpl := by
      rcases walked.cases present with ⟨e, known, rfl⟩ | rfl
      · exact linear.ordered e ((linear.mem e).mpr ((walked.reaches e).mp (.inr known))) a x sub
      · exact linear.ordered c ((linear.mem c).mpr .refl) a x (sub.cons c)
    have filtered : [a, x].Sublist (x :: later) := placed ▸ Before.filter_iff.mpr
      ⟨ordered, decide_eq_true memberA, decide_eq_true left⟩
    have nodup : (x :: later).Nodup := placed ▸ linear.nodup.filter _
    exact (nodup_cons.mp nodup).1 (Before.mem_tail_iff.mpr ⟨a, filtered⟩)

/-- The answer that section 4.3.5 asks for. -/
def Answers (supers : α → List α) (c : α) : Except ClassError (List α) → Prop
  | .ok cpl => ∀ cpl', Precedence supers c cpl' ↔ cpl' = cpl
  | .error e => e = .cycle ∧ ∀ cpl, ¬ Linear supers c cpl

omit [DecidableEq α] in
theorem answers_ok_iff : Answers supers c (.ok cpl) ↔ Precedence supers c cpl :=
  ⟨fun answers => (answers cpl).mpr rfl, fun precedence _ =>
    ⟨precedence.unique, fun same => same ▸ precedence⟩⟩

/-- With enough steps the general algorithm returns the order, or stops with a cycle at
classes of which none is free. -/
theorem generalPrecedenceList_cases {everything : List α} (nodup : everything.Nodup)
    (inside : ∀ d, ReflTransGen (Direct supers) c d → d ∈ everything)
    (enough : walkSize supers everything (supers c) [] ≤ limit) (nonempty : supers c ≠ []) :
    (∃ cpl, generalPrecedenceList supers limit c (supers c) = .ok cpl ∧
      Precedence supers c cpl) ∨
    (generalPrecedenceList supers limit c (supers c) = .error .cycle ∧
      ∃ classes orders remaining, Orders supers c classes orders ∧ remaining ≠ [] ∧
        remaining ⊆ classes ∧ ∀ x, ¬ Free orders remaining x) := by
  have started : Walking supers (supers c) (supers c) [] [supers c] :=
    ⟨nodup_nil, rfl, fun d member => ⟨d, by simpa using member, .refl⟩,
      fun d member => .inr member, fun d member => by cases member⟩
  have above : ∀ d, Above supers (supers c) d → d ∈ everything :=
    fun d ⟨b, direct, path⟩ => inside d (.head direct path)
  obtain ⟨classes, lists, walked, walking⟩ := walkSupers_walking nodup above limit enough started
  have orders : Orders supers c classes lists :=
    ⟨walking.nodup, walking.lists, fun d => walking.mem_iff⟩
  have unfolded : generalPrecedenceList supers limit c (supers c) =
      placeClasses supers classes.length classes (leftOver lists classes) [c] := by
    rw [generalPrecedenceList, walked, orders.leftOver nonempty]
    rfl
  rw [unfolded]
  cases returned : placeClasses supers classes.length classes (leftOver lists classes) [c] with
  | ok cpl =>
    obtain ⟨rest, rfl, arranged⟩ := placeClasses_arranged orders.waiting returned
    exact .inl ⟨_, rfl, orders.precedence arranged⟩
  | error e =>
    obtain ⟨rfl, remaining, left, subset, stuck⟩ :=
      placeClasses_stuck (Nat.le_refl _) orders.waiting returned
    exact .inr ⟨rfl, classes, lists, remaining, orders, left, subset, stuck⟩

theorem generalPrecedenceList_answers
    (finite : {d | ReflTransGen (Direct supers) c d}.Finite) (nonempty : supers c ≠ []) :
    ∃ bound, ∀ limit, bound ≤ limit →
      Answers supers c (generalPrecedenceList supers limit c (supers c)) := by
  refine ⟨walkSize supers finite.toFinset.toList (supers c) [], fun limit enough => ?_⟩
  rcases generalPrecedenceList_cases (Finset.nodup_toList _) (fun d path => by simpa using path)
    enough nonempty with
    ⟨cpl, returned, precedence⟩ | ⟨stopped, classes, orders, remaining, walked, left, subset, stuck⟩
  · rw [returned]
    exact answers_ok_iff.mpr precedence
  · rw [stopped]
    exact ⟨rfl, walked.no_order left subset stuck⟩

/-- When the local precedence orders increase a rank, several superclasses have a list. -/
theorem computeClosClassPrecedenceList_linear {rank : α → Nat}
    (ranked : ∀ d, ReflTransGen (Direct supers) c d → Ranked supers rank d)
    {everything : List α} (nodup : everything.Nodup)
    (inside : ∀ d, ReflTransGen (Direct supers) c d → d ∈ everything)
    (enough : walkSize supers everything (supers c) [] ≤ limit)
    (stored : α → Option (List α)) (several : 2 ≤ (supers c).length) :
    ∃ cpl, computeClosClassPrecedenceList supers limit stored c (supers c) = .ok cpl ∧
      Linear supers c cpl := by
  rw [computeClosClassPrecedenceList_general several]
  have nonempty : supers c ≠ [] := ne_nil_of_length_pos (by omega)
  rcases generalPrecedenceList_cases nodup inside enough nonempty with
    ⟨cpl, returned, precedence⟩ | ⟨-, classes, orders, remaining, walked, left, subset, stuck⟩
  · exact ⟨cpl, returned, precedence.toLinear⟩
  · -- what has the least rank is free
    obtain ⟨m, member, least⟩ := Finset.exists_min_image remaining.toFinset rank
      (toFinset_nonempty_iff _ |>.mpr left)
    simp only [mem_toFinset] at member least
    refine absurd ⟨member, fun order present a memberA sub => ?_⟩ (stuck m)
    have increasing : order.Pairwise fun a b => rank a < rank b := by
      rcases walked.cases present with ⟨d, known, rfl⟩ | rfl
      · exact ranked d ((walked.reaches d).mp (.inr known))
      · exact (pairwise_cons.mp (ranked c .refl)).2
    have less := pairwise_pair.mp (increasing.sublist sub)
    have := least a memberA
    omega

omit [DecidableEq α] in
theorem reaches_single (single : supers c = [d]) (e : α) : ReflTransGen (Direct supers) c e ↔
      e = c ∨ ReflTransGen (Direct supers) d e := by
  constructor
  · intro path
    rcases ReflTransGen.cases_head path with same | ⟨b, step, path⟩
    · exact .inl same.symm
    · rw [Direct, single, mem_singleton] at step
      exact .inr (step ▸ path)
  · rintro (rfl | path)
    · exact .refl
    · exact .head (by rw [Direct, single]; exact mem_cons_self) path

omit [DecidableEq α] in
theorem candidate_single (single : supers c = [d]) (absent : c ∉ remaining) (x : α) :
    Candidate supers c remaining x ↔ Candidate supers d remaining x := by
  refine and_congr_right fun _ =>
    ⟨fun free e path => free e ((reaches_single single e).mpr (.inr path)), ?_⟩
  intro free e path a member sub
  rcases (reaches_single single e).mp path with rfl | path
  · rw [single] at sub
    cases sub with
    | cons _ sub => exact absurd sub.length_le (by simp)
    | cons_cons _ _ => exact absent member
  · exact free e path a member sub

omit [DecidableEq α] in
theorem Linear.acyclic (linear : Linear supers c cpl) :
    ¬ TransGen (Direct supers) c c := fun cycle =>
  nodup_iff_sublist.mp linear.nodup c (linear.before ((linear.mem c).mpr .refl) cycle)

omit [DecidableEq α] in
theorem Linear.of_single (single : supers c = [d])
    (linear : Linear supers c (c :: cpl)) : Linear supers d cpl := by
  obtain ⟨fresh, nodup⟩ := nodup_cons.mp linear.nodup
  have step : Direct supers c d := by simp [Direct, single]
  have mem : ∀ e, e ∈ cpl ↔ ReflTransGen (Direct supers) d e := by
    intro e
    have known := (linear.mem e).trans (reaches_single single e)
    rw [mem_cons] at known
    constructor
    · intro member
      refine (known.mp (.inr member)).resolve_left ?_
      rintro rfl
      exact fresh member
    · intro path
      refine (known.mpr (.inr path)).resolve_left ?_
      rintro rfl
      exact linear.acyclic (TransGen.head' step path)
  have inside : d ∈ cpl := (mem d).mpr .refl
  refine ⟨?_, nodup, mem, ?_⟩
  · obtain ⟨x, rest, rfl⟩ := exists_cons_of_ne_nil (ne_nil_of_mem inside)
    have first : x = d := by
      by_contra differ
      rcases ReflTransGen.cases_head ((mem x).mp mem_cons_self) with
        same | ⟨b, direct, path⟩
      · exact differ same.symm
      · have before := linear.before (mem_cons_of_mem c inside)
          (TransGen.head' direct path)
        cases before with
        | cons _ before =>
          have later := (mem_cons.mp inside).resolve_left (Ne.symm differ)
          exact Before.asymm nodup differ
            ((singleton_sublist.mpr later).cons_cons x) before
        | cons_cons _ _ => exact fresh inside
    exact ⟨rest, by rw [first]⟩
  · intro e member a b sub
    have placed := linear.ordered e (mem_cons_of_mem _ member) a b sub
    cases placed with
    | cons _ placed => exact placed
    | cons_cons _ placed =>
      refine absurd ((mem c).mpr ?_) fresh
      rcases mem_cons.mp (sub.subset mem_cons_self) with rfl | direct
      · exact (mem c).mp member
      · exact ((mem e).mp member).tail direct

omit [DecidableEq α] in
theorem precedence_single_iff (single : supers c = [d]) :
    Precedence supers c (c :: cpl) ↔ Precedence supers d cpl := by
  have step : Direct supers c d := by simp [Direct, single]
  constructor
  · intro precedence
    have linear := precedence.toLinear.of_single single
    have fresh := (nodup_cons.mp precedence.nodup).1
    refine ⟨linear, fun front next later started split => ?_⟩
    have absent : c ∉ next :: later := fun member => fresh (by
      rw [split]
      exact mem_append_right _ member)
    obtain ⟨before, i, after, shape, direct, none⟩ :=
      precedence.latest (c :: front) next later (cons_ne_nil _ _) (by rw [split]; rfl)
    cases before with
    | nil =>
      cases shape
      -- the superclass itself is already in the list
      rw [single, mem_singleton] at direct
      obtain ⟨rest, shape⟩ := linear.head
      obtain ⟨y, front, rfl⟩ := exists_cons_of_ne_nil started
      rw [shape] at split
      cases split
      have nodup := linear.nodup
      simp [shape, direct] at nodup
    | cons _ before =>
      cases shape
      exact ⟨before, i, after, rfl, direct, fun j member y inside candidate =>
        none j member y inside ((candidate_single single absent y).mpr candidate)⟩
  · intro precedence
    have linear := precedence.toLinear
    have acyclic : ¬ ReflTransGen (Direct supers) d c := fun path =>
      linear.acyclic (TransGen.tail' path step)
    have fresh : c ∉ cpl := fun member => acyclic ((linear.mem c).mp member)
    refine ⟨linear.single single acyclic, fun front next later started split => ?_⟩
    obtain ⟨x, front, rfl⟩ := exists_cons_of_ne_nil started
    cases split
    cases front with
    | nil =>
      obtain ⟨rest, shape⟩ := linear.head
      cases shape
      exact ⟨[], c, [], rfl, by simp [single], fun j member => by cases member⟩
    | cons y front =>
      have absent : c ∉ next :: later := fun member => fresh (mem_append_right _ member)
      obtain ⟨before, i, after, shape, direct, none⟩ :=
        precedence.latest (y :: front) next later (cons_ne_nil _ _) rfl
      exact ⟨c :: before, i, after, by rw [shape]; rfl, direct, fun j member z inside candidate =>
        none j member z inside ((candidate_single single absent z).mp candidate)⟩

/-- On every finite graph of classes the computation ends, its case of a single
superclass agrees with the general algorithm when the stored list is the order of the
superclass, and its answer is the described one exactly when there is a superclass and a
single one has its order stored. -/
theorem computeClosClassPrecedenceList_answers_iff
    (finite : {d | Relation.ReflTransGen (Direct supers) c d}.Finite) :
    ∃ bound, ∀ limit, bound ≤ limit → ∀ stored : α → Option (List α),
      computeClosClassPrecedenceList supers limit stored c (supers c) ≠ .error .exhausted ∧
      (∀ d cpl, supers c = [d] → stored d = some cpl → Precedence supers d cpl →
        computeClosClassPrecedenceList supers limit stored c (supers c) =
          generalPrecedenceList supers limit c (supers c)) ∧
      (Answers supers c (computeClosClassPrecedenceList supers limit stored c (supers c)) ↔
        supers c ≠ [] ∧ ∀ d, supers c = [d] →
          ∃ cpl, stored d = some cpl ∧ Precedence supers d cpl) := by
  by_cases empty : supers c = []
  · refine ⟨0, fun limit _ stored => ?_⟩
    have failed : computeClosClassPrecedenceList supers limit stored c (supers c) =
        .error .notInstance := by
      rw [empty]
      rfl
    rw [failed]
    refine ⟨by simp, fun d cpl single => ?_, ?_⟩
    · rw [empty] at single
      cases single
    · exact iff_of_false (fun answers => by cases answers.1) fun holds => holds.1 empty
  obtain ⟨bound, general⟩ := generalPrecedenceList_answers finite empty
  refine ⟨bound, fun limit enough stored => ?_⟩
  have answers := general limit enough
  by_cases one : ∃ d, supers c = [d]
  · obtain ⟨d, single⟩ := one
    cases found : stored d with
    | none =>
      have failed : computeClosClassPrecedenceList supers limit stored c (supers c) =
          .error .notSequence := by
        rw [single]
        simp only [computeClosClassPrecedenceList, found]
      rw [failed]
      refine ⟨by simp, fun e cpl single' stored' => ?_, ?_⟩
      · cases single.symm.trans single'
        cases found.symm.trans stored'
      · refine iff_of_false (fun answers => by cases answers.1) fun holds => ?_
        obtain ⟨cpl, stored', -⟩ := holds.2 d single
        cases found.symm.trans stored'
    | some own =>
      have shortcut : computeClosClassPrecedenceList supers limit stored c (supers c) =
          .ok (c :: own) := by
        rw [single]
        simp only [computeClosClassPrecedenceList, found]
      rw [shortcut]
      refine ⟨by simp, fun e cpl single' stored' precedence => ?_, ?_⟩
      · cases single.symm.trans single'
        cases found.symm.trans stored'
        have order := (precedence_single_iff single).mpr precedence
        cases returned : generalPrecedenceList supers limit c (supers c) with
        | ok cpl =>
          rw [returned] at answers
          rw [(answers _).mp order]
        | error e =>
          rw [returned] at answers
          exact absurd order.toLinear (answers.2 _)
      · rw [answers_ok_iff, precedence_single_iff single]
        constructor
        · intro precedence
          refine ⟨empty, fun e single' => ?_⟩
          cases single.symm.trans single'
          exact ⟨own, found, precedence⟩
        · rintro ⟨-, holds⟩
          obtain ⟨cpl, stored', precedence⟩ := holds d single
          cases found.symm.trans stored'
          exact precedence
  · have several : 2 ≤ (supers c).length := by
      obtain ⟨d, rest, direct⟩ := exists_cons_of_ne_nil empty
      cases rest with
      | nil => exact absurd ⟨d, direct⟩ one
      | cons e rest => simp [direct]
    rw [computeClosClassPrecedenceList_general several]
    refine ⟨fun failed => ?_, fun _ _ _ _ _ => rfl, ?_⟩
    · rw [failed] at answers
      cases answers.1
    · exact iff_of_true answers ⟨empty, fun d single => absurd ⟨d, single⟩ one⟩

end Whole

inductive LoopClass where
  | a
  | b
  | c
  | standardObject
  | t
  deriving DecidableEq

/-- B inherits from A, and C from B and STANDARD-OBJECT. -/
def plainSupers : LoopClass → List LoopClass
  | .a => [.standardObject]
  | .b => [.a]
  | .c => [.b, .standardObject]
  | .standardObject => [.t]
  | .t => []

/-- After `(defclass a (b) ())`. -/
def cyclicSupers : LoopClass → List LoopClass
  | .a => [.b]
  | d => plainSupers d

/-- The lists that the first definitions have stored. -/
def plainStored : LoopClass → Option (List LoopClass)
  | .a => some [.a, .standardObject, .t]
  | .b => some [.b, .a, .standardObject, .t]
  | .c => some [.c, .b, .a, .standardObject, .t]
  | .standardObject => some [.standardObject, .t]
  | .t => some [.t]

theorem LoopClass.finite (s : Set LoopClass) : s.Finite :=
  (finite_toSet [a, b, c, standardObject, t]).subset fun d _ => by cases d <;> simp

theorem computeClosClassPrecedenceList_answers_iff_on_c : ∃ bound, ∀ limit, bound ≤ limit →
    Answers plainSupers .c
      (computeClosClassPrecedenceList plainSupers limit plainStored .c [.b, .standardObject]) := by
  obtain ⟨bound, holds⟩ := @computeClosClassPrecedenceList_answers_iff _ _ plainSupers .c
    (LoopClass.finite _)
  refine ⟨bound, fun limit enough => (holds limit enough plainStored).2.2.mpr ⟨by decide, ?_⟩⟩
  intro d single
  cases single

/-- The stored list of B was computed for the first definitions. For the new A it is taken
as it is, and A is twice in the list, where the general algorithm finds the cycle. -/
theorem redefined_below_subclass :
    (∀ limit, computeClosClassPrecedenceList plainSupers limit plainStored .b (plainSupers .b) =
      .ok [.b, .a, .standardObject, .t]) ∧
    (∀ limit, computeClosClassPrecedenceList cyclicSupers limit plainStored .a (cyclicSupers .a) =
      .ok [.a, .b, .a, .standardObject, .t]) ∧
    generalPrecedenceList cyclicSupers 8 .a (cyclicSupers .a) = .error .cycle ∧
    ∀ cpl, ¬ Linear cyclicSupers .a cpl := by
  refine ⟨fun _ => rfl, fun _ => rfl, by decide, fun cpl linear => linear.acyclic ?_⟩
  have below : Direct cyclicSupers .b .a := by simp [Direct, cyclicSupers, plainSupers]
  exact Relation.TransGen.head (by simp [Direct, cyclicSupers]) (.single below)

end Ecl.Clos
