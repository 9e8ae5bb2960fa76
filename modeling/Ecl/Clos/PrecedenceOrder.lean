import Ecl.Clos.Precedence

/- The topological order of the local precedence orders with the rule that chooses
between several classes, and what the placing loop arranges. -/
namespace Ecl.Clos

open List

section Order

variable {α : Type} {supers : α → List α} {c : α}

/-- A class that nothing else left precedes in a local precedence order. -/
def Candidate (supers : α → List α) (c : α) (remaining : List α) (x : α) : Prop :=
  x ∈ remaining ∧ ∀ d, Relation.ReflTransGen (Direct supers) c d →
    ∀ a ∈ remaining, ¬ [a, x].Sublist (d :: supers d)

/-- No candidate has a direct subclass later in the list so far. -/
def Latest (supers : α → List α) (front : List α) (candidate : α → Prop) (x : α) : Prop :=
  ∃ before i after, front = before ++ i :: after ∧ x ∈ supers i ∧
    ∀ j ∈ after, ∀ y ∈ supers j, ¬ candidate y

/-- A topological order in which each class was chosen among the candidates by its
direct subclass. -/
structure Precedence (supers : α → List α) (c : α) (cpl : List α) : Prop
    extends Linear supers c cpl where
  latest : ∀ front next rest, front ≠ [] → cpl = front ++ next :: rest →
    Latest supers front (Candidate supers c (next :: rest)) next

variable {front : List α}

theorem Latest.congr {candidate candidate' : α → Prop} {x : α}
    (latest : Latest supers front candidate x) (same : ∀ y, candidate' y → candidate y) :
    Latest supers front candidate' x := by
  obtain ⟨before, i, after, split, direct, none⟩ := latest
  exact ⟨before, i, after, split, direct, fun j member y inside chosen =>
    none j member y inside (same y chosen)⟩

theorem Latest.common {candidate : α → Prop} {x y : α}
    (latestX : Latest supers front candidate x) (latestY : Latest supers front candidate y)
    (candidateX : candidate x) (candidateY : candidate y) :
    ∃ i ∈ front, x ∈ supers i ∧ y ∈ supers i := by
  obtain ⟨before, i, after, split, directX, noneX⟩ := latestX
  obtain ⟨before', j, after', split', directY, noneY⟩ := latestY
  have same := split.symm.trans split'
  rcases append_eq_append_iff.mp same with ⟨between, -, later⟩ | ⟨between, -, later⟩
  · cases between with
    | nil =>
      cases later
      exact ⟨i, by simp [split], directX, directY⟩
    | cons k between =>
      cases later
      exact absurd candidateY (noneX j (by simp) y directY)
  · cases between with
    | nil =>
      cases later
      exact ⟨i, by simp [split], directX, directY⟩
    | cons k between =>
      cases later
      exact absurd candidateX (noneY i (by simp) x directX)

variable {rest : List α}

theorem Linear.candidate {next : α} (linear : Linear supers c (front ++ next :: rest)) :
    Candidate supers c (next :: rest) next := by
  refine ⟨mem_cons_self, fun d path a member sub => ?_⟩
  have inside := (linear.mem d).mpr path
  have ordered := linear.ordered d inside a next sub
  have nodup := linear.nodup.sublist (sublist_append_right front (next :: rest))
  by_cases same : a = next
  · subst same
    exact nodup_iff_sublist.mp linear.nodup a ordered
  · have later : [next, a].Sublist (next :: rest) :=
      (singleton_sublist.mpr ((mem_cons.mp member).resolve_left same)).cons_cons next
    exact Before.asymm linear.nodup same ordered
      (later.trans (sublist_append_right front (next :: rest)))

theorem Linear.mem_rest (linear : Linear supers c (front ++ rest)) (d : α) :
    d ∈ rest ↔ Relation.ReflTransGen (Direct supers) c d ∧ d ∉ front := by
  have disjoint := (nodup_append.mp linear.nodup).2.2
  rw [← linear.mem, mem_append]
  constructor
  · exact fun member => ⟨.inr member, fun inside => disjoint d inside d member rfl⟩
  · rintro ⟨inside | member, outside⟩
    · exact absurd inside outside
    · exact member

theorem Precedence.unique_rest : ∀ {front rest' : List α}, front ≠ [] →
    Precedence supers c (front ++ rest) → Precedence supers c (front ++ rest') →
    rest' = rest := by
  induction rest with
  | nil =>
    intro front rest' _ first second
    refine eq_nil_iff_forall_not_mem.mpr fun d member => ?_
    have outside := (first.mem_rest d).mpr ((second.mem_rest d).mp member)
    cases outside
  | cons x rest ih =>
    intro front rest' started first second
    have mem : ∀ d, d ∈ rest' ↔ d ∈ x :: rest := fun d =>
      (second.mem_rest d).trans (first.mem_rest d).symm
    cases rest' with
    | nil => cases (mem x).mpr mem_cons_self
    | cons y rest' =>
      have candidateX := first.candidate
      have candidateY : Candidate supers c (x :: rest) y :=
        ⟨(mem y).mp mem_cons_self, fun d path a member =>
          second.candidate.2 d path a ((mem a).mpr member)⟩
      have latestX := first.latest front x rest started rfl
      have latestY : Latest supers front (Candidate supers c (x :: rest)) y :=
        (second.latest front y rest' started rfl).congr fun z candidate =>
          ⟨(mem z).mpr candidate.1, fun d path a member =>
            candidate.2 d path a ((mem a).mp member)⟩
      obtain ⟨i, placed, directX, directY⟩ :=
        latestX.common latestY candidateX candidateY
      have reaches := (first.mem i).mp (mem_append_left _ placed)
      have same : x = y := by
        by_contra differ
        -- the direct subclass itself orders the two
        rcases Before.total differ directX directY with sub | sub
        · exact candidateY.2 i reaches x mem_cons_self (sub.cons i)
        · exact candidateX.2 i reaches y candidateY.1 (sub.cons i)
      subst same
      have next : ∀ tail : List α, front ++ x :: tail = front ++ [x] ++ tail := by simp
      have rests : rest' = rest :=
        @ih (front ++ [x]) rest' (by simp) (next rest ▸ first) (next rest' ▸ second)
      rw [rests]

theorem Precedence.unique {cpl cpl' : List α} (first : Precedence supers c cpl)
    (second : Precedence supers c cpl') : cpl' = cpl := by
  obtain ⟨rest, rfl⟩ := first.head
  obtain ⟨rest', rfl⟩ := second.head
  have same : rest' = rest :=
    @Precedence.unique_rest _ _ _ rest [c] rest' (cons_ne_nil c []) first second
  rw [same]

end Order

section Loop

variable {α : Type} [DecidableEq α] {supers : α → List α}

/-- What nothing left precedes in the ordering lists. -/
def Free (orders : List (List α)) (classList : List α) (x : α) : Prop :=
  x ∈ classList ∧ ∀ order ∈ orders, ∀ a ∈ classList, ¬ [a, x].Sublist order

/-- Every class left is a direct superclass of one that was placed, or of one that is
left and whose ordering list is used. -/
def Waiting (supers : α → List α) (orders : List (List α)) (classList cpl : List α) : Prop :=
  ∀ x ∈ classList, ∃ d, x ∈ supers d ∧ (d ∈ cpl ∨ d ∈ classList ∧ (d :: supers d) ∈ orders)

variable {orders : List (List α)} {classList : List α}

theorem mem_freeElements {x : α} :
    x ∈ freeElements classList (leftOver orders classList) ↔ Free orders classList x := by
  rw [freeElements, mem_reverse, mem_filter]
  exact and_congr_right fun member => free_iff member

omit [DecidableEq α] in
theorem Free.congr {classList' : List α} (same : ∀ x, x ∈ classList' ↔ x ∈ classList) (x : α) :
    Free orders classList' x ↔ Free orders classList x := by
  simp only [Free, same]

variable {cpl : List α}

omit [DecidableEq α] in
theorem Waiting.offered {x : α}
    (waiting : Waiting supers orders classList cpl) (free : Free orders classList x) :
    ∃ d ∈ cpl, x ∈ supers d := by
  obtain ⟨d, direct, placed | ⟨left, used⟩⟩ := waiting x free.1
  · exact ⟨d, placed, direct⟩
  · exact absurd ((singleton_sublist.mpr direct).cons_cons d) (free.2 _ used d left)

variable {next : α}

theorem Waiting.place (waiting : Waiting supers orders classList cpl) :
    Waiting supers orders (classList.filter (· ≠ next)) (next :: cpl) := by
  intro x member
  obtain ⟨d, direct, placed | ⟨left, used⟩⟩ := waiting x (mem_filter.mp member).1
  · exact ⟨d, direct, .inl (mem_cons_of_mem _ placed)⟩
  · by_cases here : d = next
    · exact ⟨d, direct, .inl (here ▸ mem_cons_self)⟩
    · exact ⟨d, direct, .inr ⟨mem_filter.mpr ⟨left, by simpa using here⟩, used⟩⟩

theorem nextElement_eq {freeList : List α} (offered : ∀ x ∈ freeList, ∃ d ∈ cpl, x ∈ supers d) :
    nextElement supers freeList cpl =
      cpl.findSome? fun i => (supers i).find? (· ∈ freeList) := by
  rw [← List.find?_flatMap]
  match freeList, offered with
  | [], _ => exact (List.find?_eq_none.mpr (by simp)).symm
  | [x], offered =>
    obtain ⟨d, placed, direct⟩ := offered x mem_cons_self
    cases search : (cpl.flatMap supers).find? (· ∈ [x]) with
    | none =>
      have missing := List.find?_eq_none.mp search x (mem_flatMap.mpr ⟨d, placed, direct⟩)
      simp at missing
    | some y =>
      have found : y = x := by simpa using List.find?_some search
      rw [found]
      rfl
  | x :: y :: rest, _ => rfl

theorem nextElement_latest (waiting : Waiting supers orders classList cpl)
    (chosen : nextElement supers (freeElements classList (leftOver orders classList)) cpl =
      some next) :
    Free orders classList next ∧ Latest supers cpl.reverse (Free orders classList) next := by
  have free := mem_freeElements.mp (nextElement_mem chosen)
  rw [nextElement_eq fun x member => waiting.offered (mem_freeElements.mp member)] at chosen
  obtain ⟨after, i, before, split, found, missed⟩ := List.findSome?_eq_some_iff.mp chosen
  refine ⟨free, before.reverse, i, after.reverse, by simp [split], mem_of_find?_eq_some found,
    fun j member y direct candidate => ?_⟩
  have missing := List.find?_eq_none.mp (missed j (mem_reverse.mp member)) y direct
  exact missing (by simpa using mem_freeElements.mpr candidate)

theorem nextElement_none (waiting : Waiting supers orders classList cpl)
    (stuck : nextElement supers (freeElements classList (leftOver orders classList)) cpl = none)
    (x : α) : ¬ Free orders classList x := by
  intro free
  obtain ⟨d, placed, direct⟩ := waiting.offered free
  rw [nextElement_eq fun x member => waiting.offered (mem_freeElements.mp member)] at stuck
  have missed := List.find?_eq_none.mp (List.findSome?_eq_none_iff.mp stuck d placed) x direct
  exact missed (by simpa using mem_freeElements.mpr free)

/-- The classes left, in an order that agrees with the ordering lists, each chosen
among the free ones by its direct subclass. -/
structure Arranged (supers : α → List α) (orders : List (List α)) (classList cpl rest : List α) :
    Prop where
  nodup : rest.Nodup
  mem : ∀ d, d ∈ rest ↔ d ∈ classList
  ordered : ∀ order ∈ orders, ∀ a ∈ rest, ∀ b ∈ rest, [a, b].Sublist order → [a, b].Sublist rest
  latest : ∀ front next later, rest = front ++ next :: later →
    Latest supers (cpl.reverse ++ front) (Free orders (next :: later)) next

theorem Free.deleteClass (free : Free orders classList next) :
    deleteClass next (leftOver orders classList) =
      leftOver orders (classList.filter (· ≠ next)) := by
  refine deleteClass_leftOver fun order present inside => ?_
  obtain ⟨a, sub⟩ := Before.mem_tail_iff.mp inside
  obtain ⟨sub, left, -⟩ := Before.filter_iff.mp sub
  exact free.2 order present a (by simpa using left) sub

theorem Arranged.place {rest : List α} (free : Free orders classList next)
    (latest : Latest supers cpl.reverse (Free orders classList) next)
    (arranged : Arranged supers orders (classList.filter (· ≠ next)) (next :: cpl) rest) :
    Arranged supers orders classList cpl (next :: rest) := by
  have fresh : next ∉ rest := by
    intro member
    have := (mem_filter.mp ((arranged.mem next).mp member)).2
    simp at this
  have mem : ∀ d, d ∈ next :: rest ↔ d ∈ classList := by
    intro d
    rw [mem_cons, arranged.mem, mem_filter, decide_eq_true_eq]
    by_cases here : d = next
    · simp [here, free.1]
    · simp [here]
  refine ⟨nodup_cons.mpr ⟨fresh, arranged.nodup⟩, mem, ?_, ?_⟩
  · intro order present a memberA b memberB sub
    rcases mem_cons.mp memberB with rfl | laterB
    · exact absurd sub (free.2 order present a ((mem a).mp memberA))
    · rcases mem_cons.mp memberA with rfl | laterA
      · exact (singleton_sublist.mpr laterB).cons_cons a
      · exact (arranged.ordered order present a laterA b laterB sub).cons next
  · intro front x later split
    cases front with
    | nil =>
      cases split
      simp only [append_nil]
      exact latest.congr fun y => (Free.congr mem y).mp
    | cons d front =>
      cases split
      have found := arranged.latest front x later rfl
      simpa using found

theorem placeClasses_arranged {n : Nat} :
    ∀ {classList cpl result : List α}, Waiting supers orders classList cpl →
    placeClasses supers n classList (leftOver orders classList) cpl = .ok result →
    ∃ rest, result = cpl.reverse ++ rest ∧ Arranged supers orders classList cpl rest := by
  have finished : ∀ {cpl result : List α},
      (if leftOver orders [] = [] then .ok cpl.reverse else .error .cycle :
        Except ClassError (List α)) = .ok result →
      ∃ rest, result = cpl.reverse ++ rest ∧ Arranged supers orders [] cpl rest := by
    intro cpl result returned
    rw [if_pos (leftOver_nil orders)] at returned
    cases returned
    refine ⟨[], (append_nil _).symm, nodup_nil, fun d => Iff.rfl, ?_, ?_⟩
    · intro order _ a member
      cases member
    · intro front next later split
      simp at split
  induction n with
  | zero =>
    intro classList cpl result _ returned
    cases classList with
    | nil =>
      rw [placeClasses] at returned
      exact finished returned
    | cons c classList => cases returned
  | succ n ih =>
    intro classList cpl result waiting returned
    cases classList with
    | nil =>
      rw [placeClasses] at returned
      exact finished returned
    | cons c classList =>
      simp only [placeClasses] at returned
      split at returned
      · cases returned
      · rename_i next chosen
        obtain ⟨free, latest⟩ := nextElement_latest waiting chosen
        rw [free.deleteClass] at returned
        obtain ⟨rest, rfl, arranged⟩ := ih waiting.place returned
        exact ⟨next :: rest, by simp, arranged.place free latest⟩

theorem placeClasses_stuck {n : Nat} :
    ∀ {classList cpl : List α} {e : ClassError}, classList.length ≤ n →
    Waiting supers orders classList cpl →
    placeClasses supers n classList (leftOver orders classList) cpl = .error e →
    e = .cycle ∧ ∃ remaining, remaining ≠ [] ∧ remaining ⊆ classList ∧
      ∀ x, ¬ Free orders remaining x := by
  induction n with
  | zero =>
    intro classList cpl e bound _ stopped
    cases eq_nil_of_length_eq_zero (Nat.le_zero.mp bound)
    rw [placeClasses, if_pos (leftOver_nil orders)] at stopped
    cases stopped
  | succ n ih =>
    intro classList cpl e bound waiting stopped
    cases classList with
    | nil =>
      rw [placeClasses, if_pos (leftOver_nil orders)] at stopped
      cases stopped
    | cons c classList =>
      simp only [placeClasses] at stopped
      split at stopped
      · rename_i stuck
        cases stopped
        exact ⟨rfl, c :: classList, cons_ne_nil _ _, List.Subset.refl _,
          nextElement_none waiting stuck⟩
      · rename_i next chosen
        obtain ⟨free, -⟩ := nextElement_latest waiting chosen
        rw [free.deleteClass] at stopped
        have shorter : ((c :: classList).filter (· ≠ next)).length < (c :: classList).length :=
          length_filter_lt_length_iff_exists.mpr ⟨next, free.1, by simp⟩
        obtain ⟨cycle, remaining, nonempty, subset, none⟩ :=
          ih (by omega) waiting.place stopped
        exact ⟨cycle, remaining, nonempty,
          fun d member => (mem_filter.mp (subset member)).1, none⟩

end Loop

end Ecl.Clos
