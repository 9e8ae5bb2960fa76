import Ecl.Clos.Linearize

/- What the computation of a precedence list depends on, and what its result holds,
whenever it returns. -/
namespace Ecl.Clos

open List

variable {α : Type} [DecidableEq α] {supers supers' : α → List α}

variable {n : Nat}

theorem walkSupers_mono {m : Nat} (larger : n ≤ m) : ∀ {waiting classList : List α}
    {precedenceLists : List (List α)} {result : List α × List (List α)},
    walkSupers supers n waiting classList precedenceLists = .ok result →
      walkSupers supers m waiting classList precedenceLists = .ok result := by
  induction n generalizing m with
  | zero =>
    intro waiting classList precedenceLists result walked
    cases waiting with
    | nil =>
      rw [walkSupers] at walked ⊢
      exact walked
    | cons c waiting => cases walked
  | succ n ih =>
    intro waiting classList precedenceLists result walked
    obtain ⟨m, rfl⟩ : ∃ k, m = k + 1 := ⟨m - 1, by omega⟩
    cases waiting with
    | nil =>
      rw [walkSupers] at walked ⊢
      exact walked
    | cons c waiting =>
      rw [walkSupers] at walked ⊢
      split at walked
      · rename_i done
        rw [if_pos done]
        exact ih (by omega) walked
      · rename_i fresh
        rw [if_neg fresh]
        exact ih (by omega) walked

/-- The walk covers what it started from and what is above it, and nothing else. -/
structure Walked (supers : α → List α) (waiting classList classes : List α) : Prop where
  kept : classList ⊆ classes
  visited : waiting ⊆ classes
  closed : ∀ c ∈ classes, c ∈ classList ∨ supers c ⊆ classes
  above : ∀ c ∈ classes, c ∈ classList ∨ Above supers waiting c

theorem walkSupers_walked : ∀ {waiting classList : List α}
    {precedenceLists lists : List (List α)} {classes : List α},
    walkSupers supers n waiting classList precedenceLists = .ok (classes, lists) →
      Walked supers waiting classList classes := by
  have finished : ∀ {classList : List α}, Walked supers [] classList classList := fun {classList} =>
    ⟨List.Subset.refl _, nil_subset _, fun c member => .inl member, fun c member => .inl member⟩
  induction n with
  | zero =>
    intro waiting classList precedenceLists lists classes walked
    cases waiting with
    | nil =>
      rw [walkSupers] at walked
      cases walked
      exact finished
    | cons c waiting => cases walked
  | succ n ih =>
    intro waiting classList precedenceLists lists classes walked
    cases waiting with
    | nil =>
      rw [walkSupers] at walked
      cases walked
      exact finished
    | cons c waiting =>
      rw [walkSupers] at walked
      split at walked
      · rename_i done
        have rest := ih walked
        refine ⟨rest.kept, cons_subset.mpr ⟨rest.kept done, rest.visited⟩, rest.closed,
          fun d member => (rest.above d member).imp_right ?_⟩
        rintro ⟨b, waits, path⟩
        exact ⟨b, mem_cons_of_mem _ waits, path⟩
      · have rest := ih walked
        have here : c ∈ classes := rest.kept mem_cons_self
        have parents : supers c ⊆ classes := fun d direct =>
          rest.visited (mem_append_left _ direct)
        refine ⟨fun d member => rest.kept (mem_cons_of_mem _ member),
          cons_subset.mpr ⟨here, fun d waits =>
            rest.visited (mem_append_right _ waits)⟩, fun d member => ?_, fun d member => ?_⟩
        · rcases rest.closed d member with known | closed
          · rcases mem_cons.mp known with rfl | known
            · exact .inr parents
            · exact .inl known
          · exact .inr closed
        · rcases rest.above d member with known | ⟨b, waits, path⟩
          · rcases mem_cons.mp known with rfl | known
            · exact .inr ⟨d, mem_cons_self, .refl⟩
            · exact .inl known
          · rcases mem_append.mp waits with direct | waits
            · exact .inr ⟨c, mem_cons_self, .head direct path⟩
            · exact .inr ⟨b, mem_cons_of_mem _ waits, path⟩

omit [DecidableEq α] in
theorem Walked.mem_iff {start classes : List α} (walked : Walked supers start [] classes) {d : α} :
    d ∈ classes ↔ Above supers start d := by
  refine ⟨fun member => (walked.above d member).resolve_left not_mem_nil, ?_⟩
  rintro ⟨b, member, path⟩
  induction path with
  | refl => exact walked.visited member
  | tail _ direct ih => exact (walked.closed _ ih).resolve_left not_mem_nil direct

theorem walkSupers_congr : ∀ {waiting classList : List α}
    {precedenceLists : List (List α)}, (∀ c, Above supers waiting c → supers' c = supers c) →
    walkSupers supers' n waiting classList precedenceLists =
      walkSupers supers n waiting classList precedenceLists := by
  induction n with
  | zero =>
    intro waiting classList precedenceLists _
    cases waiting <;> rfl
  | succ n ih =>
    intro waiting classList precedenceLists agree
    cases waiting with
    | nil => rfl
    | cons c waiting =>
      rw [walkSupers, walkSupers]
      split
      · apply ih
        intro d above
        obtain ⟨b, waits, path⟩ := above
        exact agree d ⟨b, mem_cons_of_mem _ waits, path⟩
      · rw [agree c ⟨c, mem_cons_self, .refl⟩]
        apply ih
        intro d above
        obtain ⟨b, waits, path⟩ := above
        apply agree d
        rcases mem_append.mp waits with direct | waits
        · exact ⟨c, mem_cons_self, .head direct path⟩
        · exact ⟨b, mem_cons_of_mem _ waits, path⟩

variable {cpl : List α}

theorem nextElement_mem {freeList : List α} {next : α}
    (found : nextElement supers freeList cpl = some next) : next ∈ freeList := by
  unfold nextElement at found
  split at found
  · cases found
  · cases found
    exact mem_singleton_self next
  · simpa using List.find?_some found

theorem freeElements_subset {classList : List α} {precedenceLists : List (List α)} :
    freeElements classList precedenceLists ⊆ classList := by
  intro c member
  exact (mem_filter.mp (mem_reverse.mp member)).1

theorem nextElement_congr {freeList : List α} (agree : ∀ c ∈ cpl, supers' c = supers c) :
    nextElement supers' freeList cpl = nextElement supers freeList cpl := by
  have same : cpl.flatMap supers' = cpl.flatMap supers := flatMap_congr agree
  unfold nextElement
  rw [same]

theorem placeClasses_congr : ∀ {classList cpl : List α} {precedenceLists : List (List α)},
    (∀ c ∈ classList ++ cpl, supers' c = supers c) →
    placeClasses supers' n classList precedenceLists cpl =
      placeClasses supers n classList precedenceLists cpl := by
  induction n with
  | zero =>
    intro classList cpl precedenceLists _
    cases classList <;> rfl
  | succ n ih =>
    intro classList cpl precedenceLists agree
    cases classList with
    | nil => rfl
    | cons c classList =>
      have same : nextElement supers' (freeElements (c :: classList) precedenceLists) cpl =
          nextElement supers (freeElements (c :: classList) precedenceLists) cpl :=
        nextElement_congr fun d member => agree d (mem_append_right _ member)
      simp only [placeClasses, same]
      split
      · rfl
      · rename_i next found
        have inside := freeElements_subset (nextElement_mem found)
        refine ih fun d member => agree d ?_
        rcases mem_append.mp member with left | placed
        · exact mem_append_left _ (mem_filter.mp left).1
        · rcases mem_cons.mp placed with rfl | placed
          · exact mem_append_left _ inside
          · exact mem_append_right _ placed

theorem placeClasses_result : ∀ {classList cpl result : List α} {precedenceLists : List (List α)},
    placeClasses supers n classList precedenceLists cpl = .ok result →
    ∃ rest, result = cpl.reverse ++ rest ∧ ∀ d, d ∈ rest ↔ d ∈ classList := by
  have finished : ∀ {cpl result : List α} {precedenceLists : List (List α)},
      (if precedenceLists =
        [] then .ok cpl.reverse else .error .cycle : Except ClassError (List α)) =
        .ok result → ∃ rest, result = cpl.reverse ++ rest ∧ ∀ d, d ∈ rest ↔ d ∈ ([] : List α) := by
    intro cpl result precedenceLists returned
    split at returned
    · cases returned
      exact ⟨[], (append_nil _).symm, fun _ => Iff.rfl⟩
    · cases returned
  induction n with
  | zero =>
    intro classList cpl result precedenceLists returned
    cases classList with
    | nil =>
      rw [placeClasses] at returned
      exact finished returned
    | cons c classList => cases returned
  | succ n ih =>
    intro classList cpl result precedenceLists returned
    cases classList with
    | nil =>
      rw [placeClasses] at returned
      exact finished returned
    | cons c classList =>
      simp only [placeClasses] at returned
      split at returned
      · cases returned
      · rename_i next found
        have inside := freeElements_subset (nextElement_mem found)
        obtain ⟨rest, rfl, mem⟩ := ih returned
        refine ⟨next :: rest, by simp, fun d => ?_⟩
        rw [mem_cons, mem, mem_filter, decide_eq_true_eq]
        refine ⟨?_, fun member => ?_⟩
        · rintro (rfl | ⟨member, -⟩)
          · exact inside
          · exact member
        · by_cases same : d = next
          · exact .inl same
          · exact .inr ⟨member, same⟩

variable {limit : Nat} {stored : α → Option (List α)} {c : α}

/-- With several superclasses the list only depends on those, not on what is stored. -/
theorem computeClosClassPrecedenceList_several {superclasses : List α}
    (several : 2 ≤ superclasses.length)
    (computed : computeClosClassPrecedenceList supers limit stored c superclasses = .ok cpl) :
    ∃ classes lists, walkSupers supers limit superclasses [] [superclasses] = .ok (classes, lists) ∧
      placeClasses supers classes.length classes lists [c] = .ok cpl := by
  match superclasses, several with
  | a :: b :: rest, _ =>
    simp only [computeClosClassPrecedenceList] at computed
    cases walked : walkSupers supers limit (a :: b :: rest) [] [a :: b :: rest] with
    | error e =>
      rw [walked] at computed
      cases computed
    | ok result =>
      rw [walked] at computed
      exact ⟨result.1, result.2, rfl, computed⟩

theorem computeClosClassPrecedenceList_eq
    {superclasses classes : List α} {lists : List (List α)} (several : 2 ≤ superclasses.length)
    (walked : walkSupers supers limit superclasses [] [superclasses] = .ok (classes, lists))
    (placed : placeClasses supers classes.length classes lists [c] = .ok cpl) :
    computeClosClassPrecedenceList supers limit stored c superclasses = .ok cpl := by
  match superclasses, several with
  | a :: b :: rest, _ =>
    simp only [computeClosClassPrecedenceList, walked]
    exact placed

theorem computeClosClassPrecedenceList_covers (several : 2 ≤ (supers c).length)
    (computed : computeClosClassPrecedenceList supers limit stored c (supers c) = .ok cpl) :
    ∃ rest, cpl = c :: rest ∧ ∀ d, d ∈ rest ↔ Above supers (supers c) d := by
  obtain ⟨classes, lists, walked, placed⟩ := computeClosClassPrecedenceList_several several computed
  obtain ⟨rest, rfl, mem⟩ := placeClasses_result placed
  exact ⟨rest, rfl, fun d => (mem d).trans (walkSupers_walked walked).mem_iff⟩

theorem computeClosClassPrecedenceList_unique {m : Nat} {stored' : α → Option (List α)}
    {cpl' : List α} (several : 2 ≤ (supers c).length)
    (agree : ∀ d, Relation.ReflTransGen (Direct supers) c d → supers' d = supers d)
    (computed : computeClosClassPrecedenceList supers n stored c (supers c) = .ok cpl)
    (computed' : computeClosClassPrecedenceList supers' m stored' c (supers' c) = .ok cpl') :
    cpl' = cpl := by
  obtain ⟨classes, lists, walked, placed⟩ := computeClosClassPrecedenceList_several several computed
  have own := agree c .refl
  rw [own] at computed'
  obtain ⟨classes', lists', walked', placed'⟩ :=
    computeClosClassPrecedenceList_several several computed'
  have above : ∀ d, Above supers (supers c) d → supers' d = supers d :=
    fun d ⟨b, direct, path⟩ => agree d (.head direct path)
  rw [walkSupers_congr above] at walked'
  have same : (.ok (classes, lists) : Except ClassError _) = .ok (classes', lists') := by
    rw [← walkSupers_mono (Nat.le_max_left n m) walked,
      ← walkSupers_mono (Nat.le_max_right n m) walked']
  cases same
  have covered : ∀ d ∈ classes ++ [c], supers' d = supers d := by
    intro d member
    rcases mem_append.mp member with member | member
    · exact above d ((walkSupers_walked walked).mem_iff.mp member)
    · rw [mem_singleton.mp member]
      exact own
  rw [placeClasses_congr covered, placed] at placed'
  exact (Except.ok.inj placed').symm

end Ecl.Clos
