import Ecl.Sequences.Duplicates

/- Which calls of the functions of seqlib.lsp signal an error for their bounds, and what the other
calls do between them. -/
namespace Ecl.Sequences

open List

open Ecl.Number (mostPositiveFixnum mostPositiveFixnum_eq)

variable {α κ : Type}

/-- All elements of a list, or of a vector. -/
def Sequence.whole : Sequence α → List α
  | .list l => l.elements
  | .vector v => v.self

/-- A call signals an error if and only if its bounds are out of order or behind the last element.
-/
structure Confined {γ : Type} (s : Sequence α) (start : Nat) (stop : Option Nat)
    (result : Except SeqError γ)
    (expected : γ → Prop) : Prop where
  error : (∃ e, e ≠ .overrun ∧ result = .error e) ↔ ¬s.Bounded start stop
  returns : s.Bounded start stop → ∃ r, result = .ok r ∧ expected r

/-- The other arguments of the functions. The function of REDUCE signals nothing, and the bounds of
the other sequence are accepted. -/
structure Arguments (α κ : Type) where
  tests : Tests κ
  key : α → κ
  item : κ
  fromEnd : Bool
  limit : Option Int
  nil : α
  newitem : α
  nullary : α
  function : α → α → α
  elementKey : α → α
  initialValue : Option α
  other : Sequence α
  start2 : Nat
  end2 : Option Nat
  bounded : other.Bounded start2 end2

/-- The number of elements that REPLACE copies. -/
def copied (s t : Sequence α) (start : Nat) (stop : Option Nat) (start2 : Nat) (end2 : Option Nat) :
    Nat :=
  min (stop.getD s.elements.length - start) (end2.getD t.elements.length - start2)

/-- The sequence with elements of another one in place of those between the bounds. -/
def Replaced (s t : Sequence α) (start : Nat) (stop : Option Nat) (start2 : Nat) (end2 : Option Nat)
    (r : List α) : Prop :=
  ∀ k, r[k]? = if start ≤ k ∧ k < start + copied s t start stop start2 end2 then
    t.elements[start2 + (k - start)]? else s.elements[k]?

namespace Arguments

variable (c : Arguments α κ)

def callee : Callee α := ⟨.ok c.nullary, fun x y => .ok (c.function x y)⟩

def selected (s : Sequence α) (start stop : Nat) : List Nat :=
  chosen (matchesAt c.tests c.key c.item s.elements) c.fromEnd start stop c.limit

/-- The indices between the bounds of the elements that satisfy the test. -/
def hits (s : Sequence α) (start stop : Nat) : List Nat :=
  (indices c.fromEnd start stop).filter (matchesAt c.tests c.key c.item s.elements)

/-- Every function signals an error where it should, and otherwise goes by the elements between the
bounds, in each place of the sequence. -/
structure Respects (s : Sequence α) (start : Nat) (stop : Option Nat) : Prop where
  remove : Confined s start stop
    (remove c.tests c.key c.item s c.fromEnd start (argument stop) c.nil c.limit)
    (· = (without s.elements (c.selected s start (stop.getD s.elements.length))).map some)
  delete : Confined s start stop
    (delete c.tests c.key c.item s c.fromEnd start (argument stop) c.limit)
    (· = (without s.elements (c.selected s start (stop.getD s.elements.length))).map some)
  count : Confined s start stop (count c.tests c.key c.item s c.fromEnd start (argument stop))
    (· = (c.hits s start (stop.getD s.elements.length)).length)
  find : Confined s start stop (find c.tests c.key c.item s c.fromEnd start (argument stop))
    (· = (c.hits s start (stop.getD s.elements.length)).head?.bind (s.elements[·]?))
  position : Confined s start stop (position c.tests c.key c.item s c.fromEnd start (argument stop))
    (· = (c.hits s start (stop.getD s.elements.length)).head?)
  substitute : Confined s start stop
    (substitute c.tests c.key c.item s c.fromEnd start (argument stop) c.newitem c.limit)
    (· =
      (replaced s.elements (c.selected s start (stop.getD s.elements.length)) c.newitem).map some)
  nsubstitute : Confined s start stop
    (nsubstitute c.tests c.key c.item s c.fromEnd start (argument stop) c.newitem c.limit)
    (· = replaced s.elements (c.selected s start (stop.getD s.elements.length)) c.newitem)
  selected_between : s.Bounded start stop → ∀ i ∈ c.selected s start (stop.getD s.elements.length),
    start ≤ i ∧ i < stop.getD s.elements.length
  removeDuplicates : Confined s start stop
    (removeDuplicates c.tests c.key s c.fromEnd (some (start : Int)) (argument stop))
    (· = (without s.elements (duplicates c.tests c.key s.elements c.fromEnd start
      (stop.getD s.elements.length))).map some)
  reduce : Confined s start stop
    (reduce c.callee s c.fromEnd start (argument stop) c.elementKey c.initialValue)
    fun r => folded c.callee c.fromEnd c.initialValue (started c.fromEnd c.elementKey c.initialValue
      (slice s.elements start (stop.getD s.elements.length))) = .ok r
  fill : Confined s start stop (fill s c.newitem start (argument stop))
    (· = s.whole.take start ++ List.replicate (stop.getD s.elements.length - start) c.newitem ++
      s.whole.drop (stop.getD s.elements.length))
  replaceInto : Confined s start stop
    (replace false s c.other start (argument stop) c.start2 (argument c.end2))
    (Replaced s c.other start stop c.start2 c.end2)
  replaceFrom : Confined s start stop
    (replace false c.other s c.start2 (argument c.end2) start (argument stop))
    (Replaced c.other s c.start2 c.end2 start stop)
  replaceItself : ∀ start2 end2, s.Bounded start2 end2 → Confined s start stop
    (replace true s s start (argument stop) start2 (argument end2))
    (Replaced s s start stop start2 end2)
  mismatchFirst : Confined s start stop
    (mismatch c.tests c.key s c.other c.fromEnd start (argument stop) c.start2 (argument c.end2))
    (Compared c.tests c.key s.elements c.other.elements c.fromEnd start
      (stop.getD s.elements.length) c.start2
      (c.end2.getD c.other.elements.length))
  mismatchSecond : Confined s start stop
    (mismatch c.tests c.key c.other s c.fromEnd c.start2 (argument c.end2) start (argument stop))
    (Compared c.tests c.key c.other.elements s.elements c.fromEnd c.start2
      (c.end2.getD c.other.elements.length) start (stop.getD s.elements.length))
  searchFirst : Confined s start stop
    (search c.tests c.key s c.other c.fromEnd start (argument stop) c.start2 (argument c.end2))
    (Sought c.tests c.key s.elements c.other.elements c.fromEnd start
      (stop.getD s.elements.length) c.start2
      (c.end2.getD c.other.elements.length))
  searchSecond : Confined s start stop
    (search c.tests c.key c.other s c.fromEnd c.start2 (argument c.end2) start (argument stop))
    (Sought c.tests c.key c.other.elements s.elements c.fromEnd c.start2
      (c.end2.getD c.other.elements.length) start (stop.getD s.elements.length))

end Arguments

section

variable {s : Sequence α} {start : Nat} {stop : Option Nat} {γ : Type} {result : Except SeqError γ}
  {expected : γ → Prop}

theorem Confined.of_ok (bounded : s.Bounded start stop)
    (returns : ∃ r, result = .ok r ∧ expected r) :
    Confined s start stop result expected := by
  refine ⟨iff_of_false ?_ (not_not_intro bounded), fun _ => returns⟩
  obtain ⟨r, run, -⟩ := returns
  rintro ⟨e, -, failed⟩
  cases run.symm.trans failed

theorem Confined.of_error (unbounded : ¬s.Bounded start stop)
    (failed : result = .error .startAfterEnd) :
    Confined s start stop result expected :=
  ⟨iff_of_true ⟨.startAfterEnd, by decide, failed⟩ unbounded, fun bounded =>
    absurd bounded unbounded⟩

end

theorem mem_chosen {satisfied : Nat → Bool} {fromEnd : Bool} {start stop i : Nat}
    {limit : Option Int}
    (member : i ∈ chosen satisfied fromEnd start stop limit) : start ≤ i ∧ i < stop := by
  have among : i ∈ (List.range' start (stop - start)).filter satisfied := by
    have found : i ∈ (if fromEnd then ((List.range' start (stop - start)).filter satisfied).reverse
        else (List.range' start (stop - start)).filter satisfied) := by
      cases limit with
      | none => exact member
      | some count => exact mem_of_mem_take member
    split at found
    · exact mem_reverse.mp found
    · exact found
  have := mem_range'_1.mp (mem_filter.mp among).1
  omega

namespace Arguments

variable (c : Arguments α κ) {s : Sequence α} {start : Nat} {stop : Option Nat}

theorem satisfies_total (bounded : s.Bounded start stop) (i : Nat)
    (member : i ∈ indices c.fromEnd start (stop.getD s.elements.length)) :
    satisfiesTheTest c.tests c.key c.item s.elements i =
      .ok (matchesAt c.tests c.key c.item s.elements i) :=
  satisfiesTheTest_eq (Nat.lt_of_lt_of_le (mem_indices.mp member).2 bounded.inside)

theorem findLoop_hits (bounded : s.Bounded start stop) :
    findLoop (satisfiesTheTest c.tests c.key c.item s.elements)
      (indices c.fromEnd start (stop.getD s.elements.length)) =
      .ok (c.hits s start (stop.getD s.elements.length)).head? := by
  rw [findLoop_eq (c.satisfies_total bounded), hits, List.head?_filter]

theorem count_eq (bounded : s.Bounded start stop) :
    Sequences.count c.tests c.key c.item s c.fromEnd start (argument stop) =
      .ok (c.hits s start (stop.getD s.elements.length)).length := by
  have counted := countLoop_all (c.satisfies_total bounded) 0
  rw [Nat.zero_add] at counted
  rw [Sequences.count, sequenceLimits_of_bounded bounded, Lib.ok_bind]
  exact counted

theorem position_eq (bounded : s.Bounded start stop) :
    Sequences.position c.tests c.key c.item s c.fromEnd start (argument stop) =
      .ok (c.hits s start (stop.getD s.elements.length)).head? := by
  rw [Sequences.position, sequenceLimits_of_bounded bounded, Lib.ok_bind]
  exact c.findLoop_hits bounded

theorem find_eq (bounded : s.Bounded start stop) :
    Sequences.find c.tests c.key c.item s c.fromEnd start (argument stop) =
      .ok ((c.hits s start (stop.getD s.elements.length)).head?.bind (s.elements[·]?)) := by
  simp only [Sequences.find, sequenceLimits_of_bounded bounded, Lib.ok_bind,
    c.findLoop_hits bounded]
  cases found : (c.hits s start (stop.getD s.elements.length)).head? with
  | none => rfl
  | some i =>
    have within := mem_indices.mp (mem_filter.mp (mem_of_head? found)).1
    have inside : i < s.elements.length := Nat.lt_of_lt_of_le within.2 bounded.inside
    rw [Option.bind_some, List.getElem?_eq_getElem inside]
    simp only [elt_eq inside]
    rfl

theorem folded_callee (xs : List α) : ∃ r, folded c.callee c.fromEnd c.initialValue xs = .ok r := by
  have up (x : α) (xs : List α) : xs.foldlM c.callee.binary x = .ok (xs.foldl c.function x) :=
    foldlM_pure
  have down (x : α) (xs : List α) : xs.foldrM c.callee.binary x = .ok (xs.foldr c.function x) :=
    foldrM_pure
  rw [folded.eq_def]
  split
  · split
    · exact ⟨_, down _ xs⟩
    · exact ⟨_, up _ xs⟩
  · split
    · split
      · exact ⟨c.nullary, rfl⟩
      · exact ⟨_, down _ _⟩
    · split
      · exact ⟨c.nullary, rfl⟩
      · exact ⟨_, up _ _⟩

theorem reduce_returns (bounded : s.Bounded start stop) :
    ∃ r, Sequences.reduce c.callee s c.fromEnd start
      (argument stop) c.elementKey c.initialValue = .ok r ∧
      folded c.callee c.fromEnd c.initialValue (started c.fromEnd c.elementKey c.initialValue
        (slice s.elements start (stop.getD s.elements.length))) = .ok r := by
  obtain ⟨r, fold⟩ := c.folded_callee (started c.fromEnd c.elementKey c.initialValue
    (slice s.elements start (stop.getD s.elements.length)))
  exact ⟨r, (reduce_eq c.callee c.fromEnd bounded c.elementKey c.initialValue).trans fold, fold⟩

end Arguments

section

variable {s : Sequence α} {start : Nat} {stop : Option Nat}

theorem fillConses_eq (item : α) {n : Nat} (i : Nat) {l : List α} (inside : n ≤ l.length) :
    fillConses item n i l = .ok (List.replicate n item ++ l.drop n) := by
  induction n generalizing i l with
  | zero => cases l <;> rfl
  | succ n ih =>
    cases l with
    | nil => cases inside
    | cons x l =>
      rw [fillConses, ih (i + 1) (Nat.le_of_succ_le_succ inside)]
      rfl

theorem fill_eq (item : α) (bounded : s.Bounded start stop) :
    fill s item start (argument stop) = .ok (s.whole.take start ++
      List.replicate (stop.getD s.elements.length - start) item ++
        s.whole.drop (stop.getD s.elements.length)) := by
  have order := bounded.order
  have inside := bounded.inside
  simp only [fill, sequenceLimits_of_bounded bounded, Lib.ok_bind]
  generalize stop.getD s.elements.length = stop at order inside ⊢
  cases s with
  | list l =>
    have inside : stop ≤ l.elements.length := inside
    have filled : fillConses item (stop - start) start (l.elements.drop start) = _ :=
      fillConses_eq item start (by rw [length_drop]; omega)
    rw [drop_drop, Nat.add_sub_of_le order] at filled
    simp only [filled, Lib.ok_bind, Sequence.whole, append_assoc]
    rfl
  | vector v =>
    have inside : stop ≤ (v.self.take v.fillp).length := inside
    rw [length_take] at inside
    simp only [fillArrayWithElt, Sequence.whole]
    by_cases none : stop ≤ start
    · obtain rfl := Nat.le_antisymm none order
      rw [if_pos none, Nat.sub_self, replicate_zero, append_nil, take_append_drop]
    · rw [if_neg none, if_pos (by omega)]

end

theorem replaceLoop_eq {same : Bool} {source l2 : List α} {s1 s2 : Nat} {is : List Nat}
    {current : List α}
    (inside : ∀ i ∈ is, s1 + i < current.length ∧ s2 + i < source.length)
    (unread : ∀ i ∈ is, (if same then current else l2)[s2 + i]? = source[s2 + i]?)
    (apart : is.Pairwise fun i j => same = true → s1 + i ≠ s2 + j) :
    ∃ final, replaceLoop same l2 s1 s2 current is = .ok final ∧
      ∀ k, final[k]? = if s1 ≤ k ∧ k - s1 ∈ is then source[s2 + (k - s1)]? else current[k]? := by
  induction is generalizing current with
  | nil => exact ⟨current, rfl, fun k => by simp⟩
  | cons i is ih =>
    obtain ⟨here, there⟩ := inside i (.head is)
    have first := unread i (.head is)
    rw [List.getElem?_eq_getElem there] at first
    obtain ⟨now, later⟩ := pairwise_cons.mp apart
    have read : elt (if same then current else l2) (s2 + i) = .ok source[s2 + i] := by
      rw [elt, first]
    rw [replaceLoop, read, Lib.ok_bind, eltSet_eq here, Lib.ok_bind]
    obtain ⟨final, run, elements⟩ := @ih (current.set (s1 + i) source[s2 + i])
      (fun j member => by rw [length_set]; exact inside j (.tail i member))
      (fun j member => by
        rw [← unread j (.tail i member)]
        cases same with
        | false => rfl
        | true =>
          rw [if_pos rfl, if_pos rfl]
          exact List.getElem?_set_ne (now j member rfl))
      later
    refine ⟨final, run, fun k => ?_⟩
    rw [elements k, getElem?_set_of_lt here]
    by_cases equal : s1 + i = k
    · subst equal
      simp [List.getElem?_eq_getElem there]
    · by_cases low : s1 ≤ k
      · have other : k - s1 ≠ i := by omega
        simp [low, equal, other]
      · simp [low, equal]

theorem replace_eq {same : Bool} {s t : Sequence α} {start start2 : Nat} {stop end2 : Option Nat}
    (itself : same = true → t.elements = s.elements) (bounded : s.Bounded start stop)
    (bounded2 : t.Bounded start2 end2) :
    ∃ final, replace same s t start (argument stop) start2 (argument end2) = .ok final ∧
      Replaced s t start stop start2 end2 final := by
  have inside := bounded.inside
  have inside2 := bounded2.inside
  have least (a b : Nat) : (if a < b then a else b) = min a b := by
    split <;> omega
  simp only [replace, sequenceLimits_of_bounded bounded, sequenceLimits_of_bounded bounded2,
    Lib.ok_bind, least, Replaced]
  rw [← copied]
  have few : copied s t start stop start2 end2 ≤ stop.getD s.elements.length - start :=
    Nat.min_le_left _ _
  have few2 : copied s t start stop start2 end2 ≤ end2.getD t.elements.length - start2 :=
    Nat.min_le_right _ _
  generalize copied s t start stop start2 end2 = n at few few2 ⊢
  have among (i : Nat) :
    i ∈ (if (same && decide (start2 < start)) = true then (List.range n).reverse
      else List.range n) ↔ i < n := by
    split <;> simp
  have apart : (if (same && decide (start2 < start)) = true then (List.range n).reverse
      else List.range n).Pairwise fun i j => same = true → start + i ≠ start2 + j := by
    split
    · rename_i back
      rw [Bool.and_eq_true, decide_eq_true_eq] at back
      exact pairwise_reverse.mpr (pairwise_lt_range.imp fun before _ => by omega)
    · rename_i up
      rw [Bool.and_eq_true, decide_eq_true_eq] at up
      refine pairwise_lt_range.imp fun before one => ?_
      have low : ¬start2 < start := fun back => up ⟨one, back⟩
      omega
  obtain ⟨final, run, elements⟩ :=
    @replaceLoop_eq _ same t.elements t.elements start start2 _ s.elements
    (fun i member => by
      have := (among i).mp member
      omega)
    (fun i _ => by
      split
      · rename_i one
        rw [itself one]
      · rfl)
    apart
  refine ⟨final, run, fun k => ?_⟩
  rw [elements k]
  refine if_congr ?_ rfl rfl
  rw [among]
  omega

theorem substitute_ok {tests : Tests κ} {key : α → κ} {item : κ} {s : Sequence α}
    {fromEnd : Bool} {start : Int}
    {stop : Option Int} {newitem : α} {limit : Option Int} {bounds : Nat × Nat}
    (limits : sequenceLimits (some start) stop s.elements.length = .ok bounds) :
    ∃ result, substitute tests key item s fromEnd start stop newitem limit = .ok result := by
  have within (i : Nat) (member : i ∈ indices fromEnd 0 s.elements.length) :
    i < s.elements.length :=
    (mem_indices.mp member).2
  obtain ⟨final, run, -⟩ :=
    @substituteLoop_eq _ s.elements _ _ newitem _ (indices_nodup fromEnd 0 s.elements.length)
    (fun i member k =>
      inRange_eq (@satisfiesTheTest_eq _ _ s.elements tests key item i (within i member))
      bounds.1 bounds.2 (countLimit limit) k)
    within 0 _ (@length_replicate (Option α) s.elements.length none)
  refine ⟨final, ?_⟩
  simp only [substitute, limits, Lib.ok_bind]
  rw [makeSequence, if_pos (Int.natCast_nonneg _), Lib.ok_bind, Int.toNat_natCast]
  exact run

theorem removeDuplicates_error {tests : Tests κ} {key : α → κ} {s : Sequence α}
    {fromEnd : Bool} {start : Int}
    {stop : Option Int}
    (limits : sequenceLimits (some start) stop s.elements.length = .error .startAfterEnd) :
    removeDuplicates tests key s fromEnd (some start) stop = .error .startAfterEnd := by
  have same : removeDuplicates tests key s fromEnd (some start) stop =
      deleteDuplicates tests key s fromEnd (some start) stop := by
    cases s <;> cases fromEnd <;> rfl
  rw [same, deleteDuplicates.eq_def]
  cases s <;> cases fromEnd <;> simp only [limits] <;> rfl

namespace Arguments

/-- The functions treat the bounds of a sequence as they should, if and only if the end is not
behind the last element or is before the start. -/
theorem respects_iff (c : Arguments α κ) (s : Sequence α) {start : Nat} {stop : Option Nat}
    (startFixnum : (start : Int) ≤ mostPositiveFixnum)
    (stopFixnum : ∀ n, stop = some n → (n : Int) ≤ mostPositiveFixnum) :
    c.Respects s start stop ↔ ∀ n, stop = some n → n ≤ s.elements.length ∨ n < start := by
  have limits := sequenceLimits_eq s startFixnum stopFixnum
  constructor
  · intro respects n given
    subst given
    rw [Option.getD_some] at limits
    by_contra behind
    rw [not_or, Nat.not_le, Nat.not_lt] at behind
    rw [if_pos behind.2] at limits
    have unbounded : ¬s.Bounded start (some n) :=
      fun bounded => Nat.not_le.mpr behind.1 bounded.inside
    obtain ⟨e, -, failed⟩ := respects.substitute.error.mpr unbounded
    obtain ⟨result, run⟩ :=
      @substitute_ok _ _ c.tests c.key c.item s c.fromEnd _ _ c.newitem c.limit _ limits
    cases run.symm.trans failed
  · intro accepted
    by_cases bounded : s.Bounded start stop
    · exact
        { remove := .of_ok bounded ⟨_, remove_eq _ _ _ _ _ _ bounded, rfl⟩
          delete := .of_ok bounded ⟨_, delete_eq _ _ _ _ _ bounded, rfl⟩
          count := .of_ok bounded ⟨_, c.count_eq bounded, rfl⟩
          find := .of_ok bounded ⟨_, c.find_eq bounded, rfl⟩
          position := .of_ok bounded ⟨_, c.position_eq bounded, rfl⟩
          substitute := .of_ok bounded ⟨_, substitute_eq _ _ _ _ _ _ bounded, rfl⟩
          nsubstitute := .of_ok bounded ⟨_, nsubstitute_eq _ _ _ _ _ _ bounded, rfl⟩
          selected_between := fun _ _ => mem_chosen
          removeDuplicates := .of_ok bounded ⟨_, removeDuplicates_eq bounded, rfl⟩
          reduce := .of_ok bounded (c.reduce_returns bounded)
          fill := .of_ok bounded ⟨_, fill_eq c.newitem bounded, rfl⟩
          replaceInto := .of_ok bounded (replace_eq (fun never => by cases never) bounded c.bounded)
          replaceFrom := .of_ok bounded (replace_eq (fun never => by cases never) c.bounded bounded)
          replaceItself :=
            fun _ _ bounded2 => .of_ok bounded (replace_eq (fun _ => rfl) bounded bounded2)
          mismatchFirst := .of_ok bounded (mismatch_compared _ _ _ bounded c.bounded)
          mismatchSecond := .of_ok bounded (mismatch_compared _ _ _ c.bounded bounded)
          searchFirst := .of_ok bounded (search_sought _ _ _ bounded c.bounded)
          searchSecond := .of_ok bounded (search_sought _ _ _ c.bounded bounded) }
    · have disordered : ¬start ≤ stop.getD s.elements.length := by
        intro order
        refine bounded ⟨order, ?_⟩
        cases stop with
        | none => exact Nat.le_refl _
        | some n => exact (accepted n rfl).resolve_right (Nat.not_lt.mpr order)
      rw [if_neg disordered] at limits
      have limits2 := sequenceLimits_of_bounded c.bounded
      exact
        { remove := .of_error bounded (by simp only [Sequences.remove, limits]; rfl)
          delete := .of_error bounded (by simp only [Sequences.delete, limits]; rfl)
          count := .of_error bounded (by simp only [Sequences.count, limits]; rfl)
          find := .of_error bounded (by simp only [Sequences.find, limits]; rfl)
          position := .of_error bounded (by simp only [Sequences.position, limits]; rfl)
          substitute := .of_error bounded (by simp only [Sequences.substitute, limits]; rfl)
          nsubstitute := .of_error bounded (by simp only [Sequences.nsubstitute, limits]; rfl)
          selected_between := fun bounded' => absurd bounded' bounded
          removeDuplicates := .of_error bounded (removeDuplicates_error limits)
          reduce := .of_error bounded (by simp only [Sequences.reduce, limits]; rfl)
          fill := .of_error bounded (by simp only [Sequences.fill, limits]; rfl)
          replaceInto := .of_error bounded (by simp only [Sequences.replace, limits]; rfl)
          replaceFrom := .of_error bounded (by simp only [Sequences.replace, limits, limits2]; rfl)
          replaceItself :=
            fun _ _ _ => .of_error bounded (by simp only [Sequences.replace, limits]; rfl)
          mismatchFirst := .of_error bounded (by simp only [Sequences.mismatch, limits]; rfl)
          mismatchSecond :=
            .of_error bounded (by simp only [Sequences.mismatch, limits, limits2]; rfl)
          searchFirst := .of_error bounded (by simp only [Sequences.search, limits]; rfl)
          searchSecond :=
            .of_error bounded (by simp only [Sequences.search, limits, limits2]; rfl) }

end Arguments

/-- EQL as the test, and (1 2) as the other sequence. -/
def eqlArguments : Arguments Nat Nat :=
  ⟨plainTests, id, 9, false, none, 0, 7, 0, (· + ·), id, none, oneTwo, 0, none, oneTwo_bounded⟩

theorem respects_iff_oneTwo :
    eqlArguments.Respects oneTwo 1 (some 2) ↔ ∀ n, some 2 = some n →
      n ≤ oneTwo.elements.length ∨ n < 1 :=
  eqlArguments.respects_iff oneTwo (by decide) fun n given => by
    cases given
    decide

/-- (remove 9 '(1 2) :start 3 :end 3) is (1 2 NIL), where 0 is NIL. -/
theorem remove_behind_end :
    remove plainTests id 9 oneTwo false (3 : Nat) (argument (some 3)) 0 none =
      .ok [some 1, some 2, some 0] ∧
      ¬∀ (c : Arguments Nat Nat) (s : Sequence Nat) (start : Nat) (stop : Option Nat),
        (start : Int) ≤ mostPositiveFixnum → (∀ n, stop = some n → (n : Int) ≤ mostPositiveFixnum) →
        c.Respects s start stop := by
  refine ⟨by decide, fun all => ?_⟩
  have respects := all eqlArguments oneTwo 3 (some 3) (by decide) fun n given => by
    cases given
    decide
  have unbounded : ¬oneTwo.Bounded 3 (some 3) := fun bounded => absurd bounded.inside (by decide)
  obtain ⟨e, -, failed⟩ := respects.remove.error.mpr unbounded
  have run : remove plainTests id 9 oneTwo false (3 : Nat) (argument (some 3)) 0 none =
    .ok [some 1, some 2, some 0] := by
    decide
  cases run.symm.trans failed

end Ecl.Sequences
