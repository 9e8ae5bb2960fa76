import Ecl.Lib.Linked
import Ecl.Sequences.Search

/- The set operations of listlib.lsp: the destructive ones on conses in memory, the others on the
elements of their lists. -/
namespace Ecl.Sequences

open Ecl.Lib List Nat

variable {α κ : Type}

section Pure

variable (tests : Tests κ) (key : α → κ)

/-- The loop of UNION; first is the list that ends with the cons last. -/
def unionLoop (list2 : List α) : List α → List α → List α
  | [], first => if first.isEmpty then list2 else first ++ list2
  | x :: l, first =>
    if member1 tests key x list2 then unionLoop list2 l first else unionLoop list2 l (first ++ [x])

def union (list1 list2 : List α) : List α := unionLoop tests key list2 list1 []

/-- The loop of INTERSECTION and SET-DIFFERENCE, which keep members or other elements. -/
def pickLoop (members : Bool) (list2 : List α) : List α → List α → List α
  | [], ans => ans.reverse
  | x :: l, ans =>
    if member1 tests key x list2 = members then pickLoop members list2 l (x :: ans)
    else pickLoop members list2 l ans

def intersection (list1 list2 : List α) : List α := pickLoop tests key true list2 list1 []

def setDifference (list1 list2 : List α) : List α := pickLoop tests key false list2 list1 []

/-- swap-args of :TEST and :TEST-NOT. -/
def Tests.swapArgs (tests : Tests κ) : Tests κ where
  test := tests.test.map fun f x y => f y x
  testNot := tests.testNot.map fun f x y => f y x
  eql := tests.eql
  notBoth := by
    rcases tests.notBoth with none | none
    · exact .inl (by rw [none]; rfl)
    · exact .inr (by rw [none]; rfl)

def setExclusiveOr (list1 list2 : List α) : List α :=
  setDifference tests key list1 list2 ++ setDifference tests.swapArgs key list2 list1

end Pure

/-- The two halves of the conses, with NIL as none, and the address of the next new cons. -/
structure Heap (α : Type) where
  car : Nat → α
  cdr : Nat → Option Nat
  free : Nat

namespace Heap

def rplacd (h : Heap α) (x : Nat) (tail : Option Nat) : Heap α :=
  { h with cdr := fun y => if y = x then tail else h.cdr y }

theorem rplacd_same (h : Heap α) (x : Nat) (tail : Option Nat) :
    (h.rplacd x tail).cdr x = tail := if_pos rfl

theorem rplacd_other (h : Heap α) {x y : Nat} (other : y ≠ x) (tail : Option Nat) :
    (h.rplacd x tail).cdr y = h.cdr y := if_neg other

def cons (h : Heap α) (x : α) (tail : Option Nat) : Heap α where
  car y := if y = h.free then x else h.car y
  cdr y := if y = h.free then tail else h.cdr y
  free := h.free + 1

/-- The elements of a list that is shorter than some length. -/
def read (h : Heap α) : Nat → Option Nat → Option (List α)
  | 0, _ => none
  | _ + 1, none => some []
  | n + 1, some x => (h.read n (h.cdr x)).map (h.car x :: ·)

/-- NCONC of a list of new conses, which nothing else has seen before. -/
def nconcNew (h : Heap α) : List α → Option Nat → Heap α × Option Nat
  | [], tail => (h, tail)
  | x :: l, tail =>
      ((h.nconcNew l tail).1.cons x (h.nconcNew l tail).2, some (h.nconcNew l tail).1.free)

end Heap

section Destructive

variable (tests : Tests κ) (key : α → κ) (fuel : Nat)

/-- The loops of NUNION, NINTERSECTION and NSET-DIFFERENCE. -/
def keepLoop (members : Bool) (list2 : Option Nat) :
    Nat → Heap α → Option Nat → Option Nat → Option Nat →
    Option (Heap α × Option Nat × Option Nat)
  | 0, _, _, _, _ => none
  | _ + 1, h, none, first, last => some (h, first, last)
  | n + 1, h, some x, first, last => do
      let elements ← h.read fuel list2
      if member1 tests key (h.car x) elements = members then
        match last with
        | some last =>
          let h := h.rplacd last (some x)
          keepLoop members list2 n h (h.cdr x) first (some x)
        | none => keepLoop members list2 n h (h.cdr x) (some x) (some x)
      else keepLoop members list2 n h (h.cdr x) first last

/-- (when last (rplacd last tail)) -/
def Heap.end (h : Heap α) (last tail : Option Nat) : Heap α :=
  match last with
  | some last => h.rplacd last tail
  | none => h

def nunion (h : Heap α) (list1 list2 : Option Nat) : Option (Heap α × Option Nat) := do
  let (h, first, last) ← keepLoop tests key fuel false list2 fuel h list1 none none
  some (h.end last list2, first.or list2)

def nintersection (h : Heap α) (list1 list2 : Option Nat) : Option (Heap α × Option Nat) := do
  let (h, first, last) ← keepLoop tests key fuel true list2 fuel h list1 none none
  some (h.end last none, first)

def nsetDifference (h : Heap α) (list1 list2 : Option Nat) : Option (Heap α × Option Nat) := do
  let (h, first, last) ← keepLoop tests key fuel false list2 fuel h list1 none none
  some (h.end last none, first)

def nsetExclusiveOr (h : Heap α) (list1 list2 : Option Nat) : Option (Heap α × Option Nat) := do
  let elements1 ← h.read fuel list1
  let elements2 ← h.read fuel list2
  let (h, rest) ← nsetDifference tests.swapArgs key fuel h list2 list1
  some (h.nconcNew (setDifference tests key elements1 elements2) rest)

end Destructive

structure Heap.Proper (h : Heap α) (list : Option Nat) (cells : List Nat) (elements : List α) :
    Prop where
  linked : Linked h.cdr cells list
  cars : cells.map h.car = elements
  allocated : ∀ c ∈ cells, c < h.free

namespace Heap.Proper

variable {h h' : Heap α} {list : Option Nat} {cells : List Nat} {elements : List α}

theorem read (proper : h.Proper list cells elements) {fuel : Nat} (enough : cells.length < fuel) :
    h.read fuel list = some elements := by
  obtain ⟨linked, cars, allocated⟩ := proper
  induction cells generalizing fuel list elements with
  | nil =>
    obtain ⟨fuel, rfl⟩ : ∃ n, fuel = n + 1 := ⟨fuel - 1, by omega⟩
    cases linked
    exact congrArg some cars
  | cons c cells ih =>
    obtain ⟨fuel, rfl⟩ : ∃ n, fuel = n + 1 := ⟨fuel - 1, by omega⟩
    obtain ⟨rfl, linked⟩ := linked
    rw [Heap.read, ih (lt_of_succ_lt_succ enough) linked rfl fun d member =>
      allocated d (.tail c member)]
    exact congrArg some cars

theorem frame (proper : h.Proper list cells elements) (car : ∀ c ∈ cells, h'.car c = h.car c)
    (cdr : ∀ c ∈ cells, h'.cdr c = h.cdr c) (free : h.free ≤ h'.free) :
      h'.Proper list cells elements where
  linked := proper.linked.congr cdr
  cars := by rw [← proper.cars]; exact map_congr_left car
  allocated c member := lt_of_lt_of_le (proper.allocated c member) free

theorem nconcNew (proper : h.Proper list cells elements) (fresh : List α) :
    ∃ cells', (h.nconcNew fresh list).1.Proper (h.nconcNew fresh list).2 cells'
      (fresh ++ elements) := by
  induction fresh with
  | nil => exact ⟨cells, proper⟩
  | cons x fresh ih =>
    obtain ⟨cells', done⟩ := ih
    have old (c : Nat) (member : c ∈ cells') : c ≠ (h.nconcNew fresh list).1.free :=
      Nat.ne_of_lt (done.allocated c member)
    have kept :
      (h.nconcNew (x :: fresh) list).1.Proper (h.nconcNew fresh list).2 cells'
      (fresh ++ elements) :=
      done.frame (fun c member => if_neg (old c member))
        (fun c member => if_neg (old c member)) (le_succ _)
    have next : (h.nconcNew (x :: fresh) list).1.cdr (h.nconcNew fresh list).1.free =
        (h.nconcNew fresh list).2 := if_pos rfl
    refine ⟨(h.nconcNew fresh list).1.free :: cells', ⟨rfl, ?_⟩, ?_, fun c member => ?_⟩
    · rw [next]
      exact kept.linked
    · rw [map_cons, cons_append]
      exact congr (congrArg List.cons (if_pos rfl)) kept.cars
    · rcases mem_cons.mp member with rfl | member
      · exact lt_succ_self _
      · exact kept.allocated c member

end Heap.Proper

/-- The conses kept so far are linked; the CDR of the last one is not looked at. -/
def Heap.Kept (h : Heap α) (kept : List Nat) (first last : Option Nat) : Prop :=
  kept = [] ∧ first = none ∧ last = none ∨
    ∃ front l, kept = front ++ [l] ∧ last = some l ∧ Segment h.cdr front first (some l)

variable {tests : Tests κ} {key : α → κ} {h : Heap α}

theorem Heap.Kept.mem {kept : List Nat} {first : Option Nat} {l : Nat}
    (state : h.Kept kept first (some l)) : l ∈ kept := by
  rcases state with ⟨-, -, never⟩ | ⟨front, l', rfl, same, -⟩
  · cases never
  · cases same
    exact mem_append_right front mem_cons_self

theorem Heap.Kept.rplacd {kept : List Nat} {first : Option Nat} {l : Nat}
    (state : h.Kept kept first (some l)) (nodup : kept.Nodup) (tail : Option Nat) :
    Segment (h.rplacd l tail).cdr kept first tail := by
  rcases state with ⟨-, -, never⟩ | ⟨front, l', rfl, same, segment⟩
  · cases never
  · cases same
    have other (c : Nat) (member : c ∈ front) : c ≠ l := fun equal =>
      (nodup_append.mp nodup).2.2 c member l mem_cons_self equal
    exact (segment.congr fun c member => h.rplacd_other (other c member) tail).append
      ⟨rfl, h.rplacd_same l tail⟩

variable (tests key) in
theorem keepLoop_eq {fuel : Nat} (members : Bool) {list2 : Option Nat} {cells2 : List Nat}
    {elements2 : List α} (enough2 : cells2.length < fuel) {rest kept : List Nat} {n : Nat}
    {x first last : Option Nat} (proper2 : h.Proper list2 cells2 elements2)
    (state : h.Kept kept first last)
    (apart : ∀ c ∈ kept ++ rest, c ∉ cells2) (nodup : (kept ++ rest).Nodup)
    (linked : Linked h.cdr rest x) (enough : rest.length < n) :
    ∃ h' first' last', keepLoop tests key fuel members list2 n h x first last =
      some (h', first', last') ∧
      h'.Kept (kept ++ rest.filter fun c => member1 tests key (h.car c) elements2 = members)
        first' last' ∧
      h'.car = h.car ∧ h'.free = h.free ∧ ∀ c, c ∉ kept ++ rest → h'.cdr c = h.cdr c := by
  induction rest generalizing n h x first last kept with
  | nil =>
    obtain ⟨n, rfl⟩ : ∃ m, n = m + 1 := ⟨n - 1, by omega⟩
    cases linked
    exact ⟨h, first, last, rfl, by simpa using state, rfl, rfl, fun _ _ => rfl⟩
  | cons c rest ih =>
    obtain ⟨n, rfl⟩ : ∃ m, n = m + 1 := ⟨n - 1, by omega⟩
    obtain ⟨rfl, linked⟩ := linked
    have enough : rest.length < n := lt_of_succ_lt_succ enough
    have parts : kept ++ c :: rest = kept ++ [c] ++ rest := by simp
    have fresh : c ∉ rest := (nodup_cons.mp (nodup_append.mp nodup).2.1).1
    rw [keepLoop.eq_def]
    simp only [proper2.read enough2, Option.bind_eq_bind, Option.bind_some]
    by_cases keeps : member1 tests key (h.car c) elements2 = members
    · rw [if_pos keeps, filter_cons_of_pos (by simpa using keeps)]
      rw [parts] at nodup apart
      cases last with
      | none =>
        obtain ⟨rfl, -, -⟩ : kept = [] ∧ first = none ∧ (none : Option Nat) = none := by
          rcases state with state | ⟨_, _, _, never, _⟩
          · exact state
          · cases never
        obtain ⟨h', first', last', run, state', car, free, cdr⟩ :=
          ih proper2 (.inr ⟨[], c, rfl, rfl, rfl⟩) apart nodup linked enough
        exact ⟨h', first', last', run, state', car, free, cdr⟩
      | some l =>
        have member : l ∈ kept := state.mem
        have distinct : c ≠ l := fun equal =>
          (nodup_append.mp (nodup_append.mp nodup).1).2.2 l member c mem_cons_self equal.symm
        have outside (d : Nat) (out : d ∉ kept ++ c :: rest) : d ≠ l := fun equal =>
          out (equal ▸ mem_append_left _ member)
        have later (d : Nat) (inside : d ∈ rest) : d ≠ l := fun equal =>
          (nodup_append.mp nodup).2.2 l (mem_append_left _ member) d inside equal.symm
        have proper2' : (h.rplacd l (some c)).Proper list2 cells2 elements2 :=
          proper2.frame (fun _ _ => rfl) (fun d inside => h.rplacd_other (fun (equal : d = l) =>
            apart l (mem_append_left _ (mem_append_left _ member)) (equal ▸ inside)) _) (le_refl _)
        have linked' : Linked (h.rplacd l (some c)).cdr rest ((h.rplacd l (some c)).cdr c) := by
          rw [h.rplacd_other distinct]
          exact linked.congr fun d inside => h.rplacd_other (later d inside) _
        obtain ⟨h', first', last', run, state', car, free, cdr⟩ := ih proper2'
          (.inr ⟨kept, c, rfl, rfl, state.rplacd (nodup_append.mp (nodup_append.mp nodup).1).1 _⟩)
          apart nodup linked' enough
        refine ⟨h', first', last', run, ?_, car, free, fun d out => ?_⟩
        · rw [append_assoc] at state'
          exact state'
        · rw [cdr d (parts ▸ out), h.rplacd_other (outside d out)]
    · rw [if_neg keeps, filter_cons_of_neg (by simpa using keeps)]
      have more : (kept ++ rest).Sublist (kept ++ c :: rest) :=
        List.Sublist.append_left (sublist_cons_self c rest) kept
      obtain ⟨h', first', last', run, state', car, free, cdr⟩ := ih proper2 state
        (fun d member => apart d (more.subset member)) (nodup.sublist more) linked enough
      exact ⟨h', first', last', run, state', car, free, fun d out => cdr d fun member =>
        out (more.subset member)⟩

theorem Heap.Kept.end {kept cells : List Nat} {first last tail : Option Nat}
    (state : h.Kept kept first last)
    (nodup : kept.Nodup) (apart : ∀ c ∈ kept, c ∉ cells) (linked : Linked h.cdr cells tail) :
    Linked (h.end last tail).cdr (kept ++ cells) (first.or tail) := by
  cases last with
  | none =>
    rcases state with ⟨rfl, rfl, -⟩ | ⟨_, _, _, never, _⟩
    · exact linked
    · cases never
  | some l =>
    have segment := state.rplacd nodup tail
    have begins : first.or tail = first := by
      cases kept with
      | nil => cases state.mem
      | cons c kept => rw [segment.1, Option.some_or]
    rw [begins]
    exact segment.linked (linked.congr fun c inside => h.rplacd_other
      (fun (equal : c = l) => apart l state.mem (equal ▸ inside)) tail)

theorem unionLoop_eq (list2 l first : List α) :
    unionLoop tests key list2 l first = first ++
      l.filter (fun x => member1 tests key x list2 = false) ++ list2 := by
  induction l generalizing first with
  | nil =>
    rw [unionLoop, filter_nil, append_nil]
    cases first with
    | nil => rfl
    | cons x first => rfl
  | cons x l ih =>
    rw [unionLoop]
    cases member : member1 tests key x list2 with
    | true => rw [if_pos rfl, ih, filter_cons_of_neg (by simp [member])]
    | false =>
      rw [if_neg Bool.false_ne_true, ih, filter_cons_of_pos (by simp [member]),
        append_assoc first, singleton_append]

theorem pickLoop_eq (members : Bool) (list2 l ans : List α) :
    pickLoop tests key members list2 l ans =
      ans.reverse ++ l.filter fun x => member1 tests key x list2 = members := by
  induction l generalizing ans with
  | nil => exact (append_nil _).symm
  | cons x l ih =>
    rw [pickLoop]
    by_cases picks : member1 tests key x list2 = members
    · rw [if_pos picks, ih, reverse_cons, append_assoc, singleton_append,
        filter_cons_of_pos (by simpa using picks)]
    · rw [if_neg picks, ih, filter_cons_of_neg (by simpa using picks)]

section Operations

variable {list1 list2 : Option Nat} {cells1 cells2 : List Nat}
  {elements1 elements2 : List α} {fuel : Nat}

variable (tests key) in
/-- After the loop, the elements kept are a list again, and other lists are the same. -/
theorem keepLoop_proper (members : Bool) (proper1 : h.Proper list1 cells1 elements1)
    (proper2 : h.Proper list2 cells2 elements2) (apart : ∀ c ∈ cells1, c ∉ cells2)
    (enough1 : cells1.length < fuel) (enough2 : cells2.length < fuel) :
    ∃ h' first last,
      keepLoop tests key fuel members list2 fuel h list1 none none = some (h', first, last) ∧
      (∀ {tail : Option Nat} {cells : List Nat} {elements : List α}, h.Proper tail cells elements →
        (∀ c ∈ cells1, c ∉ cells) → ∃ cells', (h'.end last tail).Proper (first.or tail) cells'
          (pickLoop tests key members elements2 elements1 [] ++ elements)) ∧
      ∀ tail, (h'.end last tail).Proper list2 cells2 elements2 := by
  obtain ⟨h', first, last, run, state, car, free, cdr⟩ := keepLoop_eq tests key members
    enough2 proper2 (.inl ⟨rfl, rfl, rfl⟩ : h.Kept [] none none) apart proper1.linked.nodup
      proper1.linked enough1
  simp only [nil_append] at state cdr
  have kept :
    (cells1.filter fun c => member1 tests key (h.car c) elements2 = members).Sublist cells1 :=
    filter_sublist
  have same (tail : Option Nat) : (h'.end last tail).car = h.car := by
    cases last <;> exact car
  have room (tail : Option Nat) : (h'.end last tail).free = h.free := by
    cases last <;> exact free
  refine ⟨h', first, last, run, fun {tail cells elements} proper others =>
    ⟨cells1.filter (fun c => member1 tests key (h.car c) elements2 = members) ++ cells, ?_, ?_, ?_⟩,
      fun tail => ?_⟩
  · exact state.end (proper1.linked.nodup.sublist kept)
      (fun c member => others c (kept.subset member))
      (proper.linked.congr fun c inside => cdr c fun member => others c member inside)
  · rw [same, map_append, proper.cars, pickLoop_eq, reverse_nil, nil_append, ← proper1.cars,
      filter_map]
    rfl
  · rw [room]
    intro c member
    rcases mem_append.mp member with member | member
    · exact proper1.allocated c (kept.subset member)
    · exact proper.allocated c member
  · refine proper2.frame (fun c _ => congrFun (same tail) c) (fun c inside => ?_) (room tail).ge
    have untouched := cdr c fun member => apart c member inside
    cases last with
    | none => exact untouched
    | some l =>
      have other : c ≠ l := fun equal => apart l (kept.subset state.mem) (equal ▸ inside)
      exact (h'.rplacd_other other tail).trans untouched

variable (tests key) in
/-- The destructive operations give the elements that the others give. -/
theorem listlib (proper1 : h.Proper list1 cells1 elements1)
    (proper2 : h.Proper list2 cells2 elements2)
    (apart : ∀ c ∈ cells1, c ∉ cells2) (enough1 : cells1.length < fuel)
    (enough2 : cells2.length < fuel) :
    (∃ h' l cells, nunion tests key fuel h list1 list2 = some (h', l) ∧
      h'.Proper l cells (union tests key elements1 elements2)) ∧
    (∃ h' l cells, nintersection tests key fuel h list1 list2 = some (h', l) ∧
      h'.Proper l cells (intersection tests key elements1 elements2) ∧
        h'.Proper list2 cells2 elements2) ∧
    (∃ h' l cells, nsetDifference tests key fuel h list1 list2 = some (h', l) ∧
      h'.Proper l cells (setDifference tests key elements1 elements2) ∧
        h'.Proper list2 cells2 elements2) ∧
    ∃ h' l cells, nsetExclusiveOr tests key fuel h list1 list2 = some (h', l) ∧
      h'.Proper l cells (setExclusiveOr tests key elements1 elements2) := by
  have nothing : h.Proper none [] [] := ⟨rfl, rfl, fun c member => nomatch member⟩
  have keep (members : Bool) :=
    keepLoop_proper tests key members proper1 proper2 apart enough1 enough2
  refine ⟨?_, ?_, ?_, ?_⟩
  · obtain ⟨h', first, last, run, ends, -⟩ := keep false
    obtain ⟨cells, proper⟩ := ends proper2 apart
    refine ⟨h'.end last list2, first.or list2, cells, ?_, ?_⟩
    · rw [nunion, run]
      rfl
    · rw [union, unionLoop_eq]
      rw [pickLoop_eq] at proper
      exact proper
  · obtain ⟨h', first, last, run, ends, same⟩ := keep true
    obtain ⟨cells, proper⟩ := ends nothing fun c _ => not_mem_nil
    refine ⟨h'.end last none, first, cells, ?_, ?_, same none⟩
    · rw [nintersection, run]
      rfl
    · rw [Option.or_none, append_nil] at proper
      exact proper
  · obtain ⟨h', first, last, run, ends, same⟩ := keep false
    obtain ⟨cells, proper⟩ := ends nothing fun c _ => not_mem_nil
    refine ⟨h'.end last none, first, cells, ?_, ?_, same none⟩
    · rw [nsetDifference, run]
      rfl
    · rw [Option.or_none, append_nil] at proper
      exact proper
  · obtain ⟨h', first, last, run, ends, -⟩ :=
      keepLoop_proper tests.swapArgs key false proper2 proper1
      (fun c inside member => apart c member inside) enough2 enough1
    obtain ⟨cells, proper⟩ := ends nothing fun c _ => not_mem_nil
    rw [Option.or_none, append_nil] at proper
    obtain ⟨cells', proper'⟩ := proper.nconcNew (setDifference tests key elements1 elements2)
    refine ⟨_, _, cells', ?_, proper'⟩
    rw [nsetExclusiveOr, nsetDifference, proper1.read enough1, proper2.read enough2, run]
    rfl

end Operations

/-- The conses of (1 2) and (2 3). -/
def twoLists : Heap Nat where
  car x := if x < 2 then x + 1 else x
  cdr x := if x % 2 = 0 then some (x + 1) else none
  free := 4

theorem listlib_twoLists :
    (∃ h' l cells, nunion plainTests id 3 twoLists (some 0) (some 2) = some (h', l) ∧
      h'.Proper l cells [1, 2, 3]) ∧
    (∃ h' l cells, nintersection plainTests id 3 twoLists (some 0) (some 2) = some (h', l) ∧
      h'.Proper l cells [2] ∧ h'.Proper (some 2) [2, 3] [2, 3]) ∧
    (∃ h' l cells, nsetDifference plainTests id 3 twoLists (some 0) (some 2) = some (h', l) ∧
      h'.Proper l cells [1] ∧ h'.Proper (some 2) [2, 3] [2, 3]) ∧
    ∃ h' l cells, nsetExclusiveOr plainTests id 3 twoLists (some 0) (some 2) = some (h', l) ∧
      h'.Proper l cells [1, 3] :=
  have proper1 : twoLists.Proper (some 0) [0, 1] [1, 2] := ⟨⟨rfl, rfl, rfl⟩, rfl, by decide⟩
  have proper2 : twoLists.Proper (some 2) [2, 3] [2, 3] := ⟨⟨rfl, rfl, rfl⟩, rfl, by decide⟩
  listlib plainTests id proper1 proper2 (by decide) (by decide) (by decide)

end Ecl.Sequences
