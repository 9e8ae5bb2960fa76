import Mathlib.Data.Nat.Factorization.Basic

/- The frame stack, the binding stack and the interpreter stack are moved to larger areas:
frs_set_size and ecl_bds_set_size of stacks.d, ecl_stack_set_size of interpreter.d. -/
namespace Ecl.Stacks

open List Int

variable {α : Type}

/-- A stack as its area with the address of the first cell, the index of the top and the address
of the limit. A cell without an element is memory that nothing was stored in. -/
structure Stack (α : Type) where
  cells : List (Option α)
  org : Nat
  top : Int
  limit : Nat
  size : Nat

/-- A cl_index. -/
def toIndex (n : Int) : Nat := (n % 2 ^ 64).toNat

/-- The pointer org + n to elements of so many bytes, as an address. -/
def pointer (width org n : Nat) : Nat := (org + n * width) % 2 ^ 64

/-- ecl_alloc_atomic(n * width). -/
def allocAtomic (n width : Nat) : List (Option α) :=
  List.replicate (n * width % 2 ^ 64 / width) none

/-- The new area after some cells of the old one, from an index on, are copied to its start. -/
def memcpy (new old : List (Option α)) (source : Int) (count : Nat) : List (Option α) :=
  new.mapIdx fun i cell =>
    if i < count then if 0 ≤ source + i then old[(source + i).toNat]?.join else none else cell

/-- A stack that was moved, with the cells of the old area that were read and those of the new
area that were written. -/
structure Resized (α : Type) where
  stack : Stack α
  reads : List Int
  writes : List Nat

inductive StackError where
  | cannotShrink (limit : Nat)
  deriving DecidableEq

/-- The move to a new area of the given size at `org`, as frs_set_size and ecl_bds_set_size do
it. -/
def moveArea (width margin org : Nat) (env : Stack α) (oldOrg : Int) (limit size : Nat) :
    Resized α where
  stack := {
    cells := memcpy (allocAtomic size width) env.cells oldOrg (limit + 1)
    org := org
    top := limit
    limit := pointer width org (toIndex (size - 2 * margin))
    size := size }
  reads := (List.range (limit + 1)).map fun (i : Nat) => oldOrg + i
  writes := List.range (limit + 1)

/-- frs_set_size, where old_org is frs_top. -/
def frsSetSize (width margin org : Nat) (env : Stack α) (size : Nat) :
    Except StackError (Resized α) :=
  let oldOrg := env.top
  let limit := toIndex (env.top - oldOrg)
  if size ≤ limit then .error (.cannotShrink limit)
  else .ok (moveArea width margin org env oldOrg limit ((size + 2 * margin) % 2 ^ 64))

def bdsSetSize (width margin org : Nat) (env : Stack α) (size : Nat) :
    Except StackError (Resized α) :=
  let oldOrg := 0
  let limit := toIndex (env.top - oldOrg)
  if size ≤ limit then .error (.cannotShrink limit)
  else .ok (moveArea width margin org env oldOrg limit size)

def lispPagesize : Nat := 2048

/-- The new size that ecl_stack_set_size makes. -/
def roundSize (newSize : Nat) : Nat :=
  (newSize + (lispPagesize - 1)) % 2 ^ 64 / lispPagesize * newSize % 2 ^ 64

/-- ecl_stack_set_size, where zero is MAKE_FIXNUM(0). The top is one past the last element. -/
def stackSetSize (safetyArea org : Nat) (zero : α) (env : Stack α) (tentativeNewSize : Nat) :
    Except StackError (Resized α) :=
  let newSize := roundSize ((tentativeNewSize + 2 * safetyArea) % 2 ^ 64)
  let moved := memcpy (allocAtomic newSize 8) env.cells 0 env.size
  if newSize < env.top then .error (.cannotShrink newSize)
  else
    .ok {
      stack := {
        cells := if env.top = 0 then moved.set 0 (some zero) else moved
        org := org
        top := if env.top = 0 then 1 else env.top
        limit := pointer 8 org (toIndex (newSize - 2 * safetyArea))
        size := newSize }
      reads := (List.range env.size).map fun (i : Nat) => (i : Int)
      writes := List.range env.size ++ if env.top = 0 then [0] else [] }

/-- A frame stack or a binding stack in memory: its top is the last element. -/
structure Live (α : Type) (width : Nat) extends Stack α where
  positive : 0 < width
  allocated : cells.length = size
  addressable : size * width < 2 ^ 64
  above : -1 ≤ top
  inside : top < size

/-- An interpreter stack in memory: its top is one past the last element. -/
structure LispStack (α : Type) extends Stack α where
  allocated : cells.length = size
  addressable : size * 8 < 2 ^ 64
  above : 0 ≤ top
  inside : top ≤ size

/-- The bytes that are asked for are in memory, with an address behind them. -/
def Placed (width org size : Nat) : Prop := org + size * width % 2 ^ 64 < 2 ^ 64

/-- The stack is the same in its new area, which has the given number of elements. -/
structure Preserved (width : Nat) (env : Stack α) (count : Int) (r : Resized α) : Prop where
  depth : r.stack.top = env.top
  elements : ∀ i : Nat, i < count → r.stack.cells[i]? = env.cells[i]?
  above : 0 ≤ r.stack.top
  below : pointer width r.stack.org r.stack.top.toNat < r.stack.limit
  limit : r.stack.limit ≤ pointer width r.stack.org r.stack.size
  reads : ∀ i ∈ r.reads, 0 ≤ i ∧ i < env.cells.length
  writes : ∀ i ∈ r.writes, i < r.stack.cells.length

theorem length_memcpy (new old : List (Option α)) (source : Int) (count : Nat) :
    (memcpy new old source count).length = new.length :=
  length_mapIdx

theorem length_allocAtomic (n width : Nat) :
    (allocAtomic n width : List (Option α)).length = n * width % 2 ^ 64 / width :=
  length_replicate

theorem getElem?_memcpy_zero {new old : List (Option α)} {count i : Nat} (copied : i < count)
    (inNew : i < new.length) (inOld : i < old.length) :
    (memcpy new old 0 count)[i]? = old[i]? := by
  rw [memcpy, List.getElem?_mapIdx, List.getElem?_eq_getElem inNew, Option.map_some, if_pos copied,
    if_pos (by omega), show (0 + (i : Int)).toNat = i by omega, List.getElem?_eq_getElem inOld]
  rfl

/-- The bytes up to the limit and those of the safety areas are the bytes that are asked for,
as far as words tell. -/
theorem toIndex_bytes (size margin width : Nat) :
    (toIndex (size - 2 * margin) * width % 2 ^ 64 + 2 * margin * width % 2 ^ 64) % 2 ^ 64 =
      size * width % 2 ^ 64 := by
  have index : (toIndex (size - 2 * margin) + 2 * margin) % 2 ^ 64 = size % 2 ^ 64 := by
    unfold toIndex
    omega
  rw [← Nat.add_mod, ← Nat.add_mul, Nat.mul_mod, index, ← Nat.mul_mod]

/-- The top is below the limit and that not above the end exactly if the safety areas fit above
the top. -/
theorem ordered_iff {width margin org size top : Nat} (placed : Placed width org size)
    (written : (top + 1) * width ≤ size * width % 2 ^ 64) :
    pointer width org top < pointer width org (toIndex (size - 2 * margin)) ∧
        pointer width org (toIndex (size - 2 * margin)) ≤ pointer width org size ↔
      top * width + 2 * margin * width % 2 ^ 64 < size * width % 2 ^ 64 := by
  have bytes := toIndex_bytes size margin width
  unfold Placed at placed
  unfold pointer
  rw [Nat.add_mul] at written
  omega

theorem forall_range {n m : Nat} : (∀ i ∈ List.range n, i < m) ↔ n ≤ m := by
  simp only [mem_range]
  constructor
  · intro below
    by_contra more
    have last := below m (by omega)
    omega
  · intro le i small
    omega

/-- The copy stays in the new area exactly if the bytes that are asked for are enough. -/
theorem writes_iff {width size limit : Nat} (positive : 0 < width) {old : List (Option α)}
    {source : Int} {count : Nat} :
    (∀ i ∈ List.range limit, i < (memcpy (allocAtomic size width) old source count).length) ↔
      limit * width ≤ size * width % 2 ^ 64 := by
  rw [forall_range, length_memcpy, length_allocAtomic, Nat.le_div_iff_mul_le positive]

/-- The bytes that are asked for hold the elements up to the top, and above the first byte of the
top both safety areas and more. -/
def Holds (width margin top size : Nat) : Prop :=
  (top + 1) * width ≤ size * width % 2 ^ 64 ∧
    top * width + 2 * margin * width % 2 ^ 64 < size * width % 2 ^ 64

instance (width org size : Nat) : Decidable (Placed width org size) :=
  inferInstanceAs (Decidable (_ < _))

instance (width margin top size : Nat) : Decidable (Holds width margin top size) :=
  inferInstanceAs (Decidable (_ ∧ _))

/-- What is left of the move when the index of the top is taken to be the right one. -/
theorem moveArea_iff {width margin org size : Nat} (env : Live α width)
    (placed : Placed width org size) (nonneg : 0 ≤ env.top) :
    Preserved width env.toStack (env.top + 1)
        (moveArea width margin org env.toStack 0 env.top.toNat size) ↔
      Holds width margin env.top.toNat size := by
  have allocated := env.allocated
  have inside := env.inside
  have write := @writes_iff α width size (env.top.toNat + 1) env.positive env.cells 0
    (env.top.toNat + 1)
  have depth : (env.top.toNat : Int) = env.top := toNat_of_nonneg nonneg
  constructor
  · intro kept
    have enough := write.mp kept.writes
    exact ⟨enough, (ordered_iff placed enough).mp ⟨kept.below, kept.limit⟩⟩
  · rintro ⟨enough, more⟩
    have ordered := (ordered_iff placed enough).mpr more
    have written := write.mpr enough
    refine ⟨depth, ?_, Int.natCast_nonneg _, ordered.1, ordered.2, ?_, written⟩
    · intro i below
      have inNew := written i (mem_range.mpr (by omega))
      rw [length_memcpy] at inNew
      exact getElem?_memcpy_zero (by omega) inNew (by omega)
    · intro i member
      obtain ⟨j, copied, rfl⟩ := mem_map.mp member
      have below := mem_range.mp copied
      omega

variable {r : Resized α}

theorem frsSetSize_iff {width margin org : Nat} (env : Live α width) {size : Nat}
    (placed : Placed width org ((size + 2 * margin) % 2 ^ 64))
    (accepted : frsSetSize width margin org env.toStack size = .ok r) :
    Preserved width env.toStack (env.top + 1) r ↔
      env.top = 0 ∧ Holds width margin 0 ((size + 2 * margin) % 2 ^ 64) := by
  have zero : toIndex (env.top - env.top) = 0 := by
    rw [sub_self]
    rfl
  simp only [frsSetSize, zero] at accepted
  split at accepted
  · cases accepted
  · cases accepted
    by_cases one : env.top = 0
    · have moved :=
        @moveArea_iff α width margin org ((size + 2 * margin) % 2 ^ 64) env placed one.ge
      simp only [one, toNat_zero] at moved ⊢
      rw [moved]
      exact (and_iff_right (a := True) trivial).symm
    · constructor
      · intro kept
        exact absurd kept.depth.symm one
      · intro fits
        exact absurd fits.1 one

theorem bdsSetSize_iff {width margin org : Nat} (env : Live α width) {size : Nat}
    (small : size < 2 ^ 64) (placed : Placed width org size)
    (accepted : bdsSetSize width margin org env.toStack size = .ok r) :
    Preserved width env.toStack (env.top + 1) r ↔ Holds width margin env.top.toNat size := by
  have inside := env.inside
  have above := env.above
  have addressable := env.addressable
  have cells := Nat.le_mul_of_pos_right env.size env.positive
  simp only [bdsSetSize, sub_zero] at accepted
  split at accepted
  · cases accepted
  · rename_i larger
    have nonneg : 0 ≤ env.top := by
      unfold toIndex at larger
      omega
    have index : toIndex env.top = env.top.toNat := by
      unfold toIndex
      omega
    rw [index] at accepted
    cases accepted
    exact moveArea_iff env placed nonneg

/-- A number of pages, times a number that is no multiple of the page size, is divisible by a
large power of two only if there are none. -/
theorem pages_of_dvd {c x : Nat} (small : c < 2 ^ 50) (noPage : ¬ 2 ^ 11 ∣ x)
    (divides : 2 ^ 61 ∣ c * x) : c = 0 := by
  obtain ⟨j, le, common⟩ := (Nat.dvd_prime_pow Nat.prime_two).mp (Nat.gcd_dvd_left (2 ^ 61) x)
  have short : j ≤ 10 := by
    by_contra long
    have page : 2 ^ 11 ∣ 2 ^ j := Nat.pow_dvd_pow 2 (by omega)
    exact noPage (page.trans (common ▸ Nat.gcd_dvd_right (2 ^ 61) x))
  have positive := Nat.two_pow_pos j
  have split : 2 ^ 61 = 2 ^ j * 2 ^ (61 - j) := by
    rw [← Nat.pow_add]
    congr 1
    omega
  have quotient : 2 ^ 61 / Nat.gcd (2 ^ 61) x = 2 ^ (61 - j) := by
    rw [common, split, Nat.mul_div_cancel_left _ positive]
  have coprime := Nat.coprime_div_gcd_div_gcd (m := 2 ^ 61) (n := x)
    (Nat.gcd_pos_of_pos_left _ (by decide))
  have reduced : 2 ^ 61 / Nat.gcd (2 ^ 61) x ∣ c * (x / Nat.gcd (2 ^ 61) x) := by
    rw [← Nat.mul_div_assoc _ (Nat.gcd_dvd_right _ _)]
    exact Nat.div_dvd_div (Nat.gcd_dvd_left _ _) divides
  have factor := coprime.dvd_of_dvd_mul_right reduced
  rw [quotient] at factor
  have large : 2 ^ 51 ≤ 2 ^ (61 - j) := Nat.pow_le_pow_right (by decide) (by omega)
  by_contra some_page
  have := Nat.le_of_dvd (by omega) factor
  omega

theorem pages_of_dvd_succ {c : Nat} (small : c + 1 < 2 ^ 50) (divides : 2 ^ 50 ∣ (c + 1) * c) :
    c = 0 := by
  have coprime : Nat.Coprime (c + 1) c := by simp
  rcases Nat.even_or_odd c with even | odd
  · have other : Nat.Coprime (2 ^ 50) (c + 1) :=
      Nat.Coprime.pow_left 50 (Nat.coprime_two_left.mpr even.add_one)
    have factor := other.dvd_of_dvd_mul_left divides
    by_contra some_page
    have := Nat.le_of_dvd (by omega) factor
    omega
  · have other : Nat.Coprime (2 ^ 50) c :=
      Nat.Coprime.pow_left 50 (Nat.coprime_two_left.mpr odd)
    have factor := other.dvd_of_dvd_mul_right divides
    have := Nat.le_of_dvd (by omega) factor
    omega

/-- The new size is the number of pages times the size itself, and not the size of a page. -/
theorem isLeast_roundSize_iff {n : Nat} :
    IsLeast {k | lispPagesize ∣ k ∧ n ≤ k} (roundSize (n % 2 ^ 64) % 2 ^ 61) ↔
      n = 0 ∨ n = lispPagesize := by
  unfold lispPagesize
  constructor
  · rintro ⟨⟨⟨c, pages⟩, enough⟩, least⟩
    have below := Nat.mod_lt (roundSize (n % 2 ^ 64)) (show 0 < 2 ^ 61 by decide)
    have tight : 0 < c → 2048 * (c - 1) < n := by
      intro some_page
      by_contra covered
      have shorter := least ⟨Dvd.intro (c - 1) rfl, by omega⟩
      omega
    have rounded : roundSize (n % 2 ^ 64) = c * n % 2 ^ 64 := by
      have count : (n % 2 ^ 64 + (lispPagesize - 1)) % 2 ^ 64 / lispPagesize = c := by
        unfold lispPagesize
        omega
      rw [roundSize, count, Nat.mod_eq_of_lt (show n < 2 ^ 64 by omega)]
    rw [rounded, Nat.mod_mod_of_dvd _ (show 2 ^ 61 ∣ 2 ^ 64 by decide)] at pages below
    rcases Nat.eq_zero_or_pos c with none | some_page
    · omega
    · by_cases short : n < 2048
      · have one : c = 1 := by omega
        subst one
        omega
      · -- c * n and c pages leave the same remainder, so that it divides c * (n - 2048)
        have excess : c * (n - 2048) + 2048 * c = c * n := by
          rw [Nat.mul_sub, Nat.mul_comm 2048 c]
          exact Nat.sub_add_cancel (Nat.mul_le_mul_left c (by omega))
        have divides : 2 ^ 61 ∣ c * (n - 2048) := by omega
        by_cases page : 2 ^ 11 ∣ n - 2048
        · have exact_pages : n - 2048 = 2048 * (c - 1) := by omega
          have shorter : 2 ^ 50 ∣ (c - 1 + 1) * (c - 1) := by
            rw [exact_pages, Nat.mul_left_comm, show 2 ^ 61 = 2048 * 2 ^ 50 by decide] at divides
            rw [Nat.sub_add_cancel some_page]
            exact Nat.dvd_of_mul_dvd_mul_left (by decide) divides
          have first := pages_of_dvd_succ (by omega) shorter
          omega
        · have := pages_of_dvd (by omega) page divides
          omega
  · rintro (rfl | rfl)
    · exact ⟨⟨by decide, by decide⟩, fun k _ => Nat.zero_le k⟩
    · refine ⟨⟨by decide, by decide⟩, ?_⟩
      rintro k ⟨_, enough⟩
      exact enough

variable {safetyArea org tentativeNewSize : Nat}

theorem stackSetSize_spec {newSize : Nat} {zero : α} {env : Stack α}
    (rounded : roundSize ((tentativeNewSize + 2 * safetyArea) % 2 ^ 64) = newSize)
    (accepted : stackSetSize safetyArea org zero env tentativeNewSize = .ok r) :
    r.stack.cells = (if env.top = 0 then
        (memcpy (allocAtomic newSize 8) env.cells 0 env.size).set 0 (some zero)
      else memcpy (allocAtomic newSize 8) env.cells 0 env.size) ∧
    r.stack.top = (if env.top = 0 then 1 else env.top) ∧
    r.stack.org = org ∧
    r.stack.limit = pointer 8 org (toIndex (newSize - 2 * safetyArea)) ∧
    r.stack.size = newSize ∧
    r.reads = ((List.range env.size).map fun (i : Nat) => (i : Int)) ∧
    r.writes = List.range env.size ++ if env.top = 0 then [0] else [] := by
  simp only [stackSetSize, rounded] at accepted
  split at accepted
  · cases accepted
  · cases accepted
    exact ⟨rfl, rfl, rfl, rfl, rfl, rfl, rfl⟩

theorem length_stackSetSize {zero : α} {env : Stack α}
    (accepted : stackSetSize safetyArea org zero env tentativeNewSize = .ok r) :
    r.stack.cells.length = roundSize ((tentativeNewSize + 2 * safetyArea) % 2 ^ 64) % 2 ^ 61 := by
  rw [(stackSetSize_spec rfl accepted).1]
  split
  · rw [length_set, length_memcpy, length_allocAtomic]
    omega
  · rw [length_memcpy, length_allocAtomic]
    omega

theorem roundSize_page : roundSize (lispPagesize % 2 ^ 64) = lispPagesize := by decide

theorem preserved_page_iff (zero : α) (env : LispStack α) (placed : Placed 8 org lispPagesize)
    (page : tentativeNewSize + 2 * safetyArea = lispPagesize)
    (accepted : stackSetSize safetyArea org zero env.toStack tentativeNewSize = .ok r) :
    Preserved 8 env.toStack env.top r ↔
      0 < env.top ∧ env.top < tentativeNewSize ∧ env.size ≤ lispPagesize := by
  have allocated := env.allocated
  have inside := env.inside
  have above := env.above
  have length := length_stackSetSize accepted
  have rounded : roundSize ((tentativeNewSize + 2 * safetyArea) % 2 ^ 64) = lispPagesize := by
    rw [page, roundSize_page]
  rw [rounded] at length
  obtain ⟨cells, top, start, limit, size, reads, writes⟩ := stackSetSize_spec rounded accepted
  have small : lispPagesize < 2 ^ 60 := by decide
  generalize lispPagesize = p at *
  have distance : toIndex (p - 2 * safetyArea) = tentativeNewSize := by
    unfold toIndex
    omega
  rw [distance] at limit
  rw [Nat.mod_eq_of_lt (show p < 2 ^ 61 by omega)] at length
  unfold Placed at placed
  constructor
  · intro kept
    have depth := kept.depth
    have below := kept.below
    have written := kept.writes
    have some_element : env.top ≠ 0 := by
      intro none
      rw [top, if_pos none] at depth
      omega
    rw [writes, if_neg some_element, append_nil, length, forall_range] at written
    rw [top, if_neg some_element, start, limit] at below
    unfold pointer at below
    exact ⟨by omega, by omega, written⟩
  · intro fits
    have some_element : env.top ≠ 0 := by omega
    rw [if_neg some_element] at cells top writes
    rw [append_nil] at writes
    refine ⟨top, ?_, by omega, ?_, ?_, ?_, ?_⟩
    · intro i below
      rw [cells, length_memcpy] at length
      rw [cells]
      exact getElem?_memcpy_zero (by omega) (by omega) (by omega)
    · rw [top, start, limit]
      unfold pointer
      omega
    · rw [start, limit, size]
      unfold pointer
      omega
    · intro i member
      rw [reads] at member
      obtain ⟨j, copied, rfl⟩ := mem_map.mp member
      have := mem_range.mp copied
      omega
    · rw [writes, length]
      exact forall_range.mpr fits.2.2

theorem stackSetSize_iff (zero : α) (env : LispStack α)
    (placed : Placed 8 org (roundSize ((tentativeNewSize + 2 * safetyArea) % 2 ^ 64)))
    (accepted : stackSetSize safetyArea org zero env.toStack tentativeNewSize = .ok r) :
    Preserved 8 env.toStack env.top r ∧
        IsLeast {k | lispPagesize ∣ k ∧ tentativeNewSize + 2 * safetyArea ≤ k}
          r.stack.cells.length ↔
      tentativeNewSize + 2 * safetyArea = lispPagesize ∧ 0 < env.top ∧
        env.top < tentativeNewSize ∧ env.size ≤ lispPagesize := by
  have length := length_stackSetSize accepted
  rw [length, isLeast_roundSize_iff]
  constructor
  · intro both
    have page : tentativeNewSize + 2 * safetyArea = lispPagesize := by
      apply both.2.resolve_left
      intro empty
      have size : roundSize ((tentativeNewSize + 2 * safetyArea) % 2 ^ 64) = 0 := by
        rw [empty]
        decide
      -- an empty area has no room for the element of a stack of depth zero
      have above := both.1.above
      have depth := both.1.depth
      have written := both.1.writes
      obtain ⟨_, top, _, _, _, _, writes⟩ := stackSetSize_spec size accepted
      have none : env.top = 0 := by
        rw [stackSetSize, size] at accepted
        split at accepted
        · cases accepted
        · have := env.above
          omega
      rw [top, if_pos none] at depth
      omega
    rw [page, roundSize_page] at placed
    exact ⟨page, (preserved_page_iff zero env placed page accepted).mp both.1⟩
  · intro fits
    rw [fits.1, roundSize_page] at placed
    exact ⟨(preserved_page_iff zero env placed fits.1 accepted).mpr fits.2, .inr fits.1⟩

/-- When a stack is the same in its new area, for the sizes that are accepted. -/
theorem resize_iff (frames bindings margin org : Nat) {size : Nat} (small : size < 2 ^ 64)
    (zero : α) {r : Resized α} :
    (∀ env : Live α frames, Placed frames org ((size + 2 * margin) % 2 ^ 64) →
      frsSetSize frames margin org env.toStack size = .ok r →
      (Preserved frames env.toStack (env.top + 1) r ↔
        env.top = 0 ∧ Holds frames margin 0 ((size + 2 * margin) % 2 ^ 64))) ∧
    (∀ env : Live α bindings, Placed bindings org size →
      bdsSetSize bindings margin org env.toStack size = .ok r →
      (Preserved bindings env.toStack (env.top + 1) r ↔
        Holds bindings margin env.top.toNat size)) ∧
    ∀ env : LispStack α, Placed 8 org (roundSize ((size + 2 * margin) % 2 ^ 64)) →
      stackSetSize margin org zero env.toStack size = .ok r →
      (Preserved 8 env.toStack env.top r ∧
          IsLeast {k | lispPagesize ∣ k ∧ size + 2 * margin ≤ k} r.stack.cells.length ↔
        size + 2 * margin = lispPagesize ∧ 0 < env.top ∧ env.top < size ∧
          env.size ≤ lispPagesize) :=
  ⟨fun env placed accepted => frsSetSize_iff env placed accepted,
    fun env placed accepted => bdsSetSize_iff env small placed accepted,
    fun env placed accepted => stackSetSize_iff zero env placed accepted⟩

/-- A stack of one frame or one binding. -/
def oneElement (width : Nat) (positive : 0 < width) (small : width < 2 ^ 60) : Live Nat width where
  cells := [some 10, none, none]
  org := 4096
  top := 0
  limit := 4096 + 2 * width
  size := 3
  positive := positive
  allocated := rfl
  addressable := by omega
  above := by decide
  inside := by decide

/-- An interpreter stack of one element. -/
def oneObject : LispStack Nat where
  cells := [some 0, none]
  org := 4096
  top := 1
  limit := 4112
  size := 2
  allocated := rfl
  addressable := by decide
  above := by decide
  inside := by decide

theorem resize_iff_one :
    (∃ r, frsSetSize 200 128 65536 (oneElement 200 (by decide) (by decide)).toStack 1024 = .ok r ∧
      Preserved 200 (oneElement 200 (by decide) (by decide)).toStack 1 r) ∧
    (∃ r, bdsSetSize 16 128 65536 (oneElement 16 (by decide) (by decide)).toStack 1024 = .ok r ∧
      Preserved 16 (oneElement 16 (by decide) (by decide)).toStack 1 r) ∧
    ∃ r, stackSetSize 128 65536 0 oneObject.toStack 1792 = .ok r ∧
      Preserved 8 oneObject.toStack 1 r ∧
      IsLeast {k | lispPagesize ∣ k ∧ 1792 + 2 * 128 ≤ k} r.stack.cells.length := by
  have small : 1024 < 2 ^ 64 := by decide
  refine ⟨⟨_, rfl, ?_⟩, ⟨_, rfl, ?_⟩, _, rfl, ?_⟩
  · exact ((resize_iff 200 16 128 65536 small 0).1 _ (by decide) rfl).mpr (by decide)
  · exact ((resize_iff 200 16 128 65536 small 0).2.1 _ (by decide) rfl).mpr (by decide)
  · exact ((resize_iff 200 16 128 65536 (by decide) 0).2.2 oneObject (by decide) rfl).mpr
      (by decide)

def twoFrames : Live Nat 200 where
  cells := [some 10, some 11, none]
  org := 4096
  top := 1
  limit := 4496
  size := 3
  positive := by decide
  allocated := rfl
  addressable := by decide
  above := by decide
  inside := by decide

/-- Of two frames one is left. -/
theorem frsSetSize_counterexample :
    ∃ r, frsSetSize 200 128 65536 twoFrames.toStack 1024 = .ok r ∧
      ¬ Preserved 200 twoFrames.toStack 2 r :=
  ⟨_, rfl, fun kept => absurd kept.depth (by decide)⟩

end Ecl.Stacks
