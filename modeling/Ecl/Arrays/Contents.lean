import Ecl.Arrays.RowMajor

/- The elements of arrays: make-array with an initial element or initial contents, and the copy
of the elements of one array to another. -/
namespace Ecl.Arrays

open List Option Function

variable {α : Type}

def Header.arrayDimensions (header : Header) : List Nat :=
  if header.type = .array then header.dims else [header.dim]

/-- An array with its elements in row major order, and the memory after these. -/
structure Filled (α : Type) where
  header : Header
  cells : Nat → α

namespace Filled

/-- aref; outside the array there is no element. -/
def aref (x : Filled α) (indices : List Int) : Option α :=
  (x.header.rowMajor indices).bind fun j => if j < x.header.dim then some (x.cells j) else none

def fillArrayWithElt (x : Filled α) (elt : α) (first : Nat) (last : Option Nat) : Filled α :=
  { x with cells := fun k => if first ≤ k ∧ k < last.getD x.header.dim then elt else x.cells k }

/-- ecl_copy_subarray, in machine words. There is no result when it leaves one of the arrays. -/
def copySubarray (dest : Filled α) (i0 : Nat) (orig : Filled α) (i1 l : Nat) :
    Option (Filled α) :=
  let l :=
    if (i0 + l) % 2 ^ 64 > dest.header.dim then (dest.header.dim + 2 ^ 64 - i0) % 2 ^ 64 else l
  let l :=
    if (i1 + l) % 2 ^ 64 > orig.header.dim then (orig.header.dim + 2 ^ 64 - i1) % 2 ^ 64 else l
  if l = 0 ∨ i0 + l ≤ dest.header.dim ∧ i1 + l ≤ orig.header.dim then
    some { dest with
      cells := fun k => if i0 ≤ k ∧ k < i0 + l then orig.cells (i1 + (k - i0)) else dest.cells k }
  else none

end Filled

section Initial

/- The elements of an object that is a sequence. -/
variable (sequence : α → Option (List α))

def iterateOverContents : List Nat → α → Nat → (Nat → α) → Option (Nat × (Nat → α))
  | [], _, _, _ => none
  | d :: dims, contents, written, cells =>
    match sequence contents with
    | none => none
    | some items =>
      if items.length ≠ d then none
      else if dims = [] then
        items.foldlM (fun state x => some (state.1 + 1, Function.update state.2 state.1 x))
          (written, cells)
      else items.foldlM (fun state x => iterateOverContents dims x state.1 state.2) (written, cells)

def Filled.fillArrayWithSeq (array : Filled α) (initialContents : α) : Option (Filled α) :=
  if array.header.arrayDimensions ≠ [] then
    (iterateOverContents sequence array.header.arrayDimensions initialContents 0 array.cells).map
      fun state => { array with cells := state.2 }
  else some { array with cells := Function.update array.cells 0 initialContents }

/-- The arguments :INITIAL-ELEMENT and :INITIAL-CONTENTS. -/
inductive Initial (α : Type) where
  | unsupplied
  | element (elt : α)
  | contents (contents : α)

def makeArray (memory : Nat → α) (etype : Elttype) (dims : Dimensions) (adjustable : Bool)
    (fillp : FillPointer) (initial : Initial α) : Option (Filled α) :=
  match makePureArray etype adjustable fillp dims with
  | none => none
  | some header =>
    match initial with
    | .unsupplied => some ⟨header, memory⟩
    | .element elt => some (Filled.fillArrayWithElt ⟨header, memory⟩ elt 0 none)
    | .contents contents => Filled.fillArrayWithSeq sequence ⟨header, memory⟩ contents

end Initial

/-- (dotimes (i l) ... (incf i1 step1) (incf i2 step2)) -/
def copyLoop (copy : Nat → Nat → Filled α → Option (Filled α)) (step1 step2 : Nat) :
    Nat → Nat → Nat → Filled α → Option (Filled α)
  | 0, _, _, dest => some dest
  | l + 1, i1, i2, dest =>
    (copy i1 i2 dest).bind (copyLoop copy step1 step2 l (i1 + step1) (i2 + step2))

/-- do-copy, of dimensions of one rank. -/
def doCopy (orig : Filled α) : List Nat → List Nat → Nat → Nat → Filled α → Option (Filled α)
  | d1 :: dims1, d2 :: dims2, start1, start2, dest =>
    if dims1 = [] then dest.copySubarray start1 orig start2 (min d1 d2)
    else copyLoop (doCopy orig dims1 dims2) dims1.prod dims2.prod (min d1 d2) start1 start2 dest
  | _, _, _, _, dest => some dest

/-- (or dims '(1)) -/
def orOne (dims : List Nat) : List Nat := if dims = [] then [1] else dims

def copyArrayContents (dest orig : Filled α) : Option (Filled α) :=
  doCopy orig (orOne dest.header.arrayDimensions) (orOne orig.header.arrayDimensions) 0 0 dest

/-- Subscripts that are valid for dimensions. -/
def Within (dims is : List Nat) : Prop := List.Forall₂ (· < ·) is dims

/-- The row major index of subscripts. -/
def offset : List Nat → List Nat → Nat
  | _ :: dims, i :: is => i * dims.prod + offset dims is
  | _, _ => 0

variable {is : List Nat}

theorem offset_lt {dims : List Nat} (within : Within dims is) : offset dims is < dims.prod := by
  induction within with
  | nil => exact Nat.one_pos
  | @cons i d is dims below _ ih =>
    calc
      i * dims.prod + offset dims is < (i + 1) * dims.prod := by rw [Nat.succ_mul]; omega
      _ ≤ d * dims.prod := Nat.mul_le_mul_right _ below
      _ = (d :: dims).prod := prod_cons.symm

theorem subscripts_within {dims : List Nat} {j : Nat} (within : Within dims is)
    (word : j < 2 ^ 64) :
    subscripts dims (is.map Nat.cast) j = some ((j * dims.prod + offset dims is) % 2 ^ 64) := by
  induction within generalizing j with
  | nil =>
    rw [prod_nil, Nat.mul_one]
    exact congrArg some (Nat.mod_eq_of_lt word).symm
  | @cons i d is dims below _ ih =>
    have here : subscript d (i : Int) = some i := if_pos ⟨by omega, by omega⟩
    rw [map_cons, subscripts, here]
    dsimp only
    rw [ih (Nat.mod_lt _ (by decide)), offset, prod_cons, ← Nat.add_assoc, ← Nat.mul_assoc,
      ← Nat.add_mul]
    rw [Nat.add_mod, Nat.mod_mul_mod, ← Nat.add_mod]

theorem exists_offset {dims : List Nat} {k : Nat} (below : k < dims.prod) :
    ∃ is, Within dims is ∧ offset dims is = k := by
  induction dims generalizing k with
  | nil => exact ⟨[], .nil, (Nat.lt_one_iff.mp below).symm⟩
  | cons d dims ih =>
    rw [prod_cons] at below
    have positive : 0 < dims.prod := Nat.pos_of_mul_pos_left (Nat.zero_lt_of_lt below)
    obtain ⟨is, within, rest⟩ := ih (Nat.mod_lt k positive)
    refine ⟨k / dims.prod :: is, .cons ((Nat.div_lt_iff_lt_mul positive).mpr below) within, ?_⟩
    rw [offset, rest]
    exact Nat.div_add_mod' k dims.prod

/-- Elements with subscripts that are valid for both dimensions are copied, and no others. -/
structure Copied (orig dest dest' : Filled α) (dims1 dims2 : List Nat) (start1 start2 : Nat) :
    Prop where
  header : dest'.header = dest.header
  copied : ∀ is, Within dims1 is → Within dims2 is →
    dest'.cells (start1 + offset dims1 is) = orig.cells (start2 + offset dims2 is)
  frame : ∀ k, (∀ is, Within dims1 is → Within dims2 is → k ≠ start1 + offset dims1 is) →
    dest'.cells k = dest.cells k

theorem copySubarray_inside {dest orig : Filled α} {i0 i1 l : Nat}
    (inside0 : i0 + l ≤ dest.header.dim)
    (inside1 : i1 + l ≤ orig.header.dim) :
    dest.copySubarray i0 orig i1 l =
      some { dest with
        cells := fun k =>
          if i0 ≤ k ∧ k < i0 + l then orig.cells (i1 + (k - i0)) else dest.cells k } := by
  have whole0 : ¬(i0 + l) % 2 ^ 64 > dest.header.dim := by omega
  have whole1 : ¬(i1 + l) % 2 ^ 64 > orig.header.dim := by omega
  simp only [Filled.copySubarray, if_neg whole0, if_neg whole1]
  exact if_pos (.inr ⟨inside0, inside1⟩)

theorem copySubarray_header {dest dest' orig : Filled α} {i0 i1 l : Nat}
    (run : dest.copySubarray i0 orig i1 l = some dest') : dest'.header = dest.header := by
  obtain ⟨_, same⟩ := Option.ite_none_right_eq_some.mp run
  exact (congrArg Filled.header (some.inj same)).symm

theorem copyLoop_rows {orig dest : Filled α} {dims1 dims2 : List Nat}
    {copy : Nat → Nat → Filled α → Option (Filled α)}
    {l i1 i2 : Nat}
    (row : ∀ j1 j2 dest, j1 + dims1.prod ≤ dest.header.dim → j2 + dims2.prod ≤ orig.header.dim →
      ∃ dest', copy j1 j2 dest = some dest' ∧ Copied orig dest dest' dims1 dims2 j1 j2)
    (inside1 : i1 + l * dims1.prod ≤ dest.header.dim)
    (inside2 : i2 + l * dims2.prod ≤ orig.header.dim) :
    ∃ dest', copyLoop copy dims1.prod dims2.prod l i1 i2 dest = some dest' ∧
      dest'.header = dest.header ∧
      (∀ i is, i < l → Within dims1 is → Within dims2 is →
        dest'.cells (i1 + (i * dims1.prod + offset dims1 is)) =
          orig.cells (i2 + (i * dims2.prod + offset dims2 is))) ∧
      ∀ k,
        (∀ i is, i < l → Within dims1 is → Within dims2 is →
        k ≠ i1 + (i * dims1.prod + offset dims1 is)) →
        dest'.cells k = dest.cells k := by
  induction l generalizing i1 i2 dest with
  | zero =>
    exact ⟨dest, rfl, rfl, fun i _ never => absurd never (Nat.not_lt_zero i), fun _ _ => rfl⟩
  | succ l ih =>
    rw [Nat.succ_mul] at inside1 inside2
    obtain ⟨middle, run, first⟩ := row i1 i2 dest (by omega) (by omega)
    rw [← first.header] at inside1
    obtain ⟨dest', run', header, copied, frame⟩ := ih
      (by omega : i1 + dims1.prod + l * dims1.prod ≤ middle.header.dim)
      (by omega : i2 + dims2.prod + l * dims2.prod ≤ _)
    have next (i step start rest : Nat) :
        start + ((i + 1) * step + rest) = start + step + (i * step + rest) := by
      rw [Nat.succ_mul]
      omega
    refine ⟨dest', ?_, header.trans first.header, fun i is below within1 within2 => ?_,
      fun k others => ?_⟩
    · rw [copyLoop, run, Option.bind_some]
      exact run'
    · cases i with
      | zero =>
        rw [Nat.zero_mul, Nat.zero_mul, Nat.zero_add, Nat.zero_add,
          frame _ fun i is' _ within' _ => ?_]
        · exact first.copied is within1 within2
        · have here := offset_lt within1
          omega
      | succ i =>
        rw [next, next]
        exact copied i is (by omega) within1 within2
    · rw [frame k fun i is below within1 within2 => ?_,
        first.frame k fun is within1 within2 => ?_]
      · have other := others 0 is (by omega) within1 within2
        rwa [Nat.zero_mul, Nat.zero_add] at other
      · rw [← next]
        exact others (i + 1) is (by omega) within1 within2

theorem doCopy_copied {orig dest : Filled α} {dims1 dims2 : List Nat} {start1 start2 : Nat}
    (rank : dims1.length = dims2.length) (filled : dims1 ≠ [])
    (inside1 : start1 + dims1.prod ≤ dest.header.dim)
    (inside2 : start2 + dims2.prod ≤ orig.header.dim) :
    ∃ dest', doCopy orig dims1 dims2 start1 start2 dest = some dest' ∧
      Copied orig dest dest' dims1 dims2 start1 start2 := by
  induction dims1 generalizing dims2 start1 start2 dest with
  | nil => exact absurd rfl filled
  | cons d1 dims1 ih =>
    obtain ⟨d2, dims2, rfl⟩ : ∃ d2 dims2', dims2 = d2 :: dims2' :=
      exists_cons_of_length_eq_add_one rank.symm
    have rank : dims1.length = dims2.length := Nat.succ.inj rank
    rw [prod_cons] at inside1 inside2
    have rows1 : min d1 d2 * dims1.prod ≤ d1 * dims1.prod :=
      Nat.mul_le_mul_right _ (Nat.min_le_left d1 d2)
    have rows2 : min d1 d2 * dims2.prod ≤ d2 * dims2.prod :=
      Nat.mul_le_mul_right _ (Nat.min_le_right d1 d2)
    by_cases last : dims1 = []
    · subst last
      obtain rfl : dims2 = [] := length_eq_zero_iff.mp rank.symm
      rw [prod_nil, Nat.mul_one, Nat.mul_one] at rows1 rows2
      rw [prod_nil, Nat.mul_one] at inside1 inside2
      rw [doCopy, if_pos rfl, copySubarray_inside (by omega) (by omega)]
      refine ⟨_, rfl, rfl, fun is within1 within2 => ?_, fun k others => if_neg fun inside => ?_⟩
      · cases within1 with
        | cons below1 none =>
          cases none
          cases within2 with
          | cons below2 _ =>
            simp only [offset, prod_nil, Nat.mul_one, Nat.add_zero]
            rw [if_pos (by omega), Nat.add_sub_cancel_left]
      · refine others [k - start1] (.cons (by omega) .nil) (.cons (by omega) .nil) ?_
        simp only [offset, prod_nil, Nat.mul_one, Nat.add_zero]
        omega
    · have row (j1 j2 : Nat) (dest : Filled α) (inside1 : j1 + dims1.prod ≤ dest.header.dim)
          (inside2 : j2 + dims2.prod ≤ orig.header.dim) :
          ∃ dest', doCopy orig dims1 dims2 j1 j2 dest = some dest' ∧
            Copied orig dest dest' dims1 dims2 j1 j2 :=
        ih rank last inside1 inside2
      obtain ⟨dest', run, header, copied, frame⟩ := copyLoop_rows row
        (by omega : start1 + min d1 d2 * dims1.prod ≤ dest.header.dim)
        (by omega : start2 + min d1 d2 * dims2.prod ≤ orig.header.dim)
      rw [doCopy, if_neg last]
      refine ⟨dest', run, header, fun is within1 within2 => ?_, fun k others =>
        frame k fun i is below within1 within2 => ?_⟩
      · cases within1 with
        | cons below1 within1 =>
          cases within2 with
          | cons below2 within2 => exact copied _ _ (by omega) within1 within2
      · exact others (i :: is) (.cons (by omega) within1) (.cons (by omega) within2)

section Nested

variable (sequence : α → Option (List α))

/-- The length of every nested sequence is its dimension. -/
def Matches : List Nat → α → Prop
  | [], _ => True
  | d :: dims, x => ∃ items, sequence x = some items ∧ items.length = d ∧
      ∀ y ∈ items, Matches dims y

/-- The element of nested sequences at subscripts. -/
def nested : α → List Nat → Option α
  | x, [] => some x
  | x, i :: is =>
    match sequence x with
    | none => none
    | some items => items[i]?.bind fun y => nested y is

/-- From an index on, the elements are those of nested sequences. -/
structure Written (dims : List Nat) (x : α) (written : Nat) (cells : Nat → α)
    (state : Nat × (Nat → α)) :
    Prop where
  next : state.1 = written + dims.prod
  found : ∀ is, Within dims is → nested sequence x is = some (state.2 (written + offset dims is))
  frame : ∀ k, k < written ∨ written + dims.prod ≤ k → state.2 k = cells k

theorem items_written {dims : List Nat} {store : Nat × (Nat → α) → α → Option (Nat × (Nat → α))}
    {items : List α}
    {written : Nat} {cells : Nat → α}
    (fits : ∀ y ∈ items, ∀ state, Matches sequence dims y →
      ∃ state', store state y = some state' ∧ Written sequence dims y state.1 state.2 state')
    (fails : ∀ y ∈ items, ∀ state, ¬Matches sequence dims y → store state y = none) :
    ((∀ y ∈ items, Matches sequence dims y) →
      ∃ state, items.foldlM store (written, cells) = some state ∧
      state.1 = written + items.length * dims.prod ∧
      (∀ i y, items[i]? = some y → ∀ is, Within dims is →
        nested sequence y is = some (state.2 (written + (i * dims.prod + offset dims is)))) ∧
      ∀ k, k < written ∨ written + items.length * dims.prod ≤ k → state.2 k = cells k) ∧
    (¬(∀ y ∈ items, Matches sequence dims y) → items.foldlM store (written, cells) = none) := by
  induction items generalizing written cells with
  | nil =>
    refine ⟨fun _ => ⟨_, rfl, ?_, fun i y never => ?_, fun _ _ => rfl⟩,
      fun no => absurd (fun y never => absurd never not_mem_nil) no⟩
    · rw [length_nil, Nat.zero_mul]
      rfl
    · cases never
  | cons y items ih =>
    rw [foldlM_cons]
    by_cases first : Matches sequence dims y
    · obtain ⟨⟨next, cells'⟩, run, ⟨here, found, frame⟩⟩ :=
        fits y mem_cons_self (written, cells) first
      obtain rfl : next = written + dims.prod := here
      rw [run]
      obtain ⟨good, bad⟩ := @ih (written + dims.prod) cells'
        (fun z member => fits z (.tail y member)) fun z member => fails z (.tail y member)
      refine ⟨fun all => ?_, fun no => bad fun rest => no fun z member => ?_⟩
      · obtain ⟨state, run', here', found', frame'⟩ := good fun z member => all z (.tail y member)
        refine ⟨state, run', ?_, fun i z item is within => ?_, fun k outside => ?_⟩
        · rw [here', length_cons, Nat.succ_mul]
          omega
        · cases i with
          | zero =>
            cases item
            have below := offset_lt within
            rw [found is within, Nat.zero_mul, Nat.zero_add]
            exact congrArg some (frame' _ (.inl (by omega))).symm
          | succ i =>
            rw [found' i z item is within, Nat.succ_mul]
            exact congrArg (fun k => some (state.2 k)) (by omega)
        · rw [length_cons, Nat.succ_mul] at outside
          exact (frame' k (by omega)).trans (frame k (by
            dsimp only
            omega))
      · rcases mem_cons.mp member with rfl | member
        · exact first
        · exact rest z member
    · rw [fails y mem_cons_self _ first]
      exact ⟨fun all => absurd (all y mem_cons_self) first, fun _ => rfl⟩

theorem iterateOverContents_written {dims : List Nat} {contents : α} {written : Nat}
    {cells : Nat → α}
    (filled : dims ≠ []) :
    (Matches sequence dims contents →
      ∃ state, iterateOverContents sequence dims contents written cells = some state ∧
      Written sequence dims contents written cells state) ∧
    (¬Matches sequence dims contents →
      iterateOverContents sequence dims contents written cells = none) := by
  induction dims generalizing contents written cells with
  | nil => exact absurd rfl filled
  | cons d dims ih =>
    rw [iterateOverContents.eq_def]
    dsimp only
    cases items : sequence contents with
    | none =>
      refine ⟨fun fits => ?_, fun _ => rfl⟩
      obtain ⟨_, found, -⟩ := fits
      rw [items] at found
      cases found
    | some l =>
      dsimp only
      by_cases length : l.length = d
      · rw [if_neg (not_not.mpr length)]
        -- what one round of either loop does
        have rounds : ∃ store, (if dims = [] then
              l.foldlM (fun state x => some (state.1 + 1, update state.2 state.1 x))
                (written, cells)
            else l.foldlM (fun state x => iterateOverContents sequence dims x state.1 state.2)
              (written, cells)) =
            l.foldlM store (written, cells) ∧
            (∀ (y : α) (state : Nat × (Nat → α)), Matches sequence dims y →
              ∃ state', store state y = some state' ∧
                Written sequence dims y state.1 state.2 state') ∧
            ∀ y state, ¬Matches sequence dims y → store state y = none := by
          by_cases last : dims = []
          · subst last
            refine ⟨_, if_pos rfl, fun y state _ =>
              ⟨_, rfl, rfl, fun is within => ?_, fun k outside => ?_⟩,
              fun y _ no => absurd trivial no⟩
            · cases within
              exact congrArg some (update_self state.1 y state.2).symm
            · rw [prod_nil] at outside
              exact update_of_ne (by omega) _ _
          · exact ⟨_, if_neg last, fun y state fits => (ih last).1 fits, fun y state no =>
              (ih last).2 no⟩
        obtain ⟨store, same, fits, fails⟩ := rounds
        obtain ⟨good, bad⟩ :=
          @items_written _ sequence dims store l written cells (fun y _ => fits y)
          fun y _ => fails y
        rw [same]
        refine ⟨fun fits => ?_, fun no => bad fun all => no ⟨l, items, length, all⟩⟩
        obtain ⟨l', found, -, all⟩ := fits
        rw [items] at found
        cases found
        obtain ⟨state, run, next, found, frame⟩ := good all
        rw [length, ← prod_cons] at next frame
        refine ⟨state, run, next, fun is within => ?_, frame⟩
        cases within with
        | @cons i _ is _ below within =>
          rw [nested, items]
          dsimp only
          rw [List.getElem?_eq_getElem (by omega : i < l.length), bind_some]
          exact found i _ (List.getElem?_eq_getElem (by omega)) is within
      · rw [if_pos length]
        refine ⟨fun fits => ?_, fun _ => rfl⟩
        obtain ⟨l', found, same, -⟩ := fits
        rw [items] at found
        cases found
        exact absurd same length

end Nested

def Dimensions.sizes : Dimensions → List Nat
  | .fixnum d => [d.toNat]
  | .list ds => ds.map Int.toNat

theorem Dimensions.total_eq (dims : Dimensions) : dims.total = dims.sizes.prod := by
  cases dims with
  | fixnum d => exact prod_singleton.symm
  | list ds => rfl

/-- What make-array makes of its arguments; the size has lost what is beyond a machine word. -/
structure Made (etype : Elttype) (fillp : FillPointer) (dims : Dimensions) (header : Header) :
    Prop where
  elttype : header.elttype = etype
  dimensions : header.arrayDimensions = dims.sizes
  type : header.type = if dims.sizes.length = 1 then vectorType etype else .array
  hasFillPointer : header.hasFillPointer = decide (fillp ≠ .none)
  fillPointer : ∀ f, fillp = .at f → header.fillp = f.toNat
  ranked : dims.sizes.length ≠ 1 → fillp = .none
  small : header.dim ≤ atotLim
  dim : header.dim = dims.sizes.prod % 2 ^ 64

theorem vectorType_ne (etype : Elttype) : vectorType etype ≠ .array := by
  cases etype <;> decide

variable {dims : Dimensions} {etype : Elttype} {adjustable : Bool} {fillp : FillPointer}
  {header : Header}

theorem makeVector_made {d : Int}
    (one : dims.sizes = [d.toNat]) (made : makeVector etype d adjustable fillp = some header) :
    Made etype fillp dims header := by
  have limit : atotLim = 2 ^ 61 - 1 := rfl
  obtain ⟨vector, size, small⟩ := makeVector_header made
  have dimensions : header.arrayDimensions = dims.sizes := by
    rw [Header.arrayDimensions, if_neg vector, size, one]
  have dim : header.dim = dims.sizes.prod % 2 ^ 64 := by
    rw [one, prod_singleton, size]
    omega
  have length : dims.sizes.length = 1 := by rw [one]; rfl
  rw [makeVector] at made
  split at made
  · cases made
  · cases fillp with
    | none =>
      cases made
      exact ⟨rfl, dimensions, (if_pos length).symm, rfl, (fun _ never => by cases never),
        fun no => absurd length no, size ▸ small, dim⟩
    | full =>
      cases made
      exact ⟨rfl, dimensions, (if_pos length).symm, rfl, (fun _ never => by cases never),
        fun no => absurd length no, size ▸ small, dim⟩
    | «at» f =>
      dsimp only at made
      split at made
      · cases made
        refine ⟨rfl, dimensions, (if_pos length).symm, rfl, fun f' same => ?_,
          fun no => absurd length no,
          size ▸ small, dim⟩
        cases same
        rfl
      · cases made

theorem makePureArray_made (made : makePureArray etype adjustable fillp dims = some header) :
    Made etype fillp dims header := by
  cases dims with
  | fixnum d => exact makeVector_made rfl made
  | list ds =>
    unfold makePureArray at made
    dsimp only at made
    split at made
    · cases made
    · split at made
      · exact makeVector_made rfl made
      · rename_i many
        split at made
        · cases made
        · rename_i noFillp
          rw [not_not] at noFillp
          subst noFillp
          obtain ⟨⟨js, s⟩, found, same⟩ := map_eq_some_iff.mp made
          obtain ⟨sizes, limited, product⟩ := dimensions_spec found (by decide)
          cases same
          have length : (Dimensions.list ds).sizes.length ≠ 1 := by
            intro one
            rw [Dimensions.sizes, length_map] at one
            obtain ⟨d, rfl⟩ := length_eq_one_iff.mp one
            exact many d rfl
          refine ⟨rfl, (if_pos rfl).trans sizes, (if_neg length).symm, rfl,
            (fun _ never => by cases never), fun _ => rfl, limited, ?_⟩
          rw [product, Nat.one_mul]
          rfl

/-- The size of an array is that of its dimensions. -/
structure Header.Sized (header : Header) : Prop where
  small : header.dim ≤ atotLim
  product : header.arrayDimensions.prod = header.dim
  type : header.type = .array ∧ header.dims.length ≠ 1 ∧ header.hasFillPointer = false ∨
    header.type = vectorType header.elttype

theorem Made.sized (made : Made etype fillp dims header) (small : dims.total ≤ atotLim) :
    header.Sized := by
  have limit : atotLim = 2 ^ 61 - 1 := rfl
  have total := dims.total_eq
  refine ⟨made.small, ?_, ?_⟩
  · rw [made.dimensions, made.dim]
    omega
  · have type := made.type
    split at type
    · exact .inr (made.elttype ▸ type)
    · rename_i many
      have ranked := made.ranked many
      have same := made.dimensions
      rw [Header.arrayDimensions, if_pos type] at same
      refine .inl ⟨type, same ▸ many, ?_⟩
      rw [made.hasFillPointer, ranked]
      rfl

theorem rowMajor_within (small : header.dim ≤ atotLim) (within : Within header.arrayDimensions is) :
    header.rowMajor (is.map Nat.cast) = some (offset header.arrayDimensions is % 2 ^ 64) := by
  have limit : atotLim = 2 ^ 61 - 1 := rfl
  rw [Header.arrayDimensions] at within ⊢
  rw [Header.rowMajor.eq_def]
  split at within
  · rename_i array
    have rank : ¬(is.map Nat.cast : List Int).length ≠ header.dims.length := by
      rw [length_map]
      exact not_not.mpr within.length_eq
    rw [if_pos array, if_pos array, if_neg rank, subscripts_within within (by decide),
      Nat.zero_mul, Nat.zero_add]
  · rename_i vector
    rw [if_neg vector, if_neg vector]
    cases within with
    | @cons i _ _ _ below none =>
      cases none
      have here : subscript header.dim (i : Int) = some i := if_pos ⟨by omega, by omega⟩
      have row :
        offset [header.dim] [i] = i := by simp only [offset, prod_nil, Nat.mul_one, Nat.add_zero]
      rw [row, Nat.mod_eq_of_lt (by omega)]
      exact here

variable {x : Filled α}

theorem aref_within (sized : x.header.Sized) (within : Within x.header.arrayDimensions is) :
    x.aref (is.map Nat.cast) = some (x.cells (offset x.header.arrayDimensions is)) := by
  have limit : atotLim = 2 ^ 61 - 1 := rfl
  have small := sized.small
  have inside := sized.product ▸ offset_lt within
  rw [Filled.aref, rowMajor_within small within, bind_some, Nat.mod_eq_of_lt (by omega),
    if_pos inside]

theorem offset_injective {dims is' : List Nat} (within : Within dims is) (within' : Within dims is')
    (same : offset dims is = offset dims is') : is = is' := by
  induction within generalizing is' with
  | nil =>
    cases within'
    rfl
  | @cons i d is dims _ within ih =>
    cases within' with
    | @cons i' _ is' _ _ within' =>
      have below := offset_lt within
      have below' := offset_lt within'
      have positive : 0 < dims.prod := Nat.zero_lt_of_lt below
      rw [offset, offset] at same
      have heads := congrArg (· / dims.prod) same
      simp only [Nat.mul_comm _ dims.prod, Nat.mul_add_div positive, Nat.div_eq_of_lt below,
        Nat.div_eq_of_lt below', Nat.add_zero] at heads
      subst heads
      rw [ih within' (Nat.add_left_cancel same)]

variable {array : Filled α}

theorem copyArrayContents_copied (sized : x.header.Sized) (sized' : array.header.Sized)
    (rank : x.header.arrayDimensions.length = array.header.arrayDimensions.length) :
    ∃ x', copyArrayContents x array = some x' ∧
      Copied array x x' x.header.arrayDimensions array.header.arrayDimensions 0 0 := by
  have inside : 0 + x.header.arrayDimensions.prod ≤ x.header.dim := by
    rw [Nat.zero_add, sized.product]
  have inside' : 0 + array.header.arrayDimensions.prod ≤ array.header.dim := by
    rw [Nat.zero_add, sized'.product]
  rw [copyArrayContents]
  generalize x.header.arrayDimensions = dims at rank inside ⊢
  generalize array.header.arrayDimensions = dims' at rank inside' ⊢
  cases dims with
  | nil =>
    obtain rfl : dims' = [] := length_eq_zero_iff.mp rank.symm
    obtain ⟨x', run, header, copied, frame⟩ :=
      @doCopy_copied α array x (orOne []) (orOne []) 0 0 rfl (cons_ne_nil 1 []) inside inside'
    have zero : Within (orOne []) [0] := .cons Nat.one_pos .nil
    refine ⟨x', run, header, fun is within _ => ?_, fun k others => frame k fun is within _ => ?_⟩
    · cases within
      exact copied [0] zero zero
    · cases within with
      | @cons i _ _ _ below none =>
        cases none
        obtain rfl := Nat.lt_one_iff.mp below
        exact others [] .nil .nil
  | cons d dims =>
    obtain ⟨d', dims', rfl⟩ := exists_cons_of_length_eq_add_one rank.symm
    exact doCopy_copied rank (cons_ne_nil d dims) inside inside'

theorem copyLoop_header {copy : Nat → Nat → Filled α → Option (Filled α)}
    (keeps : ∀ i1 i2 dest dest', copy i1 i2 dest = some dest' → dest'.header = dest.header)
    {step1 step2 l i1 i2 : Nat} {dest dest' : Filled α}
    (run : copyLoop copy step1 step2 l i1 i2 dest = some dest') : dest'.header = dest.header := by
  induction l generalizing i1 i2 dest with
  | zero =>
    cases run
    rfl
  | succ l ih =>
    obtain ⟨middle, first, rest⟩ := bind_eq_some_iff.mp run
    exact (ih rest).trans (keeps i1 i2 dest middle first)

theorem doCopy_header {orig dest dest' : Filled α} {dims1 dims2 : List Nat} {start1 start2 : Nat}
    (run : doCopy orig dims1 dims2 start1 start2 dest = some dest') :
    dest'.header = dest.header := by
  induction dims1 generalizing dims2 start1 start2 dest dest' with
  | nil =>
    cases run
    rfl
  | cons d1 dims1 ih =>
    cases dims2 with
    | nil =>
      cases run
      rfl
    | cons d2 dims2 =>
      rw [doCopy] at run
      split at run
      · exact copySubarray_header run
      · exact copyLoop_header (fun i1 i2 dest dest' => ih) run

theorem makeArray_contents (sequence : α → Option (List α)) (memory : Nat → α) (contents : α)
    (made : makePureArray etype adjustable fillp dims = some header)
    (small : dims.total ≤ atotLim) :
    (Matches sequence dims.sizes contents →
      ∃ x, makeArray sequence memory etype dims adjustable fillp (.contents contents) = some x ∧
        x.header = header ∧ ∀ is, Within dims.sizes is →
          ∃ elt, nested sequence contents is = some elt ∧ x.aref (is.map Nat.cast) = some elt) ∧
    (¬Matches sequence dims.sizes contents →
      makeArray sequence memory etype dims adjustable fillp (.contents contents) = none) := by
  have ofMade := makePureArray_made made
  have sized := ofMade.sized small
  have same := ofMade.dimensions
  rw [makeArray, made]
  dsimp only
  rw [Filled.fillArrayWithSeq]
  by_cases filled : header.arrayDimensions ≠ []
  · rw [if_pos filled]
    dsimp only
    rw [← same]
    obtain ⟨good, bad⟩ :=
      @iterateOverContents_written _ sequence header.arrayDimensions contents 0 memory filled
    refine ⟨fun fits => ?_, fun no => by rw [bad no]; rfl⟩
    obtain ⟨state, run, -, found, -⟩ := good fits
    refine ⟨⟨header, state.2⟩, by rw [run]; rfl, rfl, fun is within => ⟨_, found is within, ?_⟩⟩
    rw [Nat.zero_add]
    exact aref_within sized within
  · rw [if_neg filled]
    rw [not_not] at filled
    rw [← same, filled]
    refine ⟨fun _ => ⟨_, rfl, rfl, fun is within => ?_⟩, fun no => absurd trivial no⟩
    cases within
    have within : Within header.arrayDimensions [] := by
      rw [filled]
      exact .nil
    refine ⟨contents, rfl, (aref_within sized within).trans (congrArg some ?_)⟩
    rw [filled]
    exact update_self 0 contents memory

end Ecl.Arrays
