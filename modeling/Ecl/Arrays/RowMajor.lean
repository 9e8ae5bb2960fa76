import Mathlib.Algebra.BigOperators.Group.List.Basic
import Mathlib.Tactic.Ring
import Ecl.Arrays.Displace

/- Indices of arrays of several dimensions in aref and si::aset. -/
namespace Ecl.Arrays

open List Option

/-- One index in its range. -/
def subscript (dim : Nat) (i : Int) : Option Nat :=
  if 0 ≤ i ∧ i ≤ (dim : Int) - 1 then some i.toNat else none

/-- The loop over the indices, with the row major index in a machine word. -/
def subscripts : List Nat → List Int → Nat → Option Nat
  | dim :: dims, i :: indices, j =>
    match subscript dim i with
    | none => none
    | some s => subscripts dims indices ((j * dim + s) % 2 ^ 64)
  | _, _, j => some j

/-- The row major index that aref and si::aset compute, unless they refuse the indices. -/
def Header.rowMajor (header : Header) (indices : List Int) : Option Nat :=
  if header.type = .array then
    if indices.length ≠ header.dims.length then none else subscripts header.dims indices 0
  else
    match indices with
    | [i] => subscript header.dim i
    | _ => none

/-- The total size of an array as it is written. -/
def Dimensions.total : Dimensions → Nat
  | .fixnum d => d.toNat
  | .list ds => (ds.map Int.toNat).prod

/-- The size of an array is its total size, its indices are in bounds, and no two of them
are one. -/
structure Indexed (dims : Dimensions) (header : Header) : Prop where
  total : header.dim = dims.total
  inside : ∀ indices j, header.rowMajor indices = some j → j < header.dim
  injective : ∀ indices indices' j, header.rowMajor indices = some j →
    header.rowMajor indices' = some j → indices = indices'

theorem subscript_eq_some {dim : Nat} {i : Int} {s : Nat} (run : subscript dim i = some s) :
    s < dim ∧ i = s := by
  unfold subscript at run
  split at run
  · have value := some.inj run
    omega
  · cases run

variable {dims : List Nat} {indices : List Int}

theorem subscripts_zero (rank : indices.length = dims.length) (zero : dims.prod = 0) (j : Nat) :
    subscripts dims indices j = none := by
  induction dims generalizing indices j with
  | nil => simp only [prod_nil, one_ne_zero] at zero
  | cons dim dims ih =>
    cases indices with
    | nil => simp only [length_nil, length_cons] at rank; omega
    | cons i indices =>
      rw [subscripts]
      cases run : subscript dim i with
      | none => rfl
      | some s =>
        have below := (subscript_eq_some run).1
        rw [prod_cons] at zero
        have rest := (Nat.mul_eq_zero.mp zero).resolve_left (by omega)
        exact ih (by simpa only [length_cons, Nat.add_right_cancel_iff] using rank) rest _

section Round

variable {dim size j s : Nat}

theorem next_lt (below : j < size) (inside : s < dim) : j * dim + s < size * dim := by
  calc
    j * dim + s < (j + 1) * dim := by rw [Nat.succ_mul]; omega
    _ ≤ size * dim := Nat.mul_le_mul_right dim below

theorem next_word {rest : Nat} (positive : 0 < rest) (room : size * (dim * rest) < 2 ^ 64)
    (below : j < size) (inside : s < dim) : (j * dim + s) % 2 ^ 64 = j * dim + s := by
  have next := next_lt below inside
  have more : size * dim ≤ size * dim * rest := Nat.le_mul_of_pos_right _ positive
  rw [← Nat.mul_assoc] at room
  exact Nat.mod_eq_of_lt (by omega)

end Round

variable {j k : Nat}

theorem subscripts_cons {dim : Nat} {i : Int}
    (run : subscripts (dim :: dims) (i :: indices) j = some k) :
    ∃ s : Nat, i = s ∧ s < dim ∧
      subscripts dims indices ((j * dim + s) % 2 ^ 64) = some k := by
  rw [subscripts] at run
  cases within : subscript dim i with
  | none =>
    rw [within] at run
    cases run
  | some s =>
    rw [within] at run
    have ⟨below, value⟩ := subscript_eq_some within
    exact ⟨s, value, below, run⟩

/-- An index below the size of the dimensions so far is, with the rest, below their size. -/
theorem subscripts_lt {size : Nat} (rank : indices.length = dims.length) (positive : 0 < dims.prod)
    (room : size * dims.prod < 2 ^ 64) (below : j < size)
    (run : subscripts dims indices j = some k) : k < size * dims.prod := by
  induction dims generalizing indices size j with
  | nil =>
    rw [subscripts] at run
    · rw [← some.inj run, prod_nil, Nat.mul_one]
      exact below
    · intro _ _ _ _ impossible
      cases impossible
  | cons dim dims ih =>
    cases indices with
    | nil => simp only [length_nil, length_cons] at rank; omega
    | cons i indices =>
      obtain ⟨s, _, inside, rest⟩ := subscripts_cons run
      rw [prod_cons] at positive room ⊢
      have positiveRest := Nat.pos_of_mul_pos_left positive
      rw [next_word positiveRest room below inside] at rest
      rw [← Nat.mul_assoc] at room ⊢
      exact ih (by simpa only [length_cons, Nat.add_right_cancel_iff] using rank)
        positiveRest room (next_lt below inside) rest

theorem subscripts_injective {indices' : List Int} {size j' : Nat}
    (rank : indices.length = dims.length) (rank' : indices'.length = dims.length)
    (positive : 0 < dims.prod) (room : size * dims.prod < 2 ^ 64) (below : j < size)
    (below' : j' < size) (run : subscripts dims indices j = some k)
    (run' : subscripts dims indices' j' = some k) : j = j' ∧ indices = indices' := by
  induction dims generalizing indices indices' size j j' with
  | nil =>
    have empty := eq_nil_of_length_eq_zero rank
    have empty' := eq_nil_of_length_eq_zero rank'
    subst empty empty'
    have same : some j = some j' := run.trans run'.symm
    exact ⟨some.inj same, rfl⟩
  | cons dim dims ih =>
    obtain ⟨i, indices, rfl⟩ := exists_cons_of_length_eq_add_one rank
    obtain ⟨i', indices', rfl⟩ := exists_cons_of_length_eq_add_one rank'
    obtain ⟨s, value, inside, rest⟩ := subscripts_cons run
    obtain ⟨s', value', inside', rest'⟩ := subscripts_cons run'
    rw [prod_cons] at positive room
    have positiveRest := Nat.pos_of_mul_pos_left positive
    rw [next_word positiveRest room below inside] at rest
    rw [next_word positiveRest room below' inside'] at rest'
    rw [← Nat.mul_assoc] at room
    have ⟨sum, tail⟩ := ih (Nat.succ.inj rank) (Nat.succ.inj rank') positiveRest room
      (next_lt below inside) (next_lt below' inside') rest rest'
    -- Quotient and remainder by the dimension give back both parts.
    have split (q r : Nat) (small : r < dim) : (q * dim + r) / dim = q := by
      rw [Nat.add_comm, Nat.add_mul_div_right _ _ (by omega), Nat.div_eq_of_lt small, zero_add]
    have quotient : j = j' := by rw [← split j s inside, sum, split j' s' inside']
    have remainder : s = s' := by
      rw [quotient] at sum
      omega
    exact ⟨quotient, by rw [value, value', remainder, tail]⟩

theorem dimensions_spec {ds : List Int} {s t : Nat} {js : List Nat}
    (run : dimensions ds s = some (js, t)) (small : s ≤ atotLim) :
    js = ds.map Int.toNat ∧ t ≤ atotLim ∧ t = s * (ds.map Int.toNat).prod % 2 ^ 64 := by
  have limit : atotLim = 2 ^ 61 - 1 := rfl
  induction ds generalizing s t js with
  | nil =>
    cases run
    refine ⟨rfl, small, ?_⟩
    rw [map_nil, prod_nil, Nat.mul_one]
    omega
  | cons d ds ih =>
    rw [dimensions] at run
    cases one : dimension d with
    | none =>
      rw [one] at run
      cases run
    | some j =>
      have value : j = d.toNat := by
        unfold dimension at one
        split at one
        · exact (some.inj one).symm
        · cases one
      rw [one] at run
      simp only at run
      split at run
      · cases run
      · rename_i within
        obtain ⟨⟨rest, total⟩, found, same⟩ := map_eq_some_iff.mp run
        cases same
        have ⟨tail, limited, product⟩ := ih found (by omega)
        refine ⟨by rw [map_cons, tail, value], limited, ?_⟩
        rw [product, map_cons, prod_cons, ← value, ← Nat.mul_assoc, Nat.mod_mul_mod]

variable {header : Header}

theorem vector_indexed {dims : Dimensions} (vector : header.type ≠ .array)
    (total : header.dim = dims.total) : Indexed dims header := by
  have one {indices : List Int} {j : Nat} (run : header.rowMajor indices = some j) :
      indices = [(j : Int)] ∧ j < header.dim := by
    rw [Header.rowMajor.eq_def, if_neg vector] at run
    split at run
    · have ⟨below, value⟩ := subscript_eq_some run
      exact ⟨by rw [value], below⟩
    · cases run
  refine ⟨total, fun _ _ run => (one run).2, ?_⟩
  intro indices indices' j run run'
  rw [(one run).1, (one run').1]

theorem array_indexed {dims : Dimensions} (array : header.type = .array)
    (product : header.dims.prod = dims.total) (total : header.dim = dims.total)
    (small : dims.total ≤ atotLim) : Indexed dims header := by
  have limit : atotLim = 2 ^ 61 - 1 := rfl
  have accepted {indices : List Int} {j : Nat} (run : header.rowMajor indices = some j) :
      indices.length = header.dims.length ∧ 0 < header.dims.prod ∧
        subscripts header.dims indices 0 = some j := by
    rw [Header.rowMajor.eq_def, if_pos array] at run
    split at run
    · cases run
    · rename_i rank
      rw [not_not] at rank
      refine ⟨rank, Nat.pos_of_ne_zero ?_, run⟩
      intro zero
      rw [subscripts_zero rank zero] at run
      cases run
  have room : 1 * header.dims.prod < 2 ^ 64 := by omega
  refine ⟨total, ?_, ?_⟩
  · intro indices j run
    have ⟨rank, positive, loop⟩ := accepted run
    have below := subscripts_lt rank positive room Nat.one_pos loop
    omega
  · intro indices indices' j run run'
    have ⟨rank, positive, loop⟩ := accepted run
    have ⟨rank', _, loop'⟩ := accepted run'
    exact (subscripts_injective rank rank' positive room Nat.one_pos Nat.one_pos loop loop').2

theorem makeVector_header {etype : Elttype} {d : Int} {adjustable : Bool} {fillp : FillPointer}
    (made : makeVector etype d adjustable fillp = some header) :
    header.type ≠ .array ∧ header.dim = d.toNat ∧ d.toNat ≤ atotLim := by
  have vector : vectorType etype ≠ .array := by cases etype <;> decide
  have limits : adimLim = atotLim := rfl
  unfold makeVector dimension at made
  by_cases within : 0 ≤ d ∧ d ≤ adimLim
  · rw [if_pos within] at made
    have small : d.toNat ≤ atotLim := by omega
    cases fillp with
    | none =>
      cases made
      exact ⟨vector, rfl, small⟩
    | full =>
      cases made
      exact ⟨vector, rfl, small⟩
    | «at» f =>
      simp only at made
      split at made
      · cases made
        exact ⟨vector, rfl, small⟩
      · cases made
  · rw [if_neg within] at made
    cases made

/-- The indices of a new array are in bounds and told apart exactly when its total size is
within the limit: the check of the product does not see the words that are cut off. -/
theorem makePureArray_indexed {etype : Elttype} {adjustable : Bool} {fillp : FillPointer}
    {dims : Dimensions} {header : Header}
    (made : makePureArray etype adjustable fillp dims = some header) :
    Indexed dims header ↔ dims.total ≤ atotLim := by
  have ofVector {d : Int} (made : makeVector etype d adjustable fillp = some header)
      (total : dims.total = d.toNat) : Indexed dims header ↔ dims.total ≤ atotLim := by
    have ⟨vector, size, small⟩ := makeVector_header made
    apply iff_of_true
    · exact vector_indexed vector (size.trans total.symm)
    · omega
  cases dims with
  | fixnum d => exact ofVector made rfl
  | list ds =>
    unfold makePureArray at made
    simp only at made
    split at made
    · cases made
    · split at made
      · exact ofVector made (by simp only [Dimensions.total, map_cons, map_nil,
          prod_singleton])
      · split at made
        · cases made
        · obtain ⟨⟨js, s⟩, found, same⟩ := Option.map_eq_some_iff.mp made
          have ⟨sizes, limited, product⟩ := dimensions_spec found (by decide)
          cases same
          have limit : atotLim = 2 ^ 61 - 1 := rfl
          rw [Nat.one_mul] at product
          constructor
          · intro indexed
            have total : s = (Dimensions.list ds).total := indexed.total
            omega
          · intro small
            have whole : s = (Dimensions.list ds).total := by
              have value : (Dimensions.list ds).total = (ds.map Int.toNat).prod := rfl
              omega
            exact array_indexed rfl (by rw [sizes]; rfl) whole small

theorem makePureArray_indexed_square :
    ∃ header, makePureArray .object false .none (.list [3, 4]) = some header ∧
      (Indexed (.list [3, 4]) header ↔ (Dimensions.list [3, 4]).total ≤ atotLim) :=
  ⟨_, rfl, makePureArray_indexed (show makePureArray .object false .none _ = _ from rfl)⟩

/-- Two dimensions whose product is the number of words make an array of no elements, which
is read at an index outside it. -/
theorem product_cut_off :
    ¬ ∀ (etype : Elttype) (adjustable : Bool) (fillp : FillPointer) (ds : List Int)
      (header : Header), makePureArray etype adjustable fillp (.list ds) = some header →
      Indexed (.list ds) header := by
  intro all
  have indexed := all .object false .none [2 ^ 32, 2 ^ 32]
    { Header.blank with type := .array, dims := [2 ^ 32, 2 ^ 32] } (by decide +kernel)
  have inside := indexed.inside [0, 0] 0 (by decide +kernel)
  exact absurd inside (by decide)

end Ecl.Arrays
