import Ecl.Arrays.Contents
import Ecl.Arrays.Storage

/- The elements of an adjusted array: adjust-array makes a new array, copies the elements, moves
the arrays that are displaced to the old one and gives this the header of the new one. -/
namespace Ecl.Arrays

open List Option Function

variable {α : Type}

/-- The fill pointer that adjust-array adds to the arguments of make-array. -/
def Header.fillPointer (header : Header) : FillPointer :=
  if header.hasFillPointer then .at header.fillp else .none

def Dimensions.asList : Dimensions → Dimensions
  | .fixnum d => .list [d]
  | .list ds => .list ds

namespace State

variable (st : State α)

/-- An array with what its elements are in memory. -/
def filled (d : ArrayId) : Filled α :=
  ⟨st.header d, fun k => st.memory ((st.header d).cell k)⟩

/-- A new array with its elements at an address of the allocator. -/
def addFilled (x : Filled α) (address : Nat) : State α :=
  let header := { x.header with self := address }
  { st.add header with
    memory := fun cell =>
      ((List.range header.dim).find? fun k => header.cell k = cell).elim (st.memory cell) x.cells }

/-- adjust-array with no more than an initial element, and the array that it returns. The memory
at the address holds anything before. There is no state after an error. -/
def adjustArray (sequence : α → Option (List α)) (memory : Nat → α) (address : Nat)
    (array : ArrayId) (newDimensions : Dimensions) (initialElement : Option α) :
    Option (State α × ArrayId) := do
  let header := st.header array
  let x ← makeArray sequence memory header.elttype newDimensions.asList true header.fillPointer
    (initialElement.elim .unsupplied .element)
  let x ← copyArrayContents x (st.filled array)
  let newa := st.count
  let st := st.addFilled x address
  -- si_replace_array: "Cannot replace the array ~S by the array ~S."
  if header.type ≠ x.header.type ∨
      header.type = .array ∧ header.dims.length ≠ x.header.dims.length then none
  else if header.adjustable = false then some (st, newa)
  else if (st.replaceLoop newa (st.back array)).2 then some (st.replaceArray array newa, array)
  else none

end State

/-- The tests of displace, for an array at an offset in another one. -/
def Header.Room (header base : Header) (offset : Int) : Prop :=
  base.elttype = header.elttype ∧ header.dim ≤ base.dim ∧ 0 ≤ offset ∧
    offset ≤ ((base.dim - header.dim : Nat) : Int)

instance (header base : Header) (offset : Int) : Decidable (header.Room base offset) :=
  inferInstanceAs (Decidable (_ ∧ _ ∧ _ ∧ _))

/-- Every array of a list has room in a new one when its turn comes, at the offset that it has in
the array it is then displaced to. -/
def State.RoomInTurn (newa : ArrayId) : State α → List ArrayId → Prop
  | _, [] => True
  | st, other :: rest =>
    (st.header other).Room (st.header newa) (st.displacement other).2 ∧
      ∀ st', st.displace other newa (st.displacement other).2 = some st' →
        RoomInTurn newa st' rest

/-- The elements and the fill pointer of an array in an adjusted one. -/
structure Kept (array x : Filled α) (initial : Option α) : Prop where
  hasFillPointer : x.header.hasFillPointer = array.header.hasFillPointer
  fillPointer : array.header.hasFillPointer = true → x.header.fillp = array.header.fillp
  old : ∀ is, Within x.header.arrayDimensions is → Within array.header.arrayDimensions is →
    ∃ elt, array.aref (is.map Nat.cast) = some elt ∧ x.aref (is.map Nat.cast) = some elt
  new : ∀ is, Within x.header.arrayDimensions is → ¬Within array.header.arrayDimensions is →
    ∀ elt, initial = some elt → x.aref (is.map Nat.cast) = some elt

theorem Dimensions.asList_sizes (dims : Dimensions) : dims.asList.sizes = dims.sizes := by
  cases dims <;> rfl

theorem Header.cell_injective (header : Header) {i j : Nat} (same : header.cell i = header.cell j) :
    i = j := by
  rw [cell_eq, cell_eq] at same
  have unit := header.elttype.unit_pos
  split at same
  · simp only [Cell.mk.injEq, charBit] at same
    omega
  · have heads := congrArg Cell.address same
    dsimp only at heads
    exact Nat.eq_of_mul_eq_mul_right unit (by omega)

namespace State

variable {st st' : State α}

theorem addFilled_memory (x : Filled α) (address : Nat) {k : Nat} (below : k < x.header.dim) :
    (st.addFilled x address).memory ({ x.header with self := address : Header }.cell k) =
      x.cells k := by
  have found : (List.range x.header.dim).find? (fun j =>
      { x.header with self := address : Header }.cell j =
        { x.header with self := address : Header }.cell k) = some k := by
    refine find?_eq_some_iff_getElem.mpr
      ⟨decide_eq_true rfl, k, by simpa, by simp, fun j less => ?_⟩
    simp only [getElem_range, Bool.not_eq_true', decide_eq_false_iff_not]
    intro same
    exact absurd (Header.cell_injective _ same) (by omega)
  rw [addFilled]
  dsimp only
  rw [found]
  rfl

theorem displace_isSome_iff {origin base : ArrayId} {offset : Int} :
    (∃ st', st.displace origin base offset = some st') ↔
      (st.header origin).Room (st.header base) offset := by
  unfold displace Header.Room
  dsimp only
  constructor
  · rintro ⟨st', run⟩
    split at run
    · cases run
    · split at run
      · cases run
      · split at run
        · cases run
        · rename_i etype dim range
          rw [not_or] at range
          exact ⟨not_not.mp etype, not_lt.mp dim, not_lt.mp range.1, not_lt.mp range.2⟩
  · rintro ⟨etype, dim, nonneg, most⟩
    rw [if_neg (not_not.mpr etype), if_neg (by omega), if_neg (by omega)]
    exact ⟨_, rfl⟩

/-- The other arrays keep all but their lists. -/
structure Moved (st st' : State α) (origin : ArrayId) : Prop where
  memory : st'.memory = st.memory
  count : st'.count = st.count
  others : ∀ d, d ≠ origin → { st'.header d with displaced := none } =
    { st.header d with displaced := none }

theorem newList_header (d x : ArrayId) (car : Option ArrayId) :
    { (st.newList d car).header x with displaced := none } =
      { st.header x with displaced := none } := by
  by_cases self : x = d
  · subst self
    simp only [newList, update_self]
  · simp only [newList, update_of_ne self]

theorem pushBack_memory (base origin : ArrayId) :
    (st.pushBack base origin).memory = st.memory := by
  unfold pushBack
  split <;> rfl

theorem link_moved (origin base x : ArrayId) :
    (st.link origin base).memory = st.memory ∧ (st.link origin base).count = st.count ∧
      { (st.link origin base).header x with displaced := none } =
        { st.header x with displaced := none } := by
  unfold link
  dsimp only
  split
  · rw [pushBack_memory, pushBack_count, pushBack_header, newList_header, newList_header]
    exact ⟨rfl, rfl, rfl⟩
  · rw [pushBack_memory, pushBack_count, pushBack_header, newList_header]
    exact ⟨rfl, rfl, rfl⟩

theorem displace_moved {origin base : ArrayId} {offset : Int}
    (run : st.displace origin base offset = some st') : Moved st st' origin := by
  unfold displace at run
  dsimp only at run
  split at run
  · cases run
  · split at run
    · cases run
    · split at run
      · cases run
      · cases run
        have moved := @link_moved α st origin base
        refine ⟨(moved origin).1, (moved origin).2.1, fun d other => ?_⟩
        simp only [setHeader, update_of_ne other]
        exact (moved d).2.2

theorem pushBack_withMemory {memory : Cell → α} (base origin : ArrayId) :
    { st with memory := memory }.pushBack base origin =
      { st.pushBack base origin with memory := memory } := by
  unfold pushBack
  dsimp only
  cases (st.header base).displaced <;> rfl

theorem displace_withMemory {memory : Cell → α} (origin base : ArrayId) (offset : Int) :
    { st with memory := memory }.displace origin base offset =
      (st.displace origin base offset).map fun st' => { st' with memory := memory } := by
  have link : { st with memory := memory }.link origin base =
      { st.link origin base with memory := memory } := by
    by_cases fresh : ((st.newList origin (some base)).header base).displaced = none
    · simp only [State.link, if_pos fresh, ← pushBack_withMemory]
      exact congrArg (fun s => pushBack s base origin) (if_pos fresh)
    · simp only [State.link, if_neg fresh, ← pushBack_withMemory]
      exact congrArg (fun s => pushBack s base origin) (if_neg fresh)
  unfold displace
  dsimp only
  rw [link]
  split
  · rfl
  · split
    · rfl
    · split
      · rfl
      · rfl

theorem replaceLoop_ends_iff (newa : ArrayId) (list : List ArrayId) :
    (st.replaceLoop newa list).2 = true ↔ RoomInTurn newa st list := by
  induction list generalizing st with
  | nil => exact iff_of_true rfl trivial
  | cons other rest ih =>
    rw [replaceLoop, RoomInTurn, ← displace_isSome_iff]
    cases run : st.displace other newa (st.displacement other).2 with
    | none =>
      refine iff_of_false Bool.false_ne_true ?_
      rintro ⟨⟨st', never⟩, -⟩
      cases never
    | some st' =>
      constructor
      · intro ended
        refine ⟨⟨st', rfl⟩, fun st'' same => ?_⟩
        cases same
        exact ih.mp ended
      · intro room
        exact ih.mpr (room.2 st' rfl)

theorem replaceLoop_moved {newa : ArrayId} {list : List ArrayId} (apart : newa ∉ list) :
    (st.replaceLoop newa list).1.memory = st.memory ∧
      (st.replaceLoop newa list).1.count = st.count ∧
      { (st.replaceLoop newa list).1.header newa with displaced := none } =
        { st.header newa with displaced := none } := by
  induction list generalizing st with
  | nil => exact ⟨rfl, rfl, rfl⟩
  | cons other rest ih =>
    rw [mem_cons, not_or] at apart
    rw [replaceLoop]
    cases run : st.displace other newa (st.displacement other).2 with
    | none => exact ⟨rfl, rfl, rfl⟩
    | some st' =>
      have moved := displace_moved run
      obtain ⟨memory, count, header⟩ := @ih st' apart.2
      exact ⟨memory.trans moved.memory, count.trans moved.count,
        header.trans (moved.others newa apart.1)⟩

theorem room_congr {header header' base base' : Header} {offset offset' : Int}
    (same : { header' with displaced := none } = { header with displaced := none })
    (same' : { base' with displaced := none } = { base with displaced := none })
    (offsets : offset' = offset) : header'.Room base' offset' ↔ header.Room base offset := by
  simp only [Header.mk.injEq] at same same'
  rw [Header.Room, Header.Room, same.2.1, same.2.2.2.2.2.1, same'.2.1, same'.2.2.2.2.2.1, offsets]

theorem Moved.displacement {origin d : ArrayId} (moved : Moved st st' origin) (other : d ≠ origin)
    (target : st'.target d = st.target d) (apart : ∀ t, st.target d = some t → t ≠ origin) :
    st'.displacement d = st.displacement d := by
  rw [State.displacement, State.displacement, target]
  cases of : st.target d with
  | none => rfl
  | some t =>
    have own := moved.others d other
    have its := moved.others t (apart t of)
    simp only [Header.mk.injEq] at own its
    simp only [own.2.1, own.2.2.2.2.2.2.2.2.1, own.2.2.2.2.2.2.2.2.2, its.2.2.2.2.2.2.2.2.1,
      its.2.2.2.2.2.2.2.2.2]

/-- When no array of the list is displaced to another one of it, the turns do not matter. -/
theorem roomInTurn_iff {newa : ArrayId} {list : List ArrayId} (sound : st.Sound)
    (inside : newa < st.count) (nodup : list.Nodup) (apart : newa ∉ list)
    (direct : ∀ d ∈ list, ∀ t, st.target d = some t → t ∉ list) :
    RoomInTurn newa st list ↔
      ∀ other ∈ list, (st.header other).Room (st.header newa) (st.displacement other).2 := by
  induction list generalizing st with
  | nil => exact iff_of_true trivial fun other never => absurd never not_mem_nil
  | cons other rest ih =>
    obtain ⟨first, nodup⟩ := nodup_cons.mp nodup
    rw [mem_cons, not_or] at apart
    have later {st' : State α}
        (run : st.displace other newa (st.displacement other).2 = some st') :
        RoomInTurn newa st' rest ↔
          ∀ d ∈ rest, (st.header d).Room (st.header newa) (st.displacement d).2 := by
      have moved := displace_moved run
      have law := displace_law sound inside run
      have target : ∀ d ∈ rest, st'.target d = st.target d := fun d member =>
        law.others d fun same => first (same ▸ member)
      rw [ih law.sound (moved.count.symm ▸ inside) nodup apart.2 fun d member t of =>
        fun member' => direct d (.tail other member) t (target d member ▸ of) (.tail other member')]
      refine forall₂_congr fun d member => ?_
      have differ : d ≠ other := fun same => first (same ▸ member)
      exact room_congr (moved.others d differ) (moved.others newa apart.1)
        (congrArg Prod.snd (moved.displacement differ (target d member) fun t of same =>
          direct d (.tail other member) t of (same ▸ mem_cons_self)))
    rw [RoomInTurn, forall_mem_cons]
    constructor
    · rintro ⟨here, next⟩
      obtain ⟨st', run⟩ := displace_isSome_iff.mpr here
      exact ⟨here, (later run).mp (next st' run)⟩
    · rintro ⟨here, next⟩
      exact ⟨here, fun st' run => (later run).mpr next⟩

theorem RoomInTurn.memory {newa : ArrayId} {list : List ArrayId} {memory : Cell → α}
    (room : RoomInTurn newa st list) : RoomInTurn newa { st with memory := memory } list := by
  induction list generalizing st with
  | nil => trivial
  | cons other rest ih =>
    obtain ⟨fits, next⟩ := room
    refine ⟨fits, fun st' run => ?_⟩
    obtain ⟨middle, run'⟩ := displace_isSome_iff.mpr fits
    have same : st' = { middle with memory := memory } := by
      have displaced := @displace_withMemory α st memory other newa
        (st.displacement other).2
      rw [run'] at displaced
      exact some.inj (run.symm.trans displaced)
    rw [same]
    exact ih (next middle run')

end State

/-- An array with the dimensions and the elements of another one. -/
structure Alike (y x : Filled α) : Prop where
  header : ∃ self displaced, y.header = { x.header with self := self, displaced := displaced }
  cells : ∀ k, k < x.header.dim → y.cells k = x.cells k

theorem Alike.aref {y x : Filled α} (alike : Alike y x) (indices : List Int) :
    y.aref indices = x.aref indices := by
  obtain ⟨self, displaced, header⟩ := alike.header
  have row : y.header.rowMajor indices = x.header.rowMajor indices := by
    rw [header]
    rfl
  have dim : y.header.dim = x.header.dim := by rw [header]
  rw [Filled.aref, Filled.aref, row, dim]
  congr 1
  funext j
  split
  · rename_i below
    rw [alike.cells j below]
  · rfl

theorem Kept.alike {array x y : Filled α} {initial : Option α} (kept : Kept array x initial)
    (alike : Alike y x) : Kept array y initial := by
  obtain ⟨self, displaced, header⟩ := alike.header
  have dimensions : y.header.arrayDimensions = x.header.arrayDimensions := by
    rw [header]
    rfl
  refine ⟨?_, fun has => ?_, fun is within within' => ?_, fun is within others elt same => ?_⟩
  · rw [header]
    exact kept.hasFillPointer
  · rw [header]
    exact kept.fillPointer has
  · obtain ⟨elt, before, after⟩ := kept.old is (dimensions ▸ within) within'
    exact ⟨elt, before, (alike.aref _).trans after⟩
  · exact (alike.aref _).trans (kept.new is (dimensions ▸ within) others elt same)

section Adjusted

variable {st : State α} {array : ArrayId} {dims : Dimensions} {header : Header}

theorem addFilled_header (x : Filled α) (address : Nat) {d : ArrayId} (older : d < st.count) :
    (st.addFilled x address).header d = st.header d :=
  update_of_ne (Nat.ne_of_lt older) _ _

theorem addFilled_new (x : Filled α) (address : Nat) :
    (st.addFilled x address).header st.count = { x.header with self := address } :=
  update_self ..

/-- The new array is like the one that was made, under any header with the same elements. -/
theorem addFilled_alike (x : Filled α) (address : Nat) {st' : State α} {d : ArrayId}
    (memory : st'.memory = (st.addFilled x address).memory)
    (moved : { st'.header d with displaced := none } =
      { (st.addFilled x address).header st.count with displaced := none }) :
    Alike (st'.filled d) x := by
  rw [addFilled_new] at moved
  have header : st'.header d =
      { x.header with self := address, displaced := (st'.header d).displaced } := by
    generalize st'.header d = h at moved ⊢
    cases h
    simpa only [Header.mk.injEq] using moved
  refine ⟨⟨_, _, header⟩, fun k below => ?_⟩
  have cell : (st'.header d).cell k = { x.header with self := address : Header }.cell k := by
    rw [header]
    rfl
  rw [State.filled]
  dsimp only
  rw [cell, memory]
  exact State.addFilled_memory x address below

theorem adjustArray_end {sequence : α → Option (List α)} {memory : Nat → α} {address : Nat}
    {initial : Option α} {made x : Filled α} (inside : array < st.count)
    (known : ∀ other ∈ st.back array, other < st.count)
    (make : makeArray sequence memory (st.header array).elttype dims.asList true
      (st.header array).fillPointer (initial.elim .unsupplied .element) = some made)
    (copy : copyArrayContents made (st.filled array) = some x)
    (replaced : ¬((st.header array).type ≠ x.header.type ∨ (st.header array).type = .array ∧
      (st.header array).dims.length ≠ x.header.dims.length)) :
    (∀ st' d, st.adjustArray sequence memory address array dims initial = some (st', d) →
      Alike (st'.filled d) x) ∧
    ((∃ result, st.adjustArray sequence memory address array dims initial = some result) ↔
      ((st.header array).adjustable = true →
        State.RoomInTurn st.count (st.add { x.header with self := address })
          (st.back array))) := by
  rw [State.adjustArray, make, bind_eq_bind, bind_some, copy, bind_some]
  dsimp only
  rw [if_neg replaced]
  have older := @addFilled_header α st x address array inside
  have back : (st.addFilled x address).back array = st.back array := by
    rw [State.back, older]
    rfl
  by_cases fixed : (st.header array).adjustable = false
  · rw [if_pos fixed]
    refine ⟨fun st' d run => ?_, iff_of_true ⟨_, rfl⟩ fun no => ?_⟩
    · cases run
      exact addFilled_alike x address rfl rfl
    · rw [fixed] at no
      cases no
  · have adjustable := Bool.eq_true_of_not_eq_false fixed
    have ends := @State.replaceLoop_ends_iff α (st.addFilled x address) st.count (st.back array)
    rw [if_neg fixed, back]
    constructor
    · intro st' d run
      split at run
      · rename_i ended
        cases run
        have able : (st.addFilled x address).replaceable array st.count = true := by
          simp only [State.replaceable, older, addFilled_new, decide_eq_true_eq]
          exact ⟨not_not.mp (not_or.mp replaced).1, (not_or.mp replaced).2, adjustable⟩
        obtain ⟨memory', -, moved⟩ := @State.replaceLoop_moved α (st.addFilled x address)
          st.count (st.back array) fun member => Nat.lt_irrefl _ (known _ member)
        rw [State.replaceArray, if_pos able, back]
        cases loop : (st.addFilled x address).replaceLoop st.count (st.back array) with
        | mk looped ended' =>
          rw [loop] at memory' moved ended
          dsimp only at memory' moved ended
          subst ended
          refine addFilled_alike x address memory' ?_
          simp only [State.setHeader, update_self]
          exact moved
      · cases run
    · constructor
      · rintro ⟨result, run⟩ -
        split at run
        · rename_i ended
          have room := ends.mp ended
          exact @State.RoomInTurn.memory α _ _ _ st.memory room
        · cases run
      · intro room
        exact ⟨_, if_pos (ends.mpr (State.RoomInTurn.memory (room adjustable)))⟩

/-- Arrays are adjusted as they should when the new size is not cut off and the arrays that are
displaced to them have room in the new one. -/
theorem adjustArray_small (sequence : α → Option (List α)) (memory : Nat → α) (address : Nat)
    (inside : array < st.count) (known : ∀ other ∈ st.back array, other < st.count)
    (sized : (st.header array).Sized) (initial : Option α)
    (rank : dims.sizes.length = (st.header array).arrayDimensions.length)
    (made : makePureArray (st.header array).elttype true (st.header array).fillPointer dims.asList =
      some header)
    (small : dims.total ≤ atotLim)
    (room : (st.header array).adjustable = true →
      State.RoomInTurn st.count (st.add { header with self := address }) (st.back array)) :
    ∃ st' d, st.adjustArray sequence memory address array dims initial = some (st', d) ∧
      (st'.header d).arrayDimensions = dims.sizes ∧
        Kept (st.filled array) (st'.filled d) initial := by
  have ofMade := makePureArray_made made
  rw [dims.total_eq, ← dims.asList_sizes, ← dims.asList.total_eq] at small
  have sized' := ofMade.sized small
  rw [← dims.asList_sizes, ← ofMade.dimensions] at rank ⊢
  obtain ⟨x, run, same, filled⟩ :
    ∃ x, makeArray sequence memory (st.header array).elttype dims.asList true
      (st.header array).fillPointer (initial.elim .unsupplied .element) = some x ∧
      x.header = header ∧ ∀ k elt, k < x.header.dim → initial = some elt → x.cells k = elt := by
    rw [makeArray, made]
    cases initial with
    | none => exact ⟨_, rfl, rfl, fun _ _ _ never => by cases never⟩
    | some elt =>
      refine ⟨_, rfl, rfl, fun k elt' below same => ?_⟩
      cases same
      exact if_pos ⟨Nat.zero_le k, below⟩
  subst same
  obtain ⟨x', copy, header, copied, frame⟩ :=
    @copyArrayContents_copied α x (st.filled array) sized' sized rank
  have replaced : ¬((st.header array).type ≠ x'.header.type ∨ (st.header array).type = .array ∧
      (st.header array).dims.length ≠ x'.header.dims.length) := by
    have type := ofMade.type
    rw [header]
    rw [← ofMade.dimensions, rank] at type
    rcases sized.type with ⟨isArray, many, -⟩ | vector
    · have dims' : (st.header array).arrayDimensions = (st.header array).dims := if_pos isArray
      rw [dims', if_neg many] at type
      have dims : x.header.arrayDimensions = x.header.dims := if_pos type
      rw [dims, dims'] at rank
      rintro (other | other)
      · exact other (isArray.trans type.symm)
      · exact other.2 rank.symm
    · have notArray : (st.header array).type ≠ .array := vector ▸ vectorType_ne _
      rw [Header.arrayDimensions, if_neg notArray, if_pos length_singleton] at type
      rintro (other | other)
      · exact other (vector.trans type.symm)
      · exact notArray other.1
  obtain ⟨alike, ends⟩ :=
    @adjustArray_end α st array dims sequence memory address initial _ _ inside known run copy
      replaced
  obtain ⟨⟨st', d⟩, adjusted⟩ := ends.mpr (header ▸ room)
  have alike := alike st' d adjusted
  have kept : Kept (st.filled array) x' initial := by
    rw [← header] at sized' copied frame
    have fillp := ofMade.fillPointer (st.header array).fillp
    refine ⟨?_, fun has => ?_, fun is within within' => ⟨_, aref_within sized within', ?_⟩,
      fun is within others elt same => ?_⟩
    · rw [header, ofMade.hasFillPointer, Header.fillPointer, State.filled]
      cases (st.header array).hasFillPointer <;> rfl
    · rw [header, fillp (if_pos has), Int.toNat_natCast]
      rfl
    · rw [aref_within sized' within]
      have element := copied is within within'
      rw [Nat.zero_add, Nat.zero_add] at element
      rw [element]
    · rw [aref_within sized' within]
      have below := sized'.product ▸ offset_lt within
      rw [frame _ fun is' within1 within2 equal => ?_, filled _ elt (header ▸ below) same]
      rw [Nat.zero_add] at equal
      exact others (offset_injective within within1 equal ▸ within2)
  refine ⟨st', d, adjusted, ?_, kept.alike alike⟩
  obtain ⟨self, displaced, same⟩ := alike.header
  calc
    (st'.header d).arrayDimensions = x'.header.arrayDimensions := by
      rw [State.filled] at same
      dsimp only at same
      rw [same]
      rfl
    _ = x.header.arrayDimensions := by rw [header]

theorem adjustArray_header {sequence : α → Option (List α)} {memory : Nat → α} {address : Nat}
    {initial : Option α} {st' : State α} {d : ArrayId} (inside : array < st.count)
    (known : ∀ other ∈ st.back array, other < st.count)
    (made : makePureArray (st.header array).elttype true (st.header array).fillPointer dims.asList =
      some header)
    (run : st.adjustArray sequence memory address array dims initial = some (st', d)) :
    (∃ self displaced, st'.header d = { header with self := self, displaced := displaced }) ∧
      ((st.header array).adjustable = true →
        State.RoomInTurn st.count (st.add { header with self := address }) (st.back array)) := by
  obtain ⟨x, make, rest⟩ := bind_eq_some_iff.mp run
  obtain ⟨x', copy, rest⟩ := bind_eq_some_iff.mp rest
  have headers : x'.header = header := by
    refine (doCopy_header copy).trans ?_
    rw [makeArray, made] at make
    cases initial <;> cases make <;> rfl
  have replaced : ¬((st.header array).type ≠ x'.header.type ∨ (st.header array).type = .array ∧
      (st.header array).dims.length ≠ x'.header.dims.length) := by
    intro cannot
    dsimp only at rest
    rw [if_pos cannot] at rest
    cases rest
  obtain ⟨alike, ends⟩ :=
    @adjustArray_end α st array dims sequence memory address initial x x' inside known make copy
      replaced
  rw [headers] at ends
  obtain ⟨self, displaced, same⟩ := (alike st' d run).header
  rw [headers] at same
  exact ⟨⟨self, displaced, same⟩, ends.mp ⟨_, run⟩⟩

end Adjusted

/-- The dimensions of adjust-array and of nested contents are right for all elements, if and only if
their product is within the limit and the arrays that are displaced to the array have room. -/
theorem adjustArray_contents {st : State α} {array : ArrayId} (address : Nat)
    (inside : array < st.count) (known : ∀ other ∈ st.back array, other < st.count)
    (sized : (st.header array).Sized) {dims : Dimensions} {header : Header}
    (rank : dims.sizes.length = (st.header array).arrayDimensions.length)
    (made : makePureArray (st.header array).elttype true (st.header array).fillPointer dims.asList =
      some header) :
    ((∀ sequence memory initial, ∃ st' d,
        st.adjustArray sequence memory address array dims initial = some (st', d) ∧
        (st'.header d).arrayDimensions = dims.sizes ∧
        Kept (st.filled array) (st'.filled d) initial) ∧
      ∀ etype adjustable fillp header', makePureArray etype adjustable fillp dims = some header' →
        ∀ (sequence : α → Option (List α)) memory contents,
          (Matches sequence dims.sizes contents →
            ∃ x,
              makeArray sequence memory etype dims adjustable fillp (.contents contents) = some x ∧
              x.header.arrayDimensions = dims.sizes ∧ ∀ is, Within dims.sizes is →
                ∃ elt, nested sequence contents is = some elt ∧
                  x.aref (is.map Nat.cast) = some elt) ∧
          (¬Matches sequence dims.sizes contents →
            makeArray sequence memory etype dims adjustable fillp (.contents contents) = none)) ↔
      dims.total ≤ atotLim ∧ ((st.header array).adjustable = true →
        State.RoomInTurn st.count (st.add { header with self := address }) (st.back array)) := by
  have ofMade := makePureArray_made made
  have sizes := ofMade.dimensions.trans dims.asList_sizes
  constructor
  · rintro ⟨adjusted, -⟩
    obtain ⟨st', d, run, dimensions, kept⟩ :=
      adjusted (fun _ => none) (st.filled array).cells (some ((st.filled array).cells 0))
    obtain ⟨⟨self, displaced, same⟩, room⟩ := adjustArray_header inside known made run
    refine ⟨?_, room⟩
    by_contra large
    have limit : atotLim = 2 ^ 61 - 1 := rfl
    have small := ofMade.small
    -- the element whose index is the size
    have beyond : header.dim < (st'.header d).arrayDimensions.prod := by
      rw [dimensions, ← dims.total_eq]
      omega
    obtain ⟨is, within, index⟩ := exists_offset beyond
    have dim : (st'.header d).dim = header.dim := by rw [same]
    have nothing : (st'.filled d).aref (is.map Nat.cast) = none := by
      rw [Filled.aref, State.filled, rowMajor_within (dim ▸ small) within, index, bind_some,
        Nat.mod_eq_of_lt (by omega), dim, if_neg (Nat.lt_irrefl _)]
    by_cases within' : Within (st.filled array).header.arrayDimensions is
    · obtain ⟨elt, -, found⟩ := kept.old is within within'
      rw [nothing] at found
      cases found
    · have found := kept.new is within within' _ rfl
      rw [nothing] at found
      cases found
  · rintro ⟨small, room⟩
    refine ⟨fun sequence memory initial =>
      adjustArray_small sequence memory address inside known sized initial rank made small room, ?_⟩
    intro etype adjustable fillp header' made' sequence memory contents
    obtain ⟨good, bad⟩ := makeArray_contents sequence memory contents made' small
    refine ⟨fun fits => ?_, bad⟩
    obtain ⟨x, run, same, found⟩ := good fits
    exact ⟨x, run, same ▸ (makePureArray_made made').dimensions, found⟩

/-- The array #2A((1 2) (3 4)), and a vector of two that is displaced to it from its third element
on. -/
def oneToFour : State Nat where
  header := fun d =>
    if d = 0 then
      { Header.blank with
        type := .array, adjustable := true, displaced := some 0, dim := 4, dims := [2, 2] }
    else { Header.blank with displaced := some 1, dim := 2, self := 16 }
  count := 2
  cons := fun c => if c = 0 then ⟨none, [1]⟩ else ⟨some 0, []⟩
  conses := 2
  memory := fun cell => cell.address / 8 + 1

theorem oneToFour_sized : (oneToFour.header 0).Sized :=
  ⟨by decide, by decide, .inl ⟨rfl, by decide, rfl⟩⟩

theorem adjustArray_contents_oneToFour :
    (∀ sequence memory initial, ∃ st' d,
      oneToFour.adjustArray sequence memory 32 0 (.list [3, 2]) initial = some (st', d) ∧
        (st'.header d).arrayDimensions = [3, 2] ∧
        Kept (oneToFour.filled 0) (st'.filled d) initial) ∧
    ∀ etype adjustable fillp header',
      makePureArray etype adjustable fillp (.list [3, 2]) = some header' →
        ∀ (sequence : Nat → Option (List Nat)) memory contents,
          (Matches sequence [3, 2] contents →
            ∃ x,
              makeArray sequence memory etype (.list [3, 2]) adjustable fillp (.contents contents) =
                some x ∧
              x.header.arrayDimensions = [3, 2] ∧ ∀ is, Within [3, 2] is →
                ∃ elt, nested sequence contents is = some elt ∧
                  x.aref (is.map Nat.cast) = some elt) ∧
          (¬Matches sequence [3, 2] contents →
            makeArray sequence memory etype (.list [3, 2]) adjustable fillp (.contents contents) =
              none) :=
  (@adjustArray_contents Nat oneToFour 0 32 (by decide) (by decide) oneToFour_sized (.list [3, 2])
    { Header.blank with type := .array, adjustable := true, dim := 6, dims := [3, 2] } rfl
    rfl).mpr ⟨by decide, fun _ => ⟨by decide, fun _ _ => trivial⟩⟩

/-- Adjusted to two dimensions whose product is the number of words, the array has no elements, and
the copy of the second row is stored far behind it. -/
theorem adjustArray_cut_off :
    ¬ ∀ {st : State Nat} {array : ArrayId}, array < st.count →
      (∀ other ∈ st.back array, other < st.count) → (st.header array).Sized →
      ∀ {dims : Dimensions} {header : Header},
        dims.sizes.length = (st.header array).arrayDimensions.length →
        makePureArray (st.header array).elttype true (st.header array).fillPointer dims.asList =
          some header →
        ∀ sequence memory address initial, ∃ st' d,
          st.adjustArray sequence memory address array dims initial = some (st', d) ∧
            Kept (st.filled array) (st'.filled d) initial := by
  intro all
  have made : makePureArray (oneToFour.header 0).elttype true (oneToFour.header 0).fillPointer
      (Dimensions.list [2 ^ 32, 2 ^ 32]).asList =
        some { Header.blank with
          type := .array, adjustable := true, dims := [2 ^ 32, 2 ^ 32] } := by
    decide +kernel
  obtain ⟨st', d, run, -⟩ :=
    all (by decide : 0 < oneToFour.count) (by decide) oneToFour_sized rfl made (fun _ => none)
      (fun _ => 0) 0 none
  have make : makeArray (fun _ => none) (fun _ => 0) (oneToFour.header 0).elttype
      (Dimensions.list [2 ^ 32, 2 ^ 32]).asList true (oneToFour.header 0).fillPointer .unsupplied =
        some ⟨{ Header.blank with
          type := .array, adjustable := true, dims := [2 ^ 32, 2 ^ 32] }, fun _ => 0⟩ := by
    rw [makeArray, made]
  rw [State.adjustArray, elim_none, make] at run
  cases run

end Ecl.Arrays
