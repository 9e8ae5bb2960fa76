import Ecl.Arrays.Displace

/- Displaced arrays share the cells of the arrays they are displaced to. -/
namespace Ecl.Arrays

open Function Nat

/-- The distance of two elements, in bits or in bytes. -/
def Elttype.unit (etype : Elttype) : Nat := if etype = .bit then 1 else etype.size

theorem Elttype.unit_pos (etype : Elttype) : 0 < etype.unit := by
  cases etype <;> decide

namespace Header

/-- Where the elements begin, in bits or in bytes. -/
def start (header : Header) : Nat :=
  if header.elttype = .bit then charBit * header.self + header.offset else header.self

/-- What decides where the elements are. -/
def extent (header : Header) : Elttype × Nat × Nat := (header.elttype, header.dim, header.start)

/-- The elements of an array are among those of another. -/
def Fits (header base : Header) : Prop :=
  header.elttype = base.elttype ∧
    ∃ o, o + header.dim ≤ base.dim ∧ header.start = base.start + o * base.elttype.unit

theorem Fits.of_extent {header header' base base' : Header} (fits : header.Fits base)
    (same : header'.extent = header.extent) (same' : base'.extent = base.extent) :
    header'.Fits base' := by
  simp only [extent, Prod.mk.injEq] at same same'
  obtain ⟨etype, dim, start⟩ := same
  obtain ⟨etype', dim', start'⟩ := same'
  obtain ⟨equal, o, inside, begins⟩ := fits
  refine ⟨by rw [etype, etype', equal], o, ?_, ?_⟩
  · rw [dim, dim']
    exact inside
  · rw [start, start', etype']
    exact begins

theorem Fits.refl (header : Header) : header.Fits header :=
  ⟨rfl, 0, by omega, by omega⟩

theorem cell_eq (header : Header) (i : Nat) :
    header.cell i =
      if header.elttype = .bit then
        ⟨(header.start + i) / charBit, (header.start + i) % charBit⟩
      else ⟨header.start + i * header.elttype.unit, 0⟩ := by
  unfold cell start Elttype.unit
  split
  · simp only [Cell.mk.injEq, charBit]
    omega
  · rfl

theorem Fits.cell {header base : Header} {o : Nat} (etype : header.elttype = base.elttype)
    (begins : header.start = base.start + o * base.elttype.unit) (i : Nat) :
    header.cell i = base.cell (i + o) := by
  rw [cell_eq, cell_eq, begins, etype]
  split
  · rename_i bit
    have one : base.elttype.unit = 1 := by rw [bit]; rfl
    rw [one, mul_one, add_assoc, add_comm o i]
  · rw [add_mul, add_assoc, add_comm (o * base.elttype.unit)]

theorem point_extent {header base : Header} (etype : base.elttype = header.elttype) (j : Nat) :
    (header.point base j).extent =
      (header.elttype, header.dim, base.start + j * base.elttype.unit) := by
  unfold point
  by_cases bit : header.elttype = .bit
  · rw [if_pos bit]
    simp only [extent, start, bit, etype, if_true, Elttype.unit, charBit, Prod.mk.injEq, true_and]
    omega
  · rw [if_neg bit]
    simp only [extent, start, etype, if_neg bit, Elttype.unit]

theorem point_displaced (header base : Header) (j : Nat) :
    (header.point base j).displaced = header.displaced := by
  unfold point
  split <;> rfl

end Header

namespace State

variable {α : Type} {st st' : State α}

theorem displacement_eq {d t : ArrayId} {o : Nat} (target : st.target d = some t)
    (etype : (st.header d).elttype = (st.header t).elttype)
    (begins : (st.header d).start = (st.header t).start + o * (st.header t).elttype.unit) :
    st.displacement d = (some t, (o : Int)) := by
  simp only [displacement, target]
  simp only [Header.start, etype] at begins
  by_cases bit : (st.header t).elttype = .bit
  · rw [if_pos bit, if_pos bit, bit] at begins
    rw [if_pos (etype.trans bit)]
    have one : Elttype.bit.unit = 1 := rfl
    simp only [one, charBit, Prod.mk.injEq, true_and] at begins ⊢
    omega
  · rw [if_neg bit, if_neg bit] at begins
    rw [if_neg (by rw [etype]; exact bit), etype]
    have positive := Elttype.unit_pos (st.header t).elttype
    have unit : (st.header t).elttype.unit = (st.header t).elttype.size := by
      simp only [Elttype.unit, if_neg bit]
    rw [unit] at begins positive
    rw [begins]
    simp only [Prod.mk.injEq, true_and]
    have cancel :
      ((st.header t).self + o * (st.header t).elttype.size : Nat) - ((st.header t).self : Int) =
        (o : Int) * ((st.header t).elttype.size : Int) := by
      push_cast
      omega
    rw [cancel]
    exact Int.mul_ediv_cancel _ (by omega)

/-- Lists and arrays that are referred to exist. -/
structure Sound (st : State α) : Prop where
  conses : ∀ d c, (st.header d).displaced = some c → c < st.conses
  cars : ∀ c t, (st.cons c).car = some t → t < st.count

/-- Every array fits into the one that it is displaced to. -/
def Shares (st : State α) : Prop :=
  ∀ d t, st.target d = some t → (st.header d).Fits (st.header t)

/-- A change that moves no elements and keeps the other arrays displaced as they are. -/
structure Keeps (st st' : State α) (d : ArrayId) : Prop where
  count : st'.count = st.count
  extent : ∀ x, (st'.header x).extent = (st.header x).extent
  target : ∀ x, x ≠ d → st'.target x = st.target x
  sound : st'.Sound

theorem newList_keeps (sound : st.Sound) (d : ArrayId) {car : Option ArrayId}
    (exists' : ∀ t, car = some t → t < st.count) : Keeps st (st.newList d car) d where
  count := rfl
  extent x := by
    simp only [newList]
    by_cases same : x = d
    · subst same
      rw [update_self]
      rfl
    · rw [update_of_ne same]
  target x differ := by
    simp only [target, newList, update_of_ne differ]
    cases list : (st.header x).displaced with
    | none => rfl
    | some c =>
      have old := sound.conses x c list
      simp only
      rw [update_of_ne (Nat.ne_of_lt old)]
  sound := by
    constructor
    · intro x c list
      simp only [newList] at list ⊢
      by_cases same : x = d
      · subst same
        rw [update_self] at list
        rw [← Option.some.inj list]
        exact lt_succ_self st.conses
      · rw [update_of_ne same] at list
        exact lt_succ_of_lt (sound.conses x c list)
    · intro c t car_eq
      simp only [newList] at car_eq ⊢
      by_cases same : c = st.conses
      · subst same
        rw [update_self] at car_eq
        exact exists' t car_eq
      · rw [update_of_ne same] at car_eq
        exact sound.cars c t car_eq

theorem newList_target (d : ArrayId) (car : Option ArrayId) :
    (st.newList d car).target d = car := by
  simp only [target, newList, update_self]

theorem pushBack_header (base origin x : ArrayId) :
    (st.pushBack base origin).header x = st.header x := by
  unfold pushBack
  split <;> rfl

theorem pushBack_count (base origin : ArrayId) : (st.pushBack base origin).count = st.count := by
  unfold pushBack
  split <;> rfl

theorem pushBack_target (base origin x : ArrayId) :
    (st.pushBack base origin).target x = st.target x := by
  unfold pushBack
  split
  · rfl
  · rename_i c list
    simp only [target]
    cases (st.header x).displaced with
    | none => rfl
    | some c' =>
      simp only
      by_cases same : c' = c
      · subst same
        rw [update_self]
      · rw [update_of_ne same]

theorem pushBack_sound (sound : st.Sound) (base origin : ArrayId) :
    (st.pushBack base origin).Sound := by
  unfold pushBack
  split
  · exact sound
  · rename_i c list
    constructor
    · exact sound.conses
    · intro c' t car_eq
      simp only at car_eq ⊢
      by_cases same : c' = c
      · subst same
        rw [update_self] at car_eq
        exact sound.cars c' t car_eq
      · rw [update_of_ne same] at car_eq
        exact sound.cars c' t car_eq

/-- What displace does: the array fits into the new one it is displaced to, and the others stay
as they are. -/
structure Displacing (st st' : State α) (origin base : ArrayId) : Prop where
  count : st'.count = st.count
  fits : (st'.header origin).Fits (st'.header base)
  target : st'.target origin = some base
  others : ∀ x, x ≠ origin → st'.target x = st.target x
  extent : ∀ x, x ≠ origin → (st'.header x).extent = (st.header x).extent
  self : origin = base → (st'.header origin).extent = (st.header origin).extent
  sound : st'.Sound

theorem setHeader_target (origin : ArrayId) {header : Header}
    (same : header.displaced = (st.header origin).displaced) (x : ArrayId) :
    (st.setHeader origin header).target x = st.target x := by
  simp only [target, setHeader]
  by_cases self : x = origin
  · subst self
    rw [update_self, same]
  · rw [update_of_ne self]

theorem setHeader_sound (sound : st.Sound) (origin : ArrayId) {header : Header}
    (old : ∀ c, header.displaced = some c → c < st.conses) :
    (st.setHeader origin header).Sound := by
  constructor
  · intro x c list
    simp only [setHeader] at list ⊢
    by_cases self : x = origin
    · subst self
      rw [update_self] at list
      exact old c list
    · rw [update_of_ne self] at list
      exact sound.conses x c list
  · exact sound.cars

theorem link_keeps (sound : st.Sound) {origin base : ArrayId} (inside : base < st.count) :
    Keeps st (st.link origin base) origin ∧ (st.link origin base).target origin = some base := by
  have first : Keeps st (st.newList origin (some base)) origin := by
    apply newList_keeps sound
    intro t same
    cases same
    exact inside
  have target : (st.newList origin (some base)).target origin = some base :=
    newList_target origin (some base)
  unfold link
  simp only
  by_cases fresh : ((st.newList origin (some base)).header base).displaced = none
  · rw [if_pos fresh]
    have differ : origin ≠ base := by
      rintro rfl
      simp only [newList, update_self] at fresh
      cases fresh
    have second : Keeps (st.newList origin (some base))
        ((st.newList origin (some base)).newList base none) base := by
      apply newList_keeps first.sound
      intro t same
      cases same
    refine ⟨⟨?_, ?_, ?_, pushBack_sound second.sound base origin⟩, ?_⟩
    · rw [pushBack_count, second.count, first.count]
    · intro x
      rw [pushBack_header, second.extent, first.extent]
    · intro x other
      rw [pushBack_target]
      by_cases self : x = base
      · subst self
        rw [newList_target, ← first.target x other]
        simp only [State.target, fresh]
      · rw [second.target x self, first.target x other]
    · rw [pushBack_target, second.target origin differ, target]
  · rw [if_neg fresh]
    refine ⟨⟨?_, ?_, ?_, pushBack_sound first.sound base origin⟩, ?_⟩
    · rw [pushBack_count, first.count]
    · intro x
      rw [pushBack_header, first.extent]
    · intro x other
      rw [pushBack_target, first.target x other]
    · rw [pushBack_target, target]

theorem displace_law (sound : st.Sound) {origin base : ArrayId} {offset : Int}
    (inside : base < st.count) (run : st.displace origin base offset = some st') :
    Displacing st st' origin base := by
  unfold displace at run
  simp only at run
  split at run
  · cases run
  rename_i etype
  split at run
  · cases run
  rename_i room
  split at run
  · cases run
  rename_i range
  cases run
  rw [Decidable.not_not] at etype
  obtain ⟨keeps, target⟩ : Keeps st (st.link origin base) origin ∧
      (st.link origin base).target origin = some base := link_keeps sound inside
  obtain ⟨etypeOrigin, dimOrigin, _⟩ :
      ((st.link origin base).header origin).elttype = (st.header origin).elttype ∧
      ((st.link origin base).header origin).dim = (st.header origin).dim ∧
      ((st.link origin base).header origin).start = (st.header origin).start := by
    simpa only [Header.extent, Prod.mk.injEq] using keeps.extent origin
  obtain ⟨etypeBase, dimBase, _⟩ :
      ((st.link origin base).header base).elttype = (st.header base).elttype ∧
      ((st.link origin base).header base).dim = (st.header base).dim ∧
      ((st.link origin base).header base).start = (st.header base).start := by
    simpa only [Header.extent, Prod.mk.injEq] using keeps.extent base
  have etype' : ((st.link origin base).header base).elttype =
      ((st.link origin base).header origin).elttype := by
    rw [etypeBase, etypeOrigin, etype]
  have extent := Header.point_extent etype' offset.toNat
  have displaced := Header.point_displaced ((st.link origin base).header origin)
    ((st.link origin base).header base) offset.toNat
  constructor
  · exact keeps.count
  · by_cases self : base = origin
    · subst self
      exact Header.Fits.refl _
    · simp only [setHeader, update_self, update_of_ne self]
      simp only [Header.extent, Prod.mk.injEq] at extent
      obtain ⟨pointEtype, pointDim, pointStart⟩ := extent
      refine ⟨pointEtype.trans etype'.symm, offset.toNat, ?_, pointStart⟩
      rw [pointDim, dimOrigin, dimBase]
      omega
  · rw [setHeader_target origin displaced]
    exact target
  · intro x other
    rw [setHeader_target origin displaced]
    exact keeps.target x other
  · intro x other
    simp only [setHeader, update_of_ne other]
    exact keeps.extent x
  · rintro rfl
    simp only [setHeader, update_self]
    have zero : offset.toNat = 0 := by omega
    rw [extent, zero, zero_mul, add_zero]
    exact keeps.extent origin
  · apply setHeader_sound keeps.sound
    intro c list
    rw [displaced] at list
    exact keeps.sound.conses origin c list

end State

end Ecl.Arrays
