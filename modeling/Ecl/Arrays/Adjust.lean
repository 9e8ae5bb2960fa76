import Ecl.Arrays.Storage

/- Displacement over whole runs of make-array, stores and si_replace_array. -/
namespace Ecl.Arrays

open Function List Option

variable {α : Type}

/-- When an array is replaced, the arrays displaced to it are all in its list, and no array is
displaced to one of the list, which will move. -/
def Direct (st : State α) : Step α → Prop
  | .replace olda newa =>
    st.replaceable olda newa = true →
      (∀ d, st.target d = some olda → d ∈ st.back olda) ∧
      ∀ d, ∀ other ∈ st.back olda, st.target d = some other → d = other ∨ other = newa
  | _ => True

namespace State

variable {st st' : State α}

theorem Displacing.shares {origin base : ArrayId} (displacing : Displacing st st' origin base)
    (shares : st.Shares)
    (direct : ∀ d, st.target d = some origin → d = origin ∨ origin = base) : st'.Shares := by
  intro d t target
  by_cases self : d = origin
  · subst self
    rw [displacing.target] at target
    cases target
    exact displacing.fits
  · rw [displacing.others d self] at target
    apply (shares d t target).of_extent (displacing.extent d self)
    by_cases moved : t = origin
    · subst moved
      exact displacing.self ((direct d target).resolve_left self)
    · exact displacing.extent t moved

/-- What the loop over the list has done, at its end or at an error. -/
structure Looped (st st' : State α) (newa : ArrayId) (list : List ArrayId) (ended : Bool) :
    Prop where
  sound : st'.Sound
  shares : st'.Shares
  count : st'.count = st.count
  others : ∀ d, d ∉ list → st'.target d = st.target d
  moved : ended = true → ∀ d ∈ list, st'.target d = some newa

theorem replaceLoop_law {newa : ArrayId} {list : List ArrayId} (sound : st.Sound)
    (shares : st.Shares) (inside : newa < st.count)
    (direct : ∀ d, ∀ other ∈ list, st.target d = some other → d = other ∨ other = newa) :
    Looped st (st.replaceLoop newa list).1 newa list (st.replaceLoop newa list).2 := by
  induction list generalizing st with
  | nil =>
    refine ⟨sound, shares, rfl, fun _ _ => rfl, ?_⟩
    intro _ d member
    cases member
  | cons other rest ih =>
    unfold replaceLoop
    cases run : st.displace other newa (st.displacement other).2 with
    | none =>
      refine ⟨sound, shares, rfl, fun _ _ => rfl, ?_⟩
      intro ended
      cases ended
    | some middle =>
      have displacing := displace_law sound inside run
      have shares' := displacing.shares shares (fun d => direct d other mem_cons_self)
      have looped := ih displacing.sound shares' (by rw [displacing.count]; exact inside) (by
        intro d next member target
        by_cases self : d = other
        · subst self
          rw [displacing.target] at target
          exact .inr (some.inj target).symm
        · rw [displacing.others d self] at target
          exact direct d next (mem_cons_of_mem other member) target)
      refine ⟨looped.sound, looped.shares, looped.count.trans displacing.count, ?_, ?_⟩
      · intro d absent
        rw [mem_cons, not_or] at absent
        rw [looped.others d absent.2, displacing.others d absent.1]
      · intro ended d member
        by_cases later : d ∈ rest
        · exact looped.moved ended d later
        · have self : d = other := (mem_cons.mp member).resolve_right later
          subst self
          simp only
          rw [looped.others d later]
          exact displacing.target

theorem setHeader_shares {olda newa : ArrayId} (shares : st.Shares) (differ : newa ≠ olda)
    (left : ∀ d, st.target d ≠ some olda) :
    (st.setHeader olda (st.header newa)).Shares := by
  have target_of : ∀ d, d ≠ olda → (st.setHeader olda (st.header newa)).target d = st.target d := by
    intro d other
    simp only [target, setHeader, update_of_ne other]
  have target_olda : (st.setHeader olda (st.header newa)).target olda = st.target newa := by
    simp only [target, setHeader, update_self]
  have header_of : ∀ d, d ≠ olda → (st.setHeader olda (st.header newa)).header d = st.header d := by
    intro d other
    simp only [setHeader, update_of_ne other]
  intro d t target
  by_cases self : d = olda
  · subst self
    rw [target_olda] at target
    rw [header_of t (by rintro rfl; exact left newa target)]
    simp only [setHeader, update_self]
    exact shares newa t target
  · rw [target_of d self] at target
    rw [header_of d self, header_of t (by rintro rfl; exact left d target)]
    exact shares d t target

theorem replaceArray_law {olda newa : ArrayId} (sound : st.Sound) (shares : st.Shares)
    (inside : newa < st.count) (direct : Direct st (.replace olda newa)) :
    (st.replaceArray olda newa).Sound ∧ (st.replaceArray olda newa).Shares := by
  unfold replaceArray
  split
  · rename_i able
    obtain ⟨complete, flat⟩ := direct able
    have looped := replaceLoop_law sound shares inside flat
    cases run : st.replaceLoop newa (st.back olda) with
    | mk st' ended =>
      rw [run] at looped
      simp only at looped
      cases ended with
      | false => exact ⟨looped.sound, looped.shares⟩
      | true =>
        have kept : (st'.setHeader olda (st'.header newa)).Sound := by
          apply setHeader_sound looped.sound
          exact looped.sound.conses newa
        refine ⟨kept, ?_⟩
        by_cases same : newa = olda
        · subst same
          simp only [setHeader, update_eq_self]
          exact looped.shares
        · apply setHeader_shares looped.shares same
          intro d target
          by_cases member : d ∈ st.back olda
          · rw [looped.moved rfl d member] at target
            exact same (some.inj target)
          · rw [looped.others d member] at target
            exact member (complete d target)
  · exact ⟨sound, shares⟩

end State

theorem makeVector_displaced {etype : Elttype} {dim : Int} {adjustable : Bool}
    {fillp : FillPointer} {header : Header}
    (made : makeVector etype dim adjustable fillp = some header) : header.displaced = none := by
  unfold makeVector at made
  cases inRange : dimension dim with
  | none =>
    rw [inRange] at made
    cases made
  | some d =>
    rw [inRange] at made
    cases fillp with
    | none | full =>
      cases made
      rfl
    | «at» f =>
      simp only at made
      split at made
      · cases made
        rfl
      · cases made

theorem makePureArray_displaced {etype : Elttype} {dims : Dimensions} {adjustable : Bool}
    {fillp : FillPointer} {header : Header}
    (made : makePureArray etype adjustable fillp dims = some header) : header.displaced = none := by
  cases dims with
  | fixnum d => exact makeVector_displaced made
  | list ds =>
    simp only [makePureArray] at made
    split at made
    · cases made
    split at made
    · exact makeVector_displaced made
    split at made
    · cases made
    obtain ⟨⟨js, s⟩, _, same⟩ := map_eq_some_iff.mp made
    cases same
    rfl

namespace State

variable {st : State α}

theorem target_lt (sound : st.Sound) {d t : ArrayId} (target : st.target d = some t) :
    t < st.count := by
  simp only [State.target] at target
  split at target
  · cases target
  · exact sound.cars _ t target

theorem add_target_of_ne (header : Header) {d : ArrayId} (old : d ≠ st.count) :
    (st.add header).target d = st.target d := by
  simp only [target, add, setHeader, update_of_ne old]

theorem add_law (sound : st.Sound) (shares : st.Shares) {header : Header}
    (fresh : header.displaced = none) : (st.add header).Sound ∧ (st.add header).Shares := by
  have target_new : (st.add header).target st.count = none := by
    simp only [target, add, setHeader, update_self, fresh]
  constructor
  · have kept : (st.setHeader st.count header).Sound := by
      apply setHeader_sound sound
      intro c list
      rw [fresh] at list
      cases list
    exact ⟨kept.conses, fun c t car => Nat.lt_succ_of_lt (sound.cars c t car)⟩
  · intro d t target
    by_cases self : d = st.count
    · rw [self, target_new] at target
      cases target
    · rw [add_target_of_ne header self] at target
      have old := target_lt sound target
      simp only [add, setHeader, update_of_ne self, update_of_ne (Nat.ne_of_lt old)]
      exact shares d t target

theorem make_law (sound : st.Sound) (shares : st.Shares) {header : Header}
    (fresh : header.displaced = none) (displaced : Option (ArrayId × Int)) (address : Nat) :
    (st.make header displaced address).Sound ∧ (st.make header displaced address).Shares := by
  unfold make
  cases displaced with
  | none => exact add_law sound shares fresh
  | some pair =>
    obtain ⟨base, offset⟩ := pair
    simp only
    split
    · rename_i inside
      obtain ⟨sound', shares'⟩ := add_law sound shares fresh
      cases run : (st.add header).displace st.count base offset with
      | none => exact ⟨sound, shares⟩
      | some st' =>
        have displacing := displace_law sound' (Nat.lt_succ_of_lt inside) run
        refine ⟨displacing.sound, displacing.shares shares' ?_⟩
        intro d target
        by_cases self : d = st.count
        · exact .inl self
        · rw [add_target_of_ne header self] at target
          exact absurd (target_lt sound target) (Nat.lt_irrefl _)
    · exact ⟨sound, shares⟩

theorem aset_header (d : ArrayId) (index : Nat) (value : α) :
    (st.aset d index value).header = st.header := by
  unfold aset
  split <;> rfl

theorem aset_law (sound : st.Sound) (shares : st.Shares) (d : ArrayId) (index : Nat) (value : α) :
    (st.aset d index value).Sound ∧ (st.aset d index value).Shares := by
  unfold aset
  split
  · exact ⟨⟨sound.conses, sound.cars⟩, shares⟩
  · exact ⟨sound, shares⟩

end State

theorem Reachable.shares {st : State α} (reached : Reachable Direct st) : st.Sound ∧ st.Shares := by
  induction reached with
  | initial memory =>
    constructor
    · constructor
      · intro d c list
        cases list
      · intro c t car
        cases car
    · intro d t target
      cases target
  | @step st step _ meets ih =>
    obtain ⟨sound, shares⟩ := ih
    cases step with
    | make etype dims adjustable fillp displaced address =>
      simp only [Step.run]
      cases made : makePureArray etype adjustable fillp dims with
      | none => exact ⟨sound, shares⟩
      | some header =>
        exact State.make_law sound shares (makePureArray_displaced made) displaced address
    | store d index value => exact State.aset_law sound shares d index value
    | replace olda newa =>
      simp only [Step.run]
      split
      · rename_i inside
        exact State.replaceArray_law sound shares inside.2 meets
      · exact ⟨sound, shares⟩

/-- Two arrays whose displacement is an offset have common cells: what is stored in an element
of one is read from the element of the other. -/
def Common (st : State α) (d t : ArrayId) (o : Int) : Prop :=
  ∀ i, i < (st.header d).dim →
    ∃ j : Nat, (j : Int) = i + o ∧ j < (st.header t).dim ∧
      (st.header d).cell i = (st.header t).cell j ∧
      ∀ value, (st.aset d i value).aref t j = some value ∧ (st.aset t j value).aref d i = some value

theorem aset_aref {st : State α} {d t : ArrayId} {i j : Nat} (inside : i < (st.header d).dim)
    (inside' : j < (st.header t).dim) (same : (st.header t).cell j = (st.header d).cell i)
    (value : α) : (st.aset d i value).aref t j = some value := by
  simp only [State.aref, State.aset_header, if_pos inside']
  simp only [State.aset, if_pos inside, same, if_true]

/-- Every displaced array has the cells of the array it is displaced to, in every state that is
reached while replaced arrays have only direct displacements. -/
theorem displacement_common (st : State α) (reached : Reachable Direct st) (d t : ArrayId)
    (o : Int) (displaced : st.displacement d = (some t, o)) : Common st d t o := by
  have target : st.target d = some t := by
    cases target : st.target d with
    | none =>
      simp only [State.displacement, target] at displaced
      cases displaced
    | some t' =>
      simp only [State.displacement, target] at displaced
      split at displaced
      · exact congrArg some (Option.some.inj (Prod.mk.inj displaced).1)
      · exact congrArg some (Option.some.inj (Prod.mk.inj displaced).1)
  obtain ⟨etype, n, room, begins⟩ := reached.shares.2 d t target
  rw [State.displacement_eq target etype begins] at displaced
  cases displaced
  intro i inside
  have inside' : i + n < (st.header t).dim := by omega
  have same := Header.Fits.cell etype begins i
  refine ⟨i + n, by push_cast; rfl, inside', same, ?_⟩
  intro value
  exact ⟨aset_aref inside inside' same.symm value, aset_aref inside' inside same value⟩

/-- A bit vector, and another one that is displaced to it by three bits. -/
def bits : State Nat :=
  let st := (Step.make .bit (.fixnum 16) true .none none 4096).run (initial fun _ => 0)
  (Step.make .bit (.fixnum 5) false .none (some (0, 3)) 0).run st

/-- A longer vector for the first one. -/
def longerBits : State Nat := (Step.make .bit (.fixnum 32) true .none none 8192).run bits

theorem longerBits_direct : Direct longerBits (.replace 0 2) := by
  have targets : ∀ d t, longerBits.target d = some t → d = 1 ∧ t = 0 := by
    intro d t target
    rcases d with _ | _ | _ | d
    · cases target
    · cases target
      exact ⟨rfl, rfl⟩
    · cases target
    · cases target
  intro _
  constructor
  · intro d target
    rw [(targets d 0 target).1]
    decide +kernel
  · intro d other member target
    have back : longerBits.back 0 = [1] := by decide +kernel
    rw [back, mem_singleton] at member
    rw [(targets d other target).2] at member
    cases member

/-- The displaced vector follows the first one to its new elements. -/
theorem displacement_common_bits :
    ((Step.replace 0 2).run longerBits).displacement 1 = (some 2, 3) ∧
      Common ((Step.replace 0 2).run longerBits) 1 2 3 := by
  have displaced : ((Step.replace 0 2).run longerBits).displacement 1 = (some 2, 3) := by
    decide +kernel
  refine ⟨displaced, displacement_common _ ?_ 1 2 3 displaced⟩
  have reached : Reachable Direct longerBits := by
    unfold longerBits bits
    exact .step _ (.step _ (.step _ (.initial fun _ => 0) trivial) trivial) trivial
  exact .step _ reached longerBits_direct

/-- A vector, one that is displaced to it and one that is displaced to that one. -/
def chain : State Nat :=
  let st := (Step.make .object (.fixnum 2) true .none none 4096).run (initial fun _ => 0)
  let st := (Step.make .object (.fixnum 2) true .none (some (0, 0)) 0).run st
  let st := (Step.make .object (.fixnum 2) true .none (some (1, 0)) 0).run st
  (Step.make .object (.fixnum 4) true .none none 8192).run st

/-- The last vector of a chain stays with the old elements of the first one. -/
theorem chain_not_common :
    ¬ ∀ (st : State Nat), Reachable (fun _ _ => True) st → ∀ d t o,
      st.displacement d = (some t, o) → Common st d t o := by
  intro claim
  have reached : Reachable (fun _ _ => True) ((Step.replace 0 3).run chain) := by
    unfold chain
    exact .step _ (.step _ (.step _ (.step _ (.step _ (.initial fun _ => 0) trivial) trivial)
      trivial) trivial) trivial
  have displaced : ((Step.replace 0 3).run chain).displacement 2 = (some 1, -512) := by
    decide +kernel
  have inside : 0 < (((Step.replace 0 3).run chain).header 2).dim := by
    decide +kernel
  obtain ⟨j, same, _⟩ := claim _ reached 2 1 (-512) displaced 0 inside
  omega

end Ecl.Arrays
