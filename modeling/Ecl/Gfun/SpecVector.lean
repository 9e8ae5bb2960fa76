import Ecl.Gfun.Cache

/- The vector of a generic function and the specializers of its arguments, the key of the cache. -/
namespace Ecl.Gfun

open Ecl.Equality List Nat

/-- An element of GFUN_SPEC: the objects of the EQL specializers, unless it is an atom, and the
place of the argument. -/
structure SpecHow where
  specType : Option (List Word)
  position : Nat
  deriving DecidableEq

/-- method_spec_vector: the words from self.t on, also those behind the vector, and the indices
that were stored to. -/
structure SpecVector where
  dim : Nat
  fillp : Nat
  word : Nat → Word
  stored : List Nat
  room : 1 ≤ dim

def SpecVector.store (vector : SpecVector) (i : Nat) (x : Word) : SpecVector :=
  { vector with
    word := fun j => if j = i then x else vector.word j
    stored := i :: vector.stored }

@[simp] theorem SpecVector.store_dim (vector : SpecVector) (i : Nat) (x : Word) :
    (vector.store i x).dim = vector.dim := rfl

inductive Outcome where
  | wrongNumArguments (gf : Word)
  | objnull
  | vector
  deriving DecidableEq

section Code

variable (classOf : Word → Word) (eql : Word → Word → Bool)

/-- The class of an argument, or the argument itself. -/
def specializer (specType : Option (List Word)) (arg : Word) : Word :=
  match specType with
  | none => classOf arg
  | some objects => if objects.any (eql arg) then arg else classOf arg

/-- The loop over the list of GFUN_SPEC; the test of spec_no comes after the store. -/
def specLoop (args : List Word) (gf : Word) : List SpecHow → Nat → SpecVector → Outcome × SpecVector
  | [], specNo, vector => (.vector, { vector with fillp := specNo })
  | specHow :: list, specNo, vector =>
    match args[specHow.position]? with
    | none => (.wrongNumArguments gf, vector)
    | some arg =>
      let vector := vector.store specNo (specializer classOf eql specHow.specType arg)
      if vector.dim < specNo + 1 then (.objnull, vector)
      else specLoop args gf list (specNo + 1) vector

def getSpecVector (args : List Word) (gf : Word) (list : List SpecHow) (vector : SpecVector) :
    Outcome × SpecVector :=
  specLoop classOf eql args gf list 1 (vector.store 0 gf)

/-- Nothing is stored outside of the vector, which gets its fill pointer if the specializers fit
and is given up otherwise; an argument may be missing. -/
def Bounded (args : List Word) (gf : Word) (list : List SpecHow) (vector : SpecVector) : Prop :=
  let run := getSpecVector classOf eql args gf list { vector with stored := [] }
  (∀ i ∈ run.2.stored, i < vector.dim) ∧
    match run.1 with
    | .vector => 1 + list.length ≤ vector.dim ∧ run.2.fillp = 1 + list.length
    | .objnull => vector.dim < 1 + list.length
    | .wrongNumArguments f => f = gf ∧ ∃ specHow ∈ list, args.length ≤ specHow.position

variable (args : List Word) (gf : Word) (list : List SpecHow)

theorem specLoop_missing (specNo : Nat) (vector : SpecVector) {specHow : SpecHow}
    (missing : args.length ≤ specHow.position) :
      specLoop classOf eql args gf (specHow :: list) specNo vector =
      (.wrongNumArguments gf, vector) := by
  rw [specLoop, List.getElem?_eq_none missing]

theorem specLoop_present (specNo : Nat) (vector : SpecVector) {specHow : SpecHow}
    (present : ¬ args.length ≤ specHow.position) :
    ∃ x, specLoop classOf eql args gf (specHow :: list) specNo vector =
      if vector.dim < specNo + 1 then (.objnull, vector.store specNo x)
      else specLoop classOf eql args gf list (specNo + 1) (vector.store specNo x) := by
  rw [specLoop, List.getElem?_eq_getElem (lt_of_not_ge present)]
  exact ⟨_, rfl⟩

/-- The specializer after those that fill the vector is stored before the loop gives up. -/
theorem specLoop_stored (specNo : Nat) (vector : SpecVector) (room : specNo ≤ vector.dim)
    (inside : ∀ i ∈ vector.stored, i < vector.dim) :
    (∀ i ∈ (specLoop classOf eql args gf list specNo vector).2.stored, i < vector.dim) ↔
      specNo + list.length ≤ vector.dim ∨
        ∃ specHow ∈ list.take (vector.dim + 1 - specNo), args.length ≤ specHow.position := by
  induction list generalizing specNo vector with
  | nil => simpa only [specLoop, length_nil, add_zero, room, true_or, iff_true] using inside
  | cons specHow list ih =>
    obtain ⟨free, equal⟩ := Nat.exists_eq_add_of_le room
    rw [show vector.dim + 1 - specNo = free + 1 by omega, take_succ_cons]
    simp only [mem_cons, exists_eq_or_imp, length_cons]
    by_cases missing : args.length ≤ specHow.position
    · simpa only [specLoop_missing classOf eql args gf list specNo vector missing, missing, true_or,
        or_true, iff_true] using inside
    · obtain ⟨x, step⟩ := specLoop_present classOf eql args gf list specNo vector missing
      rw [step]
      simp only [missing, false_or]
      by_cases full : vector.dim < specNo + 1
      · rw [if_pos full, show free = 0 by omega, take_zero]
        simp only [not_mem_nil, false_and, exists_false, or_false]
        constructor
        · intro all
          exact absurd (all specNo mem_cons_self) (by omega)
        · intro fits
          omega
      · have next := ih (specNo + 1) (vector.store specNo x)
          (Nat.le_of_not_lt full)
          (forall_mem_cons.mpr ⟨lt_of_not_ge fun late => full (lt_succ_of_le late), inside⟩)
        simp only [SpecVector.store_dim] at next
        rw [show vector.dim + 1 - (specNo + 1) = free by omega] at next
        rw [if_neg full, add_comm list.length, ← add_assoc]
        exact next

theorem specLoop_outcome (specNo : Nat) (vector : SpecVector) (room : specNo ≤ vector.dim) :
    let run := specLoop classOf eql args gf list specNo vector
    match run.1 with
    | .vector => specNo + list.length ≤ vector.dim ∧ run.2.fillp = specNo + list.length
    | .objnull => vector.dim < specNo + list.length
    | .wrongNumArguments f => f = gf ∧ ∃ specHow ∈ list, args.length ≤ specHow.position := by
  induction list generalizing specNo vector with
  | nil => exact ⟨room, rfl⟩
  | cons specHow list ih =>
    simp only [length_cons, mem_cons, exists_eq_or_imp]
    by_cases missing : args.length ≤ specHow.position
    · simp only [specLoop_missing classOf eql args gf list specNo vector missing, missing,
        true_or, and_self]
    · obtain ⟨x, step⟩ := specLoop_present classOf eql args gf list specNo vector missing
      simp only [step, missing, false_or]
      by_cases full : vector.dim < specNo + 1
      · simp only [if_pos full]
        omega
      · have next := ih (specNo + 1) (vector.store specNo x) (Nat.le_of_not_lt full)
        rw [if_neg full, add_comm list.length, ← add_assoc]
        exact next

/-- The vector is not left exactly if it has a word to spare for every specializer, or if one of
the arguments whose specializers would fill it is missing. -/
theorem bounded_iff (vector : SpecVector) : Bounded classOf eql args gf list vector ↔
    1 + list.length ≤ vector.dim ∨
      ∃ specHow ∈ list.take vector.dim, args.length ≤ specHow.position := by
  have stored :=
    specLoop_stored classOf eql args gf list 1 ({ vector with stored := [] }.store 0 gf)
    vector.room (fun i member => by rw [mem_singleton.mp member]; exact vector.room)
  rw [SpecVector.store_dim, Nat.add_sub_cancel] at stored
  rw [← stored]
  exact and_iff_left (specLoop_outcome classOf eql args gf list 1 _ vector.room)

end Code

/-- method_spec_vector as _ecl_set_method_hash_size makes it. -/
def emptySpecVector : SpecVector where
  dim := Cache.specDimension.toNat
  fillp := 0
  word _ := 0
  stored := []
  room := by decide

/-- A function that is specialized on each of its 64 arguments. -/
theorem sixty_four_specializers : ¬ Bounded id (· == ·) (List.replicate 64 0) 0x100000#64
    ((List.range 64).map fun position => ⟨none, position⟩) emptySpecVector := by
  intro bounded
  have stored := (specLoop_stored id (· == ·) (List.replicate 64 0) 0x100000#64 _ 1
    (emptySpecVector.store 0 0x100000#64) emptySpecVector.room
    (fun i member => by rw [mem_singleton.mp member]; exact emptySpecVector.room)).mp bounded.1
  revert stored
  decide

end Ecl.Gfun
