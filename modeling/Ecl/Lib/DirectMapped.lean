import Mathlib.Data.Fintype.Defs

/- A direct mapped cache: each key has one place, that it shares with others. -/
namespace Ecl.Lib

variable {n : Nat} {K V : Type}

abbrev DirectMapped (n : Nat) (K V : Type) : Type := Fin n → Option (K × V)

namespace DirectMapped

def empty : DirectMapped n K V := fun _ => none

section

variable [DecidableEq K] (cache : DirectMapped n K V) (place : K → Fin n)

def find (k : K) : Option V :=
  match cache (place k) with
  | some (k', v) => if k' = k then some v else none
  | none => none

def set (k : K) (v : V) : DirectMapped n K V :=
  fun i => if i = place k then some (k, v) else cache i

/-- The cache without the entries of some keys. -/
def drop (gone : K → Bool) :
    DirectMapped n K V := fun i => (cache i).filter fun entry => !gone entry.1

theorem find_set (k k' : K) (v : V) :
    (cache.set place k v).find place k' =
      if place k' = place k then if k = k' then some v else none else cache.find place k' := by
  unfold find set
  by_cases same : place k' = place k
  · simp only [same, ↓reduceIte]
  · simp only [same, ↓reduceIte]

variable {cache place}

theorem find_of_found {k k' : K} {v : V} (found : cache.find place k = some v)
    (same : place k' = place k) (other : k' ≠ k) : cache.find place k' = none := by
  unfold find at found ⊢
  rw [same]
  cases entry : cache (place k) with
  | none => rfl
  | some pair =>
    rw [entry] at found
    dsimp only at found ⊢
    split at found
    · rename_i here
      rw [here]
      exact if_neg other.symm
    · cases found

theorem find_of_drop {gone : K → Bool} {k : K} {v : V}
    (found : (cache.drop gone).find place k = some v) : cache.find place k = some v := by
  unfold find drop at found
  unfold find
  cases entry : cache (place k) with
  | none =>
    rw [entry] at found
    cases found
  | some pair =>
    obtain ⟨k', v'⟩ := pair
    rw [entry, Option.filter_some] at found
    cases kept : !gone k' with
    | true =>
      rw [kept] at found
      exact found
    | false =>
      rw [kept] at found
      cases found

end

/-- Every entry has the property. -/
def Holds (cache : DirectMapped n K V) (p : K → V → Prop) : Prop :=
  ∀ i k v, cache i = some (k, v) → p k v

section

variable {cache : DirectMapped n K V} {p : K → V → Prop}

theorem Holds.empty : (DirectMapped.empty : DirectMapped n K V).Holds p := by
  intro i k v entry
  cases entry

theorem Holds.drop (holds : cache.Holds p) (gone : K → Bool) : (cache.drop gone).Holds p := by
  intro i k v entry
  exact holds i k v (Option.filter_eq_some_iff.mp entry).1

variable {place : K → Fin n}

theorem Holds.set (holds : cache.Holds p) {k : K} {v : V} (new : p k v) :
    (cache.set place k v).Holds p := by
  intro i k' v' entry
  unfold DirectMapped.set at entry
  split at entry
  · cases entry
    exact new
  · exact holds i k' v' entry

theorem Holds.find [DecidableEq K] (holds : cache.Holds p) {k : K} {v : V}
    (found : cache.find place k = some v) :
    p k v := by
  unfold DirectMapped.find at found
  cases entry : cache (place k) with
  | none =>
    rw [entry] at found
    cases found
  | some pair =>
    obtain ⟨k', v'⟩ := pair
    rw [entry] at found
    dsimp only at found
    split at found
    · rename_i same
      cases found
      exact same ▸ holds _ _ _ entry
    · cases found

end

end DirectMapped

end Ecl.Lib
