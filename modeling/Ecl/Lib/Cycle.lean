import Mathlib.Data.Nat.Init

/- The cyclic walk i, i+1, ... modulo n over the indices of an array. -/
namespace Cycle

def walk (n start steps : Nat) : Nat := (start + steps) % n

variable {n start steps : Nat}

theorem walk_lt (positive : 0 < n) : walk n start steps < n :=
  Nat.mod_lt _ positive

theorem walk_zero (inside : start < n) : walk n start 0 = start :=
  Nat.mod_eq_of_lt inside

theorem walk_succ (n start steps : Nat) :
    (walk n start steps + 1) % n = walk n start (steps + 1) := by
  rw [walk, walk, Nat.mod_add_mod, Nat.add_assoc]

theorem walk_eq (inside : start < n) (below : steps < n) :
    walk n start steps = if start + steps < n then start + steps else start + steps - n := by
  unfold walk
  split
  · exact Nat.mod_eq_of_lt ‹_›
  · rw [Nat.mod_eq_sub_mod (by omega), Nat.mod_eq_of_lt (by omega)]

theorem walk_injective {i j : Nat} (inside : start < n) (hi : i < n) (hj : j < n)
    (same : walk n start i = walk n start j) : i = j := by
  rw [walk_eq inside hi, walk_eq inside hj] at same
  split at same <;> split at same <;> omega

def distance (n start target : Nat) : Nat :=
  if start ≤ target then target - start else target + n - start

theorem distance_lt {target : Nat} (inside : start < n) (reached : target < n) :
    distance n start target < n := by
  unfold distance
  split <;> omega

theorem walk_distance {target : Nat} (inside : start < n) (reached : target < n) :
    walk n start (distance n start target) = target := by
  rw [walk_eq inside (distance_lt inside reached)]
  unfold distance
  split <;> split <;> omega

theorem distance_walk (inside : start < n) (below : steps < n) :
    distance n start (walk n start steps) = steps :=
  walk_injective inside (distance_lt inside (walk_lt (by omega))) below
    (walk_distance inside (walk_lt (by omega)))

end Cycle
