import Mathlib.Tactic.Ring

/- What a function leads to, step by step, when it comes back to where it was. -/
namespace Ecl.Lib

variable {β : Type} {f : β → β} {x : β}

theorem iterate_period {i p n : Nat} (same : f^[p + i] x = f^[i] x) (late : i ≤ n) (m : Nat) :
    f^[n + m * p] x = f^[n] x := by
  obtain ⟨d, rfl⟩ := Nat.exists_eq_add_of_le' late
  induction m with
  | zero => rw [Nat.zero_mul, Nat.add_zero]
  | succ m ih =>
    have split : d + i + (m + 1) * p = d + m * p + (p + i) := by ring
    rw [split, Function.iterate_add_apply, same, ← Function.iterate_add_apply, ← ih]
    congr 1
    omega

/-- Of two walkers, one twice as fast as the other, the fast one gets to where the slow one is. -/
theorem exists_meeting {i j : Nat} (less : i < j) (same : f^[j] x = f^[i] x) :
    ∃ k, f^[2 * k + 1] x = f^[k] x := by
  obtain ⟨p, rfl⟩ := Nat.exists_eq_add_of_le' (Nat.succ_le_of_lt less)
  have room : i + 1 ≤ (i + 1) * (p + 1) := Nat.le_mul_of_pos_right _ p.succ_pos
  have late : i ≤ (i + 1) * (p + 1) - 1 := by omega
  have back := iterate_period (p := p + 1) (by rwa [Nat.add_right_comm]) late (i + 1)
  refine ⟨(i + 1) * (p + 1) - 1, Eq.trans ?_ back⟩
  congr 1
  omega

end Ecl.Lib
