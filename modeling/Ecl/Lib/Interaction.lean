import Mathlib.Data.List.Basic

/- Computations that reach a memory through commands only, and two memories that cannot be
told apart by the commands a computation gives. -/
namespace Ecl.Lib

variable {Q : Type} {A : Q → Type} {α β σ τ : Type}

/-- A result, or a command and what follows its answer. -/
inductive Interaction (A : Q → Type) (α : Type) where
  | done (a : α)
  | ask (q : Q) (next : A q → Interaction A α)

namespace Interaction

def bind : Interaction A α → (α → Interaction A β) → Interaction A β
  | .done a, f => f a
  | .ask q next, f => .ask q fun answer => (next answer).bind f

/-- The answer to a command, and the memory after it. -/
abbrev Handler (A : Q → Type) (σ : Type) : Type := (q : Q) → σ → A q × σ

def run (h : Handler A σ) : Interaction A α → σ → α × σ
  | .done a, s => (a, s)
  | .ask q next, s => (next (h q s).1).run h (h q s).2

/-- The commands that are given in a run. -/
def asked (h : Handler A σ) : Interaction A α → σ → List Q
  | .done _, _ => []
  | .ask q next, s => q :: (next (h q s).1).asked h (h q s).2

theorem run_keeps {h : Handler A σ} {inv : σ → Prop} (c : Interaction A α) :
    ∀ {s : σ}, (∀ q ∈ c.asked h s, ∀ s, inv s → inv (h q s).2) → inv s → inv (c.run h s).2 := by
  induction c with
  | done a => exact fun _ start => start
  | ask q next ih =>
    intro s keeps start
    apply ih
    · intro q' member
      exact keeps q' (List.mem_cons_of_mem _ member)
    · exact keeps q List.mem_cons_self s start

/-- Where every command gets one answer from both memories and keeps them related, a
computation has one result. -/
theorem run_related {h : Handler A σ} {h' : Handler A τ} {r : σ → τ → Prop} {allowed : Q → Prop}
    (step : ∀ q s s', allowed q → r s s' → (h q s).1 = (h' q s').1 ∧ r (h q s).2 (h' q s').2)
    (c : Interaction A α) :
    ∀ {s : σ} {s' : τ}, (∀ q ∈ c.asked h s, allowed q) → r s s' →
      (c.run h s).1 = (c.run h' s').1 ∧ c.asked h s = c.asked h' s' ∧
        r (c.run h s).2 (c.run h' s').2 := by
  induction c with
  | done a => exact fun _ related => ⟨rfl, rfl, related⟩
  | ask q next ih =>
    intro s s' asks related
    obtain ⟨answer, after⟩ := step q s s' (asks q List.mem_cons_self) related
    have rest := ih (h q s).1 (fun q' member => asks q' (List.mem_cons_of_mem _ member)) after
    rw [run, run, asked, asked, ← answer]
    exact ⟨rest.1, congrArg _ rest.2.1, rest.2.2⟩

end Interaction

end Ecl.Lib
