import Mathlib.Data.List.Basic

/- Lists that are linked through memory. -/
namespace Ecl.Lib

open List

variable {α : Type} {next next' : α → Option α}

/-- The elements that are linked one after the other, from a head on. -/
def Linked (next : α → Option α) : List α → Option α → Prop
  | [], head => head = none
  | x :: l, head => head = some x ∧ Linked next l (next x)

namespace Linked

variable {l : List α}

theorem eq_nil (linked : Linked next l none) : l = [] := by
  cases l with
  | nil => rfl
  | cons x l => cases linked.1

theorem exists_tail {x : α} (linked : Linked next l (some x)) :
    ∃ rest, l = x :: rest ∧ Linked next rest (next x) := by
  cases l with
  | nil => cases linked
  | cons y l =>
    obtain ⟨same, rest⟩ := linked
    cases same
    exact ⟨l, rfl, rest⟩

variable {head : Option α}

theorem congr (same : ∀ x ∈ l, next' x = next x) (linked : Linked next l head) :
    Linked next' l head := by
  induction l generalizing head with
  | nil => exact linked
  | cons x l ih =>
    refine ⟨linked.1, ?_⟩
    rw [same x mem_cons_self]
    exact ih (fun y member => same y (mem_cons_of_mem x member)) linked.2

theorem unique {l' : List α} (linked : Linked next l head) (linked' : Linked next l' head) :
    l = l' := by
  induction l generalizing l' head with
  | nil =>
    cases linked
    exact linked'.eq_nil.symm
  | cons x l ih =>
    obtain ⟨rfl, rest⟩ := linked
    obtain ⟨l'', rfl, rest'⟩ := linked'.exists_tail
    rw [ih rest rest']

theorem suffix {front : List α} {x : α} (linked : Linked next (front ++ x :: l) head) :
    Linked next (x :: l) (some x) := by
  induction front generalizing head with
  | nil => exact ⟨rfl, linked.2⟩
  | cons y front ih => exact ih linked.2

theorem nodup (linked : Linked next l head) : l.Nodup := by
  induction l generalizing head with
  | nil => exact nodup_nil
  | cons x l ih =>
    refine nodup_cons.mpr ⟨fun member => ?_, ih linked.2⟩
    obtain ⟨front, back, split⟩ := append_of_mem member
    have again : Linked next (x :: back) (some x) := suffix (split ▸ linked.2)
    have here : Linked next (x :: l) (some x) := ⟨rfl, linked.2⟩
    have lengths := congrArg List.length (unique here again)
    rw [split, length_cons, length_append, length_cons] at lengths
    omega

end Linked

/-- The elements that are linked one after the other, from a head up to a tail. -/
def Segment (next : α → Option α) : List α → Option α → Option α → Prop
  | [], head, tail => head = tail
  | x :: l, head, tail => head = some x ∧ Segment next l (next x) tail

namespace Segment

variable {l : List α} {head tail : Option α}

theorem append {l' : List α} {middle : Option α} (segment : Segment next l head middle)
    (segment' : Segment next l' middle tail) : Segment next (l ++ l') head tail := by
  induction l generalizing head with
  | nil => exact segment ▸ segment'
  | cons x l ih => exact ⟨segment.1, ih segment.2⟩

theorem linked {l' : List α} (segment : Segment next l head tail)
    (linked : Linked next l' tail) : Linked next (l ++ l') head := by
  induction l generalizing head with
  | nil => exact segment ▸ linked
  | cons x l ih => exact ⟨segment.1, ih segment.2⟩

theorem congr (same : ∀ x ∈ l, next' x = next x)
    (segment : Segment next l head tail) : Segment next' l head tail := by
  induction l generalizing head with
  | nil => exact segment
  | cons x l ih =>
    refine ⟨segment.1, ?_⟩
    rw [same x mem_cons_self]
    exact ih (fun y member => same y (mem_cons_of_mem x member)) segment.2

end Segment

end Ecl.Lib
