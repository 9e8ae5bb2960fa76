import Mathlib.Data.Fintype.Pigeonhole
import Ecl.Lib.Iterate
import Ecl.Lists.Heap

/- LIST-LENGTH, whose slow pointer is compared to the fast one at every other cons. -/
namespace Ecl.Lists

open Nat List

variable {κ α : Type}

/-- From some cons that the chain leads to, it leads to that cons again. -/
def Circular (cdr : κ → Object κ α) (x : Object κ α) : Prop :=
  ∃ front c loop, Chain cdr front x (.cons c) ∧ Chain cdr (c :: loop) (.cons c) (.cons c)

variable {cdr : κ → Object κ α} {x : Object κ α}

theorem consp_of_return {i p : Nat} (back : nthTail cdr (p + 1 + i) x = nthTail cdr i x)
    (conses : ∀ m < p + 1 + i, (nthTail cdr m x).consp = true) (n : Nat) :
    (nthTail cdr n x).consp = true := by
  induction n using Nat.strong_induction_on with
  | _ n ih =>
    rcases lt_or_ge n (p + 1 + i) with early | late
    · exact conses n early
    · obtain ⟨d, rfl⟩ := Nat.exists_eq_add_of_le' late
      rw [nthTail_add, back, ← nthTail_add]
      exact ih (d + i) (by omega)

theorem Circular.consp (circular : Circular cdr x) (n : Nat) : (nthTail cdr n x).consp = true := by
  obtain ⟨front, c, loop, chain, around⟩ := circular
  have length := (chain.append around).nthTail_length
  rw [length_append, length_cons, add_comm] at length
  apply consp_of_return (length.trans chain.nthTail_length.symm)
  intro m below
  apply (chain.append around).consp
  rw [length_append, length_cons]
  omega

theorem circular_of_return {i p : Nat} (back : nthTail cdr (p + 1 + i) x = nthTail cdr i x)
    (conses : ∀ m, (nthTail cdr m x).consp = true) : Circular cdr x := by
  obtain ⟨front, length, chain⟩ := Chain.exists_of_consp fun m (_ : m < i) => conses m
  have onward : ∀ m < p + 1, (nthTail cdr m (nthTail cdr i x)).consp = true := by
    intro m _
    rw [← nthTail_add]
    exact conses (m + i)
  obtain ⟨loop, length', around⟩ := Chain.exists_of_consp onward
  rw [← nthTail_add, back] at around
  cases loop with
  | nil => cases length'
  | cons c loop =>
    have first := around.1
    rw [first] at chain around
    exact ⟨front, c, loop, chain, around⟩

theorem chain_iff {n m : Nat} {e : Object κ α} (atom : e.consp = false)
    (stop : (nthTail cdr n x).consp = false) (conses : ∀ m < n, (nthTail cdr m x).consp = true) :
    (∃ cells, cells.length = m ∧ Chain cdr cells x e) ↔ n = m ∧ nthTail cdr n x = e := by
  constructor
  · rintro ⟨cells, rfl, chain⟩
    have last := chain.nthTail_length
    have length : n = cells.length := by
      apply le_antisymm
      · by_contra less
        have consp := conses _ (lt_of_not_ge less)
        rw [last, atom] at consp
        cases consp
      · by_contra more
        rw [chain.consp (lt_of_not_ge more)] at stop
        cases stop
    exact ⟨length, length ▸ last⟩
  · rintro ⟨rfl, rfl⟩
    exact Chain.exists_of_consp conses

theorem ends_iff {n : Nat} {e : Object κ α} (atom : e.consp = false)
    (stop : (nthTail cdr n x).consp = false) (conses : ∀ m < n, (nthTail cdr m x).consp = true) :
    (∃ cells, Chain cdr cells x e) ↔ nthTail cdr n x = e := by
  constructor
  · rintro ⟨cells, chain⟩
    exact ((chain_iff atom stop conses).mp ⟨cells, rfl, chain⟩).2
  · intro last
    obtain ⟨cells, _, chain⟩ := (chain_iff atom stop conses).mpr ⟨rfl, last⟩
    exact ⟨cells, chain⟩

variable [DecidableEq κ] [DecidableEq α]

section Code

variable (cdr : κ → Object κ α)

/-- The loop over n. None is NIL, and an error tells the atom that is not a list.
INV: A list's length always fits in a fixnum -/
def listLengthLoop : Nat → Nat → Object κ α → Object κ α → Option (Except α (Option Nat))
  | 0, _, _, _ => none
  | fuel + 1, n, fast, slow =>
    match fast with
    | .nil => some (.ok (some n))
    | .atom a => some (.error a)
    | .cons c =>
      if n % 2 = 1 then
        if slow = .cons c then some (.ok none)
        else listLengthLoop fuel (n + 1) (cdr c) (consCdr cdr slow)
      else listLengthLoop fuel (n + 1) (cdr c) slow

def clListLength (fuel : Nat) (x : Object κ α) : Option (Except α (Option Nat)) :=
  listLengthLoop cdr fuel 0 x x

end Code

/-- While it runs over conses, the fast pointer is after n cdrs and the slow one after n / 2. -/
theorem listLengthLoop_run {n : Nat} (conses : ∀ m < n, (nthTail cdr m x).consp = true)
    (apart : ∀ k, 2 * k + 1 < n → nthTail cdr (2 * k + 1) x ≠ nthTail cdr k x) (fuel : Nat) :
    clListLength cdr (fuel + n) x =
      listLengthLoop cdr fuel n (nthTail cdr n x) (nthTail cdr (n / 2) x) := by
  induction n generalizing fuel with
  | zero => rfl
  | succ n ih =>
    have before := ih (fun m below => conses m (lt_succ_of_lt below))
      (fun k below => apart k (lt_succ_of_lt below)) (fuel + 1)
    rw [show fuel + (n + 1) = fuel + 1 + n by omega, before, nthTail_succ n]
    have consp := conses n n.lt_succ_self
    cases fast : nthTail cdr n x with
    | nil => rw [fast] at consp; cases consp
    | atom a => rw [fast] at consp; cases consp
    | cons c =>
      rw [listLengthLoop]
      by_cases odd : n % 2 = 1
      · have half : 2 * (n / 2) + 1 = n := by omega
        have distinct : nthTail cdr (n / 2) x ≠ .cons c := by
          intro same
          apply apart (n / 2) (by omega)
          rw [half, fast, same]
        rw [if_pos odd, if_neg distinct, ← nthTail_succ, show n / 2 + 1 = (n + 1) / 2 by omega]
        rfl
      · rw [if_neg odd, show n / 2 = (n + 1) / 2 by omega]
        rfl

theorem clListLength_stops {n : Nat} (stop : (nthTail cdr n x).consp = false)
    (conses : ∀ m < n, (nthTail cdr m x).consp = true) (fuel : Nat) :
    clListLength cdr (fuel + n) x =
      listLengthLoop cdr fuel n (nthTail cdr n x) (nthTail cdr (n / 2) x) := by
  apply listLengthLoop_run conses
  intro k inside met
  have back : nthTail cdr (k + 1 + k) x = nthTail cdr k x := by
    rwa [show k + 1 + k = 2 * k + 1 by omega]
  rw [consp_of_return back (fun m below => conses m (by omega))] at stop
  cases stop

theorem clListLength_circular [Finite κ] (conses : ∀ n, (nthTail cdr n x).consp = true) :
    Circular cdr x ∧ ∃ least, ∀ fuel, least ≤ fuel → clListLength cdr fuel x = some (.ok none) := by
  have cell : ∀ n, ∃ c, nthTail cdr n x = .cons c := by
    intro n
    have consp := conses n
    cases object : nthTail cdr n x with
    | cons c => exact ⟨c, rfl⟩
    | nil => rw [object] at consp; cases consp
    | atom a => rw [object] at consp; cases consp
  choose cells holds using cell
  have meeting : ∃ k, nthTail cdr (2 * k + 1) x = nthTail cdr k x := by
    obtain ⟨i, j, distinct, same⟩ := Finite.exists_ne_map_eq_of_infinite cells
    have equal : nthTail cdr i x = nthTail cdr j x := by rw [holds, holds, same]
    rcases lt_or_gt_of_ne distinct with less | less
    · exact Lib.exists_meeting less equal.symm
    · exact Lib.exists_meeting less equal
  have met := Nat.find_spec meeting
  have apart : ∀ k, k < Nat.find meeting → nthTail cdr (2 * k + 1) x ≠ nthTail cdr k x :=
    fun k below => Nat.find_min meeting below
  generalize Nat.find meeting = k at met apart
  constructor
  · apply circular_of_return (i := k) (p := k) _ conses
    rwa [show k + 1 + k = 2 * k + 1 by omega]
  · refine ⟨2 * k + 2, fun fuel enough => ?_⟩
    obtain ⟨more, rfl⟩ := Nat.exists_eq_add_of_le' enough
    have run := listLengthLoop_run (n := 2 * k + 1) (fun m _ => conses m)
      (fun m inside => apart m (by omega)) (more + 1)
    rw [show more + (2 * k + 2) = more + 1 + (2 * k + 1) by omega, run, met,
      show (2 * k + 1) / 2 = k by omega, holds k, listLengthLoop, if_pos (by omega), if_pos rfl]

/-- Whatever the conses of a finite memory point to, LIST-LENGTH returns: NIL for circular chains
only, the number of conses for the chains that end in NIL, and a type error for those that end in
another atom. -/
theorem clListLength_settles [Finite κ] (cdr : κ → Object κ α) (x : Object κ α) :
    ∃ result, (∃ least, ∀ fuel, least ≤ fuel → clListLength cdr fuel x = some result) ∧
      (result = .ok none ↔ Circular cdr x) ∧
      (∀ n, result = .ok (some n) ↔ ∃ cells, cells.length = n ∧ Chain cdr cells x .nil) ∧
      ∀ a, result = .error a ↔ ∃ cells, Chain cdr cells x (.atom a) := by
  by_cases ends : ∃ n, (nthTail cdr n x).consp = false
  · have stop := Nat.find_spec ends
    have conses : ∀ m < Nat.find ends, (nthTail cdr m x).consp = true := fun m below => by
      simpa using Nat.find_min ends below
    generalize Nat.find ends = n at stop conses
    have straight : ¬ Circular cdr x := by
      intro circular
      rw [circular.consp] at stop
      cases stop
    have runs := clListLength_stops stop conses
    cases object : nthTail cdr n x with
    | cons c => rw [object] at stop; cases stop
    | nil =>
      refine ⟨.ok (some n),
        ⟨n + 1, fun fuel enough => ?_⟩, by simp [straight], fun m => ?_, fun a => ?_⟩
      · obtain ⟨more, rfl⟩ := Nat.exists_eq_add_of_le' enough
        rw [show more + (n + 1) = more + 1 + n by omega, runs, object, listLengthLoop]
      · rw [chain_iff rfl stop conses, object]
        simp
      · rw [ends_iff rfl stop conses, object]
        simp
    | atom b =>
      refine ⟨.error b,
        ⟨n + 1, fun fuel enough => ?_⟩, by simp [straight], fun m => ?_, fun a => ?_⟩
      · obtain ⟨more, rfl⟩ := Nat.exists_eq_add_of_le' enough
        rw [show more + (n + 1) = more + 1 + n by omega, runs, object, listLengthLoop]
      · rw [chain_iff rfl stop conses, object]
        simp
      · rw [ends_iff rfl stop conses, object]
        simp
  · have conses : ∀ n, (nthTail cdr n x).consp = true := by simpa using ends
    obtain ⟨circular, returns⟩ := clListLength_circular conses
    have endless : ∀ cells e, e.consp = false → ¬ Chain cdr cells x e := by
      intro cells e atom chain
      rw [← chain.nthTail_length, conses] at atom
      cases atom
    refine ⟨.ok none, returns, by simp [circular], fun n => ?_, fun a => ?_⟩
    · simp [endless _ .nil rfl]
    · simp [endless _ (.atom a) rfl]

/-- A ring of two conses, and a dotted pair. -/
theorem clListLength_settles_fin : ∃ result,
    (∃ least, ∀ fuel, least ≤ fuel →
      clListLength
        (fun c : Fin 3 => if c = 0 then .cons 1 else if c = 1 then .cons 0 else .atom 'a')
        fuel (.cons 0) = some result) ∧ result ≠ .error 'a' := by
  obtain ⟨result, returns, circular, _, dotted⟩ := clListLength_settles
    (fun c : Fin 3 => if c = 0 then .cons 1 else if c = 1 then .cons 0 else .atom 'a') (.cons 0)
  refine ⟨result, returns, ?_⟩
  rw [circular.mpr ⟨[], 0, [1], rfl, rfl, rfl, rfl⟩]
  intro never
  cases never

end Ecl.Lists
