import Mathlib.Logic.Function.Iterate

/- Conses in memory, and the chain of cdrs that starts at an object. -/
namespace Ecl.Lists

open List Function Nat

/-- cl_object: NIL, another atom, or the cons at an address. -/
inductive Object (κ α : Type) where
  | nil
  | atom (a : α)
  | cons (c : κ)
  deriving DecidableEq

variable {κ α : Type}

def Object.consp : Object κ α → Bool
  | .cons _ => true
  | _ => false

def Object.listp : Object κ α → Bool
  | .atom _ => false
  | _ => true

section Chains

variable (cdr : κ → Object κ α)

/-- ECL_CONS_CDR, which is read of conses only; an atom stays where it is. -/
def consCdr : Object κ α → Object κ α
  | .cons c => cdr c
  | x => x

def nthTail (n : Nat) (x : Object κ α) : Object κ α := (consCdr cdr)^[n] x

/-- The conses from an object on, up to another object. -/
def Chain : List κ → Object κ α → Object κ α → Prop
  | [], x, e => x = e
  | c :: cells, x, e => x = .cons c ∧ Chain cells (cdr c) e

end Chains

variable {cdr : κ → Object κ α}

@[simp] theorem nthTail_zero (x : Object κ α) : nthTail cdr 0 x = x := rfl

theorem nthTail_succ (n : Nat) (x : Object κ α) :
    nthTail cdr (n + 1) x = consCdr cdr (nthTail cdr n x) :=
  iterate_succ_apply' _ _ _

theorem nthTail_add (m n : Nat) (x : Object κ α) :
    nthTail cdr (m + n) x = nthTail cdr m (nthTail cdr n x) :=
  iterate_add_apply _ _ _ _

theorem nthTail_atom {x : Object κ α} (atom : x.consp = false) (n : Nat) : nthTail cdr n x = x := by
  induction n with
  | zero => rfl
  | succ n ih =>
    rw [nthTail_succ, ih]
    cases x with
    | cons c => cases atom
    | nil => rfl
    | atom a => rfl

namespace Chain

theorem nthTail_length {cells : List κ} {x e : Object κ α} (chain : Chain cdr cells x e) :
    nthTail cdr cells.length x = e := by
  induction cells generalizing x with
  | nil => exact chain
  | cons c cells ih =>
    obtain ⟨rfl, rest⟩ := chain
    exact ih rest

theorem consp {cells : List κ} {x e : Object κ α} (chain : Chain cdr cells x e) {n : Nat}
    (inside : n < cells.length) : (nthTail cdr n x).consp = true := by
  induction cells generalizing x n with
  | nil => cases inside
  | cons c cells ih =>
    obtain ⟨rfl, rest⟩ := chain
    cases n with
    | zero => rfl
    | succ n => exact ih rest (lt_of_succ_lt_succ inside)

theorem append {front cells : List κ} {x y e : Object κ α} (chain : Chain cdr front x y)
    (rest : Chain cdr cells y e) : Chain cdr (front ++ cells) x e := by
  induction front generalizing x with
  | nil =>
    cases chain
    exact rest
  | cons c front ih =>
    obtain ⟨rfl, more⟩ := chain
    exact ⟨rfl, ih more⟩

theorem exists_of_consp {n : Nat} {x : Object κ α}
    (consp : ∀ m < n, (nthTail cdr m x).consp = true) :
    ∃ cells, cells.length = n ∧ Chain cdr cells x (nthTail cdr n x) := by
  induction n generalizing x with
  | zero => exact ⟨[], rfl, rfl⟩
  | succ n ih =>
    cases x with
    | nil => cases consp 0 n.succ_pos
    | atom a => cases consp 0 n.succ_pos
    | cons c =>
      obtain ⟨cells, length, chain⟩ := ih (x := cdr c) fun m below =>
        consp (m + 1) (succ_lt_succ below)
      exact ⟨c :: cells, congrArg (· + 1) length, rfl, chain⟩

theorem congr {cdr' : κ → Object κ α} {cells : List κ} {x e : Object κ α}
    (same : ∀ c ∈ cells, cdr' c = cdr c) (chain : Chain cdr cells x e) : Chain cdr' cells x e := by
  induction cells generalizing x with
  | nil => exact chain
  | cons c cells ih =>
    obtain ⟨rfl, rest⟩ := chain
    refine ⟨rfl, ?_⟩
    rw [same c mem_cons_self]
    exact ih (fun d member => same d (mem_cons_of_mem c member)) rest

theorem take {cells : List κ} {x e : Object κ α} (chain : Chain cdr cells x e) {i : Nat}
    (inside : i ≤ cells.length) : Chain cdr (cells.take i) x (nthTail cdr i x) := by
  induction cells generalizing x i with
  | nil =>
    obtain rfl := le_zero.mp inside
    rfl
  | cons c cells ih =>
    obtain ⟨rfl, rest⟩ := chain
    cases i with
    | zero => rfl
    | succ i => exact ⟨rfl, ih rest (le_of_succ_le_succ inside)⟩

theorem drop {cells : List κ} {x e : Object κ α} (chain : Chain cdr cells x e)
    (atom : e.consp = false)
    (i : Nat) : Chain cdr (cells.drop i) (nthTail cdr i x) e := by
  induction cells generalizing x i with
  | nil =>
    cases chain
    rw [drop_nil, nthTail_atom atom]
    rfl
  | cons c cells ih =>
    obtain ⟨rfl, rest⟩ := chain
    cases i with
    | zero => exact ⟨rfl, rest⟩
    | succ i => exact ih rest i

theorem length_le {cells cells' : List κ} {x e e' : Object κ α} (chain : Chain cdr cells x e)
    (atom : e.consp = false) (chain' : Chain cdr cells' x e') : cells'.length ≤ cells.length := by
  by_contra longer
  have consp := chain'.consp (Nat.lt_of_not_ge longer)
  rw [chain.nthTail_length, atom] at consp
  cases consp

theorem nodup {cells : List κ} {x e : Object κ α} (chain : Chain cdr cells x e)
    (atom : e.consp = false) : cells.Nodup := by
  induction cells generalizing x with
  | nil => exact nodup_nil
  | cons c cells ih =>
    obtain ⟨rfl, rest⟩ := chain
    refine nodup_cons.mpr ⟨fun again => ?_, ih rest⟩
    obtain ⟨front, back, rfl⟩ := append_of_mem again
    have later := rest.drop atom front.length
    rw [drop_left] at later
    have short := (show Chain cdr (c :: back) (.cons c) e from ⟨rfl, later.2⟩).length_le atom
      (show Chain cdr (c :: (front ++ c :: back)) (.cons c) e from ⟨rfl, rest⟩)
    simp only [length_cons, length_append] at short
    omega

end Chain

/-- The conses of a process; those from free on are not allocated. -/
structure Heap (α : Type) where
  car : Nat → Object Nat α
  cdr : Nat → Object Nat α
  free : Nat

namespace Heap

/-- ecl_cons, whose result is the cons at the address free. -/
def cons (h : Heap α) (a d : Object Nat α) : Heap α where
  car := Function.update h.car h.free a
  cdr := Function.update h.cdr h.free d
  free := h.free + 1

def rplaca (h : Heap α) (c : Nat) (a : Object Nat α) : Heap α :=
  { h with car := Function.update h.car c a }

def rplacd (h : Heap α) (c : Nat) (d : Object Nat α) : Heap α :=
  { h with cdr := Function.update h.cdr c d }

/-- ECL_RPLACD, of conses only. -/
def eclRplacd (h : Heap α) (x d : Object Nat α) : Heap α :=
  match x with
  | .cons c => h.rplacd c d
  | _ => h

/-- CAR of a cons. -/
def consCar (h : Heap α) : Object Nat α → Object Nat α
  | .cons c => h.car c
  | x => x

/-- A proper or dotted list: its elements and what it ends in. -/
def Holds (h : Heap α) (x : Object Nat α) (xs : List (Object Nat α)) (e : Object Nat α) : Prop :=
  ∃ cells, Chain h.cdr cells x e ∧ cells.map h.car = xs

/-- What is left alone when a list is copied behind the cons tail. -/
structure Grown (h h' : Heap α) (tail : Nat) (xs : List (Object Nat α)) (e : Object Nat α) :
    Prop where
  free : h.free ≤ h'.free
  car : ∀ c < h.free, h'.car c = h.car c
  cdr : ∀ c < h.free, c ≠ tail → h'.cdr c = h.cdr c
  spine : h'.Holds (h'.cdr tail) xs e

variable {h h' : Heap α} {a e : Object Nat α} {xs : List (Object Nat α)} {tail : Nat}

theorem Grown.refl (tail : Nat) : Grown h h tail [] (h.cdr tail) :=
  ⟨Nat.le_refl _, fun _ _ => rfl, fun _ _ _ => rfl, [], rfl, rfl⟩

theorem Grown.head (grown : Grown (h.cons a .nil) h' h.free xs e) :
    h'.Holds (.cons h.free) (a :: xs) e ∧
      ∀ c < h.free, h'.car c = h.car c ∧ h'.cdr c = h.cdr c := by
  obtain ⟨new, chain, elements⟩ := grown.spine
  have first := grown.car h.free h.free.lt_succ_self
  simp only [cons, update_self] at first
  constructor
  · exact ⟨h.free :: new, ⟨rfl, chain⟩, by rw [map_cons, first, elements]⟩
  · intro c below
    have other : c ≠ h.free := Nat.ne_of_lt below
    have car := grown.car c (lt_succ_of_lt below)
    have cdr := grown.cdr c (lt_succ_of_lt below) other
    simp only [cons, update_of_ne other] at car cdr
    exact ⟨car, cdr⟩

theorem Grown.step (old : tail < h.free)
    (grown : Grown ((h.cons a .nil).rplacd tail (.cons h.free)) h' h.free xs e) :
    Grown h h' tail (a :: xs) e := by
  obtain ⟨new, chain, elements⟩ := grown.spine
  have first := grown.car h.free h.free.lt_succ_self
  have link := grown.cdr tail (lt_succ_of_lt old) (Nat.ne_of_lt old)
  simp only [rplacd, cons, update_self] at first link
  refine ⟨le_of_succ_le grown.free, fun c below => ?_, fun c below other => ?_, ?_⟩
  · have car := grown.car c (lt_succ_of_lt below)
    simpa only [rplacd, cons, update_of_ne (Nat.ne_of_lt below)] using car
  · have cdr := grown.cdr c (lt_succ_of_lt below) (Nat.ne_of_lt below)
    simpa only [rplacd, cons, update_of_ne other, update_of_ne (Nat.ne_of_lt below)]
      using cdr
  · rw [link]
    exact ⟨h.free :: new, ⟨rfl, chain⟩, by rw [map_cons, first, elements]⟩

end Heap

end Ecl.Lists
