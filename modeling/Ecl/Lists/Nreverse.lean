import Ecl.Lists.Length

/- NREVERSE of a list, which turns the cdrs around. -/
namespace Ecl.Lists

open List Function

variable {κ α : Type} {cdr : κ → Object κ α} {x y e seq : Object κ α}
  {cells done : List κ} {c z : κ}

theorem exists_loop [Finite κ] (conses : ∀ n, (nthTail cdr n x).consp = true) :
    ∃ front c back, Chain cdr (front ++ c :: back) x (.cons c) ∧ (front ++ c :: back).Nodup := by
  by_contra endless
  have longer : ∀ n, ∃ cells, cells.length = n ∧ Chain cdr cells x (nthTail cdr n x) ∧
    cells.Nodup := by
    intro n
    induction n with
    | zero => exact ⟨[], rfl, rfl, nodup_nil⟩
    | succ n ih =>
      obtain ⟨cells, length, chain, nodup⟩ := ih
      have consp := conses n
      rw [nthTail_succ]
      cases object : nthTail cdr n x with
      | nil => rw [object] at consp; cases consp
      | atom a => rw [object] at consp; cases consp
      | cons c =>
        rw [object] at chain
        have fresh : c ∉ cells := by
          intro member
          obtain ⟨front, back, rfl⟩ := append_of_mem member
          exact endless ⟨front, c, back, chain, nodup⟩
        exact ⟨cells ++ [c], by grind, chain.append ⟨rfl, rfl⟩, by grind⟩
  have := Fintype.ofFinite κ
  obtain ⟨cells, length, -, nodup⟩ := longer (Fintype.card κ + 1)
  have bound := nodup.length_le_card
  omega

theorem Chain.split {front back : List κ} (chain : Chain cdr (front ++ c :: back) x e) :
    Chain cdr front x (.cons c) ∧ Chain cdr (c :: back) (.cons c) e := by
  induction front generalizing x with
  | nil =>
    obtain ⟨rfl, rest⟩ := chain
    exact ⟨rfl, rfl, rest⟩
  | cons b front ih =>
    obtain ⟨rfl, rest⟩ := chain
    exact ⟨⟨rfl, (ih rest).1⟩, (ih rest).2⟩

variable [DecidableEq κ]

/-- The conses linked the other way, the first one to an object. -/
def relink (cdr : κ → Object κ α) : List κ → Object κ α → (κ → Object κ α) × Object κ α
  | [], y => (cdr, y)
  | z :: cells, y => relink (update cdr z y) cells (.cons z)

theorem Chain.update (chain : Chain cdr cells x e) (fresh : z ∉ cells) (y : Object κ α) :
    Chain (update cdr z y) cells x e :=
  chain.congr fun _ member => update_of_ne (ne_of_mem_of_not_mem member fresh) _ _

theorem relink_chain (chain : Chain cdr done y .nil) (nodup : (cells ++ done).Nodup) :
    Chain (relink cdr cells y).1 (cells.reverse ++ done) (relink cdr cells y).2 .nil := by
  induction cells generalizing cdr y done with
  | nil => exact chain
  | cons z cells ih =>
    rw [reverse_cons, append_assoc]
    apply ih
    · exact ⟨rfl, by rw [update_self]; exact chain.update (by simp_all) y⟩
    · exact perm_middle.symm.nodup nodup

theorem relink_other (outside : c ∉ cells) : (relink cdr cells y).1 c = cdr c := by
  induction cells generalizing cdr y with
  | nil => rfl
  | cons z cells ih =>
    obtain ⟨other, outside⟩ := not_or.mp (mem_cons.not.mp outside)
    rw [relink, ih outside, update_of_ne other]

variable [DecidableEq α]

/-- The loop over x, where y is turned around already. An error tells the atom that is not a list,
or nothing for FEcircular_list. -/
def nreverseLoop (seq : Object κ α) : Nat → (κ → Object κ α) → Object κ α → Object κ α →
    Option (Except (Option α) (Object κ α × (κ → Object κ α)))
  | 0, _, _, _ => none
  | fuel + 1, cdr, x, y =>
    match x with
    | .nil => some (.ok (y, cdr))
    | .atom a => some (.error (some a))
    | .cons z =>
      if cdr z = seq then some (.error none)
      else nreverseLoop seq fuel (update cdr z y) (cdr z) (.cons z)

/-- The first case of cl_nreverse. -/
def clNreverse (cdr : κ → Object κ α) (fuel : Nat) (seq : Object κ α) :
    Option (Except (Option α) (Object κ α × (κ → Object κ α))) :=
  nreverseLoop seq fuel cdr seq .nil

theorem nreverseLoop_run (chain : Chain cdr cells x e) (nodup : cells.Nodup) (other : e ≠ seq)
    (onward : ∀ c ∈ cells.tail, .cons c ≠ seq) (fuel : Nat) :
    nreverseLoop seq (fuel + cells.length) cdr x y =
      nreverseLoop seq fuel (relink cdr cells y).1 e (relink cdr cells y).2 := by
  induction cells generalizing cdr x y with
  | nil =>
    cases chain
    rfl
  | cons z cells ih =>
    obtain ⟨rfl, rest⟩ := chain
    obtain ⟨fresh, nodup⟩ := nodup_cons.mp nodup
    have next : cdr z ≠ seq := by
      cases cells with
      | nil => exact rest ▸ other
      | cons d cells => exact rest.1 ▸ onward d mem_cons_self
    rw [length_cons, ← Nat.add_assoc, nreverseLoop, if_neg next]
    exact ih (rest.update fresh y) nodup fun c member => onward c (mem_of_mem_tail member)

theorem nreverseLoop_meets (chain : Chain cdr (c :: cells) x seq) (nodup : (c :: cells).Nodup)
    (fuel : Nat) :
    nreverseLoop seq (fuel + (c :: cells).length) cdr x y = some (.error none) := by
  induction cells generalizing cdr x y c with
  | nil =>
    obtain ⟨rfl, last⟩ := chain
    exact if_pos last
  | cons d cells ih =>
    obtain ⟨rfl, rest⟩ := chain
    obtain ⟨fresh, nodup⟩ := nodup_cons.mp nodup
    rw [length_cons, ← Nat.add_assoc, nreverseLoop]
    split
    · rfl
    · exact ih (rest.update fresh y) nodup

/-- NREVERSE of a list returns in any finite memory: the same conses in the opposite order, or an
error for another atom at the end or for a circle, whether the first cons is on it or not. -/
theorem clNreverse_settles [Finite κ] (cdr : κ → Object κ α) {x : Object κ α}
    (list : x.listp = true) :
    ∃ result, (∃ least, ∀ more, clNreverse cdr (more + least) x = some result) ∧
      ((∃ cells y cdr', Chain cdr cells x .nil ∧ result = .ok (y, cdr') ∧
        Chain cdr' cells.reverse y .nil ∧ ∀ c ∉ cells, cdr' c = cdr c) ∨
      (∃ cells a, Chain cdr cells x (.atom a) ∧ result = .error (some a)) ∨
      Circular cdr x ∧ result = .error none) := by
  cases x with
  | atom a => cases list
  | nil => exact ⟨_, ⟨1, fun _ => rfl⟩, .inl ⟨[], .nil, cdr, rfl, rfl, rfl, fun _ _ => rfl⟩⟩
  | cons b =>
    have turned {cells : List κ} (nodup : cells.Nodup) : Chain (relink cdr cells .nil).1
        (cells.reverse ++ []) (relink cdr cells .nil).2 .nil :=
          relink_chain rfl (by rwa [append_nil])
    by_cases ends : ∃ n, (nthTail cdr n (.cons b)).consp = false
    · have stop := Nat.find_spec ends
      obtain ⟨cells, -, chain⟩ := Chain.exists_of_consp fun m (below : m < Nat.find ends) => by
        simpa using Nat.find_min ends below
      generalize nthTail cdr (Nat.find ends) (.cons b) = e at stop chain
      cases cells with
      | nil => cases chain; cases stop
      | cons d cells =>
        cases chain.1
        have nodup := chain.nodup stop
        have other : e ≠ .cons b := by rintro rfl; cases stop
        have runs (more : Nat) :=
          nreverseLoop_run chain (y := .nil) nodup other (by grind) (more + 1)
        simp only [Nat.add_assoc] at runs
        cases e with
        | cons c => cases stop
        | atom a => exact ⟨_, ⟨_, runs⟩, .inr (.inl ⟨_, a, chain, rfl⟩)⟩
        | nil =>
          exact ⟨_, ⟨_, runs⟩, .inl ⟨_, _, _, chain, rfl, by simpa using turned nodup,
            fun c => relink_other⟩⟩
    · have conses : ∀ n, (nthTail cdr n (.cons b)).consp = true := by simpa using ends
      obtain ⟨front, c, back, chain, nodup⟩ := exists_loop conses
      refine ⟨.error none, ?_, .inr (.inr ⟨⟨front, c, back, chain.split⟩, rfl⟩)⟩
      cases front with
      | nil =>
        cases chain.1
        exact ⟨_, nreverseLoop_meets chain nodup⟩
      | cons d front =>
        cases chain.1
        have around := turned nodup
        rw [append_nil, cons_append, reverse_cons, reverse_append, reverse_cons] at around
        have home := around.split.1
        rw [append_assoc] at home
        have other : Object.cons (α := α) c ≠ .cons b := by grind
        have nodup' : (c :: front.reverse).Nodup := by grind
        refine ⟨(c :: front.reverse).length + (b :: front ++ c :: back).length, fun more => ?_⟩
        rw [← Nat.add_assoc, clNreverse, nreverseLoop_run chain nodup other (by grind)]
        exact nreverseLoop_meets home.split.2 nodup' more

/-- A cons that leads to a ring of two. -/
def ring (c : Fin 3) : Object (Fin 3) Char := if c = 1 then .cons 2 else .cons 1

theorem ring_endless {cells : List (Fin 3)} {e : Object (Fin 3) Char} :
    ∀ {x}, Chain ring cells x e → x.consp = true → e.consp = true := by
  induction cells with
  | nil =>
    rintro _ rfl cons
    exact cons
  | cons c cells next =>
    rintro _ ⟨-, rest⟩ -
    have cons : (ring c).consp = true := by
      clear next rest
      revert c
      decide
    exact next rest cons

theorem clNreverse_settles_fin :
    ∃ least, ∀ more, clNreverse ring (more + least) (.cons 0) = some (.error none) := by
  obtain ⟨result, returns, ⟨cells, y, cdr', chain, -⟩ | ⟨cells, a, chain, -⟩ | ⟨-, rfl⟩⟩ :=
    @clNreverse_settles _ _ _ _ _ ring (.cons 0) rfl
  · cases ring_endless chain rfl
  · cases ring_endless chain rfl
  · exact returns

end Ecl.Lists
