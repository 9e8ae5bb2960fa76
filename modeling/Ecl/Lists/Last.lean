import Mathlib.Algebra.Ring.Nat
import Ecl.Lists.Heap

/- LAST, BUTLAST, NBUTLAST and LDIFF of list.d, on a proper or dotted list of conses. -/
namespace Ecl.Lists

open List Function Option

variable {α : Type}

section Code

variable [DecidableEq α] (fuel : Nat) (h : Heap α)

/-- for (r = l; n && CONSP(r); n--, r = ECL_CONS_CDR(r)), with n and r at its end. -/
def advance : Nat → Object Nat α → Nat × Object Nat α
  | 0, r => (0, r)
  | n + 1, r => if r.consp then advance n (consCdr h.cdr r) else (n + 1, r)

/-- Both pointers move on while r is a cons; l at the end. -/
def together : Nat → Object Nat α → Object Nat α → Option (Object Nat α)
  | 0, _, _ => none
  | fuel + 1, r, l => if r.consp then together fuel (consCdr h.cdr r) (consCdr h.cdr l) else some l

/-- The error is the one of FEtype_error_list. -/
def eclLast (l : Object Nat α) (n : Nat) : Option (Except (Object Nat α) (Object Nat α)) :=
  let (n, r) := advance h n l
  if r = l then
    -- only r moves here
    if r.listp then (together h fuel r r).map .ok else some (.error l)
  else if n = 0 then (together h fuel r l).map .ok
  else some (.ok l)

/-- The loop after the first cons of the copy; tail is its last one. -/
def butlastLoop : Nat → Heap α → Object Nat α → Object Nat α → Nat → Option (Heap α)
  | 0, _, _, _, _ => none
  | fuel + 1, h, l, r, tail =>
    let l := consCdr h.cdr l
    let r := consCdr h.cdr r
    if r.consp then
      butlastLoop fuel ((h.cons (h.consCar l) .nil).rplacd tail (.cons h.free)) l r h.free
    else some h

def eclButlast (l : Object Nat α) (n : Nat) :
    Option (Except (Object Nat α) (Heap α × Object Nat α)) :=
  let r := (advance h n l).2
  match r with
  | .nil => some (.ok (h, .nil))
  | .atom a => if .atom a = l then some (.error r) else some (.ok (h, .nil))
  | .cons _ =>
    (butlastLoop fuel (h.cons (h.consCar l) .nil) l r h.free).map fun h' => .ok (h', .cons h.free)

/-- The argument n is a cl_index, which n++ leaves within 64 bits. -/
def eclNbutlast (l : Object Nat α) (n : Nat) :
    Option (Except (Object Nat α) (Heap α × Object Nat α)) :=
  if l.listp then
    let (n, r) := advance h ((n + 1) % 2 ^ 64) l
    if n = 0 then (together h fuel r l).map fun tail => .ok (h.eclRplacd tail .nil, l)
    else some (.ok (h, .nil))
  else some (.error l)

variable (eql : Object Nat α → Object Nat α → Bool)

/-- The loop of cl_ldiff, which copies x up to y. -/
def ldiffLoop (y : Object Nat α) : Nat → Heap α → Object Nat α → Nat → Option (Heap α)
  | 0, _, _, _ => none
  | fuel + 1, h, x, tail =>
    let x := consCdr h.cdr x
    if x.consp = false then some (if eql x y then h else h.rplacd tail x)
    else if x = y then some h
    else ldiffLoop y fuel ((h.cons (h.consCar x) .nil).rplacd tail (.cons h.free)) x h.free

def clLdiff (x y : Object Nat α) : Option (Except (Object Nat α) (Heap α × Object Nat α)) :=
  if x.listp then
    if x ≠ .nil ∧ x ≠ y then
      (ldiffLoop eql y fuel (h.cons (h.consCar x) .nil) x h.free).map fun h' =>
        .ok (h', .cons h.free)
    else some (.ok (h, .nil))
  else some (.error x)

end Code

variable {h : Heap α} {cells : List Nat} {l e : Object Nat α}

theorem advance_eq (chain : Chain h.cdr cells l e) (atom : e.consp = false) (n : Nat) :
    advance h n l = (n - cells.length, nthTail h.cdr n l) := by
  induction n generalizing cells l with
  | zero => rw [advance, Nat.zero_sub]; rfl
  | succ n ih =>
    cases cells with
    | nil =>
      cases chain
      rw [nthTail_atom atom, advance, atom, if_neg Bool.false_ne_true]
      rfl
    | cons c cells =>
      obtain ⟨rfl, rest⟩ := chain
      rw [advance, Object.consp, if_pos rfl, consCdr, ih rest, length_cons, Nat.succ_sub_succ]
      rfl

theorem together_eq {r : Object Nat α} (chain : Chain h.cdr cells r e) (atom : e.consp = false)
    (fuel : Nat) (enough : cells.length < fuel) (l : Object Nat α) :
    together h fuel r l = some (nthTail h.cdr cells.length l) := by
  induction cells generalizing r l fuel with
  | nil =>
    cases chain
    obtain ⟨fuel, rfl⟩ := Nat.exists_eq_add_of_lt enough
    rw [length_nil, Nat.zero_add, together, atom, if_neg Bool.false_ne_true]
    rfl
  | cons c cells ih =>
    obtain ⟨rfl, rest⟩ := chain
    obtain ⟨fuel, rfl⟩ : ∃ k, fuel = k + 1 := ⟨fuel - 1, by omega⟩
    rw [together, Object.consp, if_pos rfl, consCdr, ih rest fuel (Nat.lt_of_succ_lt_succ enough)]
    rfl

theorem Chain.copying {tail : Nat} {a d x : Object Nat α} (chain : Chain h.cdr cells l x)
    (old : ∀ c ∈ cells, c < tail) (allocated : tail < h.free) :
    Chain ((h.cons a d).rplacd tail (.cons h.free)).cdr cells l x := by
  apply chain.congr
  intro c member
  have notTail := Nat.ne_of_lt (old c member)
  have notFree := Nat.ne_of_lt (Nat.lt_trans (old c member) allocated)
  simp only [Heap.rplacd, Heap.cons, update_of_ne notTail, update_of_ne notFree]

theorem new_ends {tail : Nat} {a d v : Object Nat α} (allocated : tail < h.free) :
    ((h.cons a d).rplacd tail v).cdr h.free = d := by
  simp only [Heap.rplacd, Heap.cons, update_of_ne (Nat.ne_of_gt allocated),
    update_self]

theorem cars_allocating {a d : Object Nat α} (old : ∀ c ∈ cells, c < h.free) :
    cells.map (h.cons a d).car = cells.map h.car :=
  map_congr_left fun c member => update_of_ne (Nat.ne_of_lt (old c member)) _ _

section Law

variable [DecidableEq α] {n fuel : Nat} (chain : Chain h.cdr cells l e) (atom : e.consp = false)

include chain atom

theorem eclLast_eq (listp : l.listp = true) (enough : cells.length < fuel) :
    eclLast fuel h l n = some (.ok (nthTail h.cdr (cells.length - n) l)) := by
  rw [eclLast, advance_eq chain atom]
  have rest := chain.drop atom n
  by_cases same : nthTail h.cdr n l = l
  · have whole := (same ▸ rest).length_le atom chain
    rw [length_drop] at whole
    have length : cells.length - n = cells.length := by omega
    simp only [same, if_true, listp, together_eq chain atom fuel enough, map_some, length]
  · simp only [if_neg same]
    by_cases within : n - cells.length = 0
    · have short : (cells.drop n).length < fuel := by
        rw [length_drop]
        omega
      rw [if_pos within, together_eq rest atom fuel short, length_drop]
      rfl
    · rw [if_neg within, show cells.length - n = 0 by omega]
      rfl

omit [DecidableEq α] in
theorem eclNbutlast_holds {n fuel : Nat} (index : n + 1 < 2 ^ 64) (listp : l.listp = true)
    (enough : cells.length < fuel) :
    ∃ h' x, eclNbutlast fuel h l n = some (.ok (h', x)) ∧
      h'.Holds x ((cells.take (cells.length - n)).map h.car) .nil := by
  rw [eclNbutlast, if_pos listp, Nat.mod_eq_of_lt index, advance_eq chain atom]
  have rest := chain.drop atom (n + 1)
  by_cases within : n + 1 - cells.length = 0
  · have short : (cells.drop (n + 1)).length < fuel := by
      rw [length_drop]
      omega
    simp only [within, if_true, together_eq rest atom fuel short, length_drop]
    have before := chain.take (i := cells.length - (n + 1)) (Nat.sub_le _ _)
    have after := chain.drop atom (cells.length - (n + 1))
    have nodup := chain.nodup atom
    rw [← take_append_drop (cells.length - (n + 1)) cells] at nodup
    cases back : cells.drop (cells.length - (n + 1)) with
    | nil =>
      have none := drop_eq_nil_iff.mp back
      omega
    | cons c more =>
      rw [back] at after nodup
      have pointer : nthTail h.cdr (cells.length - (n + 1)) l = .cons c := after.1
      have apart := (nodup_append.mp nodup).2.2
      rw [pointer] at before ⊢
      have kept : Chain (h.rplacd c .nil).cdr (cells.take (cells.length - (n + 1))) l (.cons c) :=
        before.congr fun d member => update_of_ne
          (apart d member c mem_cons_self) _ _
      have end' : Chain (h.rplacd c .nil).cdr [c] (.cons c) .nil := ⟨rfl, update_self _ _ _⟩
      refine ⟨h.rplacd c .nil, l, rfl, _, kept.append end', ?_⟩
      rw [show cells.length - n = cells.length - (n + 1) + 1 by omega, take_add, back]
      rfl
  · simp only [within, if_false]
    refine ⟨h, .nil, rfl, [], rfl, ?_⟩
    rw [show cells.length - n = 0 by omega]
    rfl

end Law

theorem butlastLoop_grown {c d tail fuel : Nat} {rs ds : List Nat} {r x : Object Nat α}
    (right : Chain h.cdr (c :: rs) r e) (atom : e.consp = false) (left : Chain h.cdr (d :: ds) l x)
    (same : ds.length = rs.length) (oldRight : ∀ y ∈ rs, y < tail) (oldLeft : ∀ y ∈ ds, y < tail)
    (allocated : tail < h.free) (ends : h.cdr tail = .nil) (enough : rs.length < fuel) :
    ∃ h', butlastLoop fuel h l r tail = some h' ∧ h.Grown h' tail (ds.map h.car) .nil := by
  induction rs generalizing h c d ds l r tail fuel with
  | nil =>
    obtain rfl := length_eq_zero_iff.mp same
    obtain ⟨rfl, stop⟩ := right
    obtain ⟨fuel, rfl⟩ := Nat.exists_eq_add_of_lt enough
    refine ⟨h, ?_, ends ▸ Heap.Grown.refl tail⟩
    have last : h.cdr c = e := stop
    simp only [butlastLoop, consCdr, last, atom, Bool.false_eq_true, if_false]
  | cons c' rs ih =>
    obtain ⟨d', ds, rfl⟩ := exists_cons_of_length_eq_add_one same
    obtain ⟨rfl, right⟩ := right
    obtain ⟨rfl, left⟩ := left
    obtain ⟨fuel, rfl⟩ : ∃ k, fuel = k + 1 := ⟨fuel - 1, by omega⟩
    have right' := right.copying (a := h.car d') (d := .nil) oldRight allocated
    have left' := left.copying (a := h.car d') (d := .nil) oldLeft allocated
    have oldRight' : ∀ y ∈ rs, y < h.free := fun y member =>
      Nat.lt_trans (oldRight y (mem_cons_of_mem _ member)) allocated
    have oldLeft' : ∀ y ∈ ds, y < h.free := fun y member =>
      Nat.lt_trans (oldLeft y (mem_cons_of_mem _ member)) allocated
    obtain ⟨h', run, grown⟩ := ih right' left' (Nat.succ_inj.mp same) oldRight' oldLeft'
      h.free.lt_succ_self (new_ends allocated) (Nat.lt_of_succ_lt_succ enough)
    refine ⟨h', ?_, ?_⟩
    · simp only [butlastLoop, consCdr, right.1, left.1]
      rw [right.1, left.1] at run
      exact run
    · apply Heap.Grown.step allocated
      rw [← cars_allocating (a := h.car d') (d := .nil) oldLeft']
      exact grown

theorem ldiffLoop_grown [DecidableEq α] (eql : Object Nat α → Object Nat α → Bool)
    {d y tail fuel : Nat} {ds : List Nat} (chain : Chain h.cdr (d :: ds) l (.cons y))
    (fresh : y ∉ ds)
    (old : ∀ c ∈ ds, c < tail) (allocated : tail < h.free) (ends : h.cdr tail = .nil)
    (enough : ds.length < fuel) :
    ∃ h', ldiffLoop eql (.cons y) fuel h l tail = some h' ∧ h.Grown h' tail
      (ds.map h.car) .nil := by
  induction ds generalizing h d l tail fuel with
  | nil =>
    obtain ⟨rfl, stop⟩ := chain
    obtain ⟨fuel, rfl⟩ := Nat.exists_eq_add_of_lt enough
    refine ⟨h, ?_, ends ▸ Heap.Grown.refl tail⟩
    have last : h.cdr d = .cons y := stop
    simp only [ldiffLoop, consCdr, last, Object.consp, Bool.true_eq_false, if_false, if_true]
  | cons d' ds ih =>
    obtain ⟨rfl, rest⟩ := chain
    obtain ⟨fuel, rfl⟩ : ∃ k, fuel = k + 1 := ⟨fuel - 1, by omega⟩
    obtain ⟨notHere, notLater⟩ := not_or.mp (mem_cons.not.mp fresh)
    have rest' := rest.copying (a := h.car d') (d := .nil) old allocated
    have old' : ∀ c ∈ ds, c < h.free := fun c member =>
      Nat.lt_trans (old c (mem_cons_of_mem _ member)) allocated
    obtain ⟨h', run, grown⟩ := ih rest' notLater old' h.free.lt_succ_self (new_ends allocated)
      (Nat.lt_of_succ_lt_succ enough)
    refine ⟨h', ?_, ?_⟩
    · have other : (.cons d' : Object Nat α) ≠ .cons y :=
        fun same => notHere (Object.cons.inj same).symm
      simp only [ldiffLoop, consCdr, rest.1, Object.consp, Bool.true_eq_false, if_false, other]
      rw [rest.1] at run
      exact run
    · apply Heap.Grown.step allocated
      rw [← cars_allocating (a := h.car d') (d := .nil) old']
      exact grown

theorem Chain.allocating {a d x : Object Nat α} (chain : Chain h.cdr cells l x)
    (old : ∀ c ∈ cells, c < h.free) : Chain (h.cons a d).cdr cells l x := by
  apply chain.congr
  intro c member
  exact update_of_ne (Nat.ne_of_lt (old c member)) _ _

section Law

variable [DecidableEq α] (chain : Chain h.cdr cells l e) (atom : e.consp = false)
  (old : ∀ c ∈ cells, c < h.free)

include chain atom old

theorem eclButlast_holds {n fuel : Nat} (listp : l.listp = true) (enough : cells.length < fuel) :
    ∃ h' x, eclButlast fuel h l n = some (.ok (h', x)) ∧
      h'.Holds x ((cells.take (cells.length - n)).map h.car) .nil ∧
      ∀ c < h.free, h'.car c = h.car c ∧ h'.cdr c = h.cdr c := by
  have rest := chain.drop atom n
  rw [eclButlast, advance_eq chain atom]
  cases back : cells.drop n with
  | nil =>
    have short := drop_eq_nil_iff.mp back
    rw [back] at rest
    refine ⟨h, .nil, ?_, ⟨[], rfl, by rw [Nat.sub_eq_zero_of_le short]; rfl⟩, fun c _ => ⟨rfl, rfl⟩⟩
    have last : nthTail h.cdr n l = e := rest
    simp only [last]
    cases e with
    | nil => rfl
    | cons c => cases atom
    | atom a =>
      have other : (.atom a : Object Nat α) ≠ l := by
        rintro rfl
        cases listp
      simp only [other, if_false]
  | cons c rs =>
    rw [back] at rest
    have length := congrArg List.length back
    have front := chain.take (i := cells.length - n) (Nat.sub_le _ _)
    have length' := length_take (i := cells.length - n) (l := cells)
    rw [length_drop, length_cons] at length
    cases first : cells.take (cells.length - n) with
    | nil =>
      rw [first, length_nil] at length'
      omega
    | cons d ds =>
      rw [first] at front length'
      rw [length_cons] at length'
      have oldRight : ∀ y ∈ c :: rs, y < h.free := fun y member =>
        old y (mem_of_mem_drop (back ▸ member))
      have oldLeft : ∀ y ∈ d :: ds, y < h.free := fun y member =>
        old y (mem_of_mem_take (first ▸ member))
      obtain ⟨h', run, grown⟩ :=
        butlastLoop_grown (rest.allocating oldRight (a := h.car d) (d := .nil))
        atom (front.allocating oldLeft) (by omega) (forall_mem_cons.mp oldRight).2
        (forall_mem_cons.mp oldLeft).2 h.free.lt_succ_self (update_self _ _ _)
        (show rs.length < fuel by omega)
      rw [cars_allocating (forall_mem_cons.mp oldLeft).2] at grown
      obtain ⟨holds, frame⟩ := grown.head
      obtain rfl : l = .cons d := front.1
      have pointer : nthTail h.cdr n (.cons d) = .cons c := rest.1
      rw [pointer] at run
      refine ⟨h', .cons h.free, ?_, holds, frame⟩
      simp only [pointer, Heap.consCar, run, map_some]

theorem clLdiff_holds {eql : Object Nat α → Object Nat α → Bool} {n fuel : Nat} (positive : 1 ≤ n)
    (listp : l.listp = true) (enough : cells.length < fuel) :
    ∃ h' x, clLdiff fuel h eql l (nthTail h.cdr (cells.length - n) l) = some (.ok (h', x)) ∧
      h'.Holds x ((cells.take (cells.length - n)).map h.car) .nil := by
  have front := chain.take (i := cells.length - n) (Nat.sub_le _ _)
  have rest := chain.drop atom (cells.length - n)
  rw [clLdiff, if_pos listp]
  cases first : cells.take (cells.length - n) with
  | nil =>
    rw [first] at front
    have same : l = nthTail h.cdr (cells.length - n) l := front
    rw [← same, if_neg fun goes => goes.2 rfl]
    exact ⟨h, .nil, rfl, [], rfl, rfl⟩
  | cons d ds =>
    have nodup := chain.nodup atom
    rw [← take_append_drop (cells.length - n) cells, first] at nodup
    rw [first] at front
    cases back : cells.drop (cells.length - n) with
    | nil =>
      have none := drop_eq_nil_iff.mp back
      have length := congrArg List.length first
      rw [length_take, length_cons] at length
      omega
    | cons y more =>
      rw [back] at rest nodup
      have pointer : nthTail h.cdr (cells.length - n) l = .cons y := rest.1
      obtain rfl : l = .cons d := front.1
      have apart := (nodup_append.mp nodup).2.2
      have other : (.cons d : Object Nat α) ≠ .cons y := fun same =>
        apart d mem_cons_self y mem_cons_self (Object.cons.inj same)
      have oldFront : ∀ c ∈ d :: ds, c < h.free := fun c member =>
        old c (mem_of_mem_take (first ▸ member))
      have length := congrArg List.length first
      rw [length_take, length_cons] at length
      rw [pointer] at front ⊢
      obtain ⟨h', run, grown⟩ := ldiffLoop_grown eql
        (front.allocating oldFront (a := h.car d) (d := .nil))
        (fun member => apart y (mem_cons_of_mem _ member) y mem_cons_self rfl)
        (forall_mem_cons.mp oldFront).2 h.free.lt_succ_self (update_self _ _ _)
        (show ds.length < fuel by omega)
      rw [cars_allocating (forall_mem_cons.mp oldFront).2] at grown
      refine ⟨h', .cons h.free, ?_, grown.head.1⟩
      rw [if_pos ⟨(fun never => by cases never), other⟩, Heap.consCar, run]
      rfl

end Law

/-- A list that ends in NIL or in another atom, with its conses. -/
structure Listed (h : Heap α) (l : Object Nat α) (cells : List Nat) (e : Object Nat α) : Prop where
  chain : Chain h.cdr cells l e
  atom : e.consp = false
  listp : l.listp = true
  old : ∀ c ∈ cells, c < h.free

theorem Heap.Holds.of_frame {h' : Heap α} (chain : Chain h.cdr cells l e)
    (old : ∀ c ∈ cells, c < h.free)
    (frame : ∀ c < h.free, h'.car c = h.car c ∧ h'.cdr c = h.cdr c) :
    h'.Holds l (cells.map h.car) e :=
  ⟨cells, chain.congr fun c member => (frame c (old c member)).2,
    map_congr_left fun c member => (frame c (old c member)).1⟩

/-- LAST gives the end of a list and BUTLAST, NBUTLAST and LDIFF what is before it. The index is a
cl_index; callers pass what fixnnint makes of a fixnum. -/
theorem last_butlast [DecidableEq α] (eql : Object Nat α → Object Nat α → Bool) {n fuel : Nat}
    (listed : Listed h l cells e) (index : n + 1 < 2 ^ 64) (enough : cells.length < fuel) :
    ∃ last ys zs,
      (eclLast fuel h l n = some (.ok last) ∧ (∃ i, last = nthTail h.cdr i l) ∧ h.Holds last zs e ∧
        zs.length = min n cells.length) ∧
      (∃ h' x, eclButlast fuel h l n = some (.ok (h', x)) ∧ h'.Holds x ys .nil ∧
        h'.Holds last zs e ∧ h'.Holds l (ys ++ zs) e) ∧
      (∃ h' x, eclNbutlast fuel h l n = some (.ok (h', x)) ∧ h'.Holds x ys .nil) ∧
      (1 ≤ n → ∃ h' x, clLdiff fuel h eql l last = some (.ok (h', x)) ∧ h'.Holds x ys .nil) := by
  obtain ⟨chain, atom, listp, old⟩ := listed
  have rest := chain.drop atom (cells.length - n)
  have oldRest : ∀ c ∈ cells.drop (cells.length - n), c < h.free :=
    fun c member => old c (mem_of_mem_drop member)
  have split :
    (cells.take (cells.length - n)).map h.car ++ (cells.drop (cells.length - n)).map h.car =
      cells.map h.car := by
    rw [← map_append, take_append_drop]
  refine ⟨nthTail h.cdr (cells.length - n) l, (cells.take (cells.length - n)).map h.car,
    (cells.drop (cells.length - n)).map h.car, ⟨eclLast_eq chain atom listp enough, ⟨_, rfl⟩,
      ⟨_, rest, rfl⟩, ?_⟩, ?_, eclNbutlast_holds chain atom index listp enough,
    fun positive => clLdiff_holds chain atom old positive listp enough⟩
  · rw [length_map, length_drop]
    omega
  · obtain ⟨h', x, run, holds, frame⟩ := eclButlast_holds chain atom old listp enough
    exact ⟨h', x, run, holds, .of_frame rest oldRest frame, split ▸ .of_frame chain old frame⟩

/-- The dotted list (a b . c). -/
theorem last_butlast_dotted :
    ∃ last, eclLast 3 (Heap.mk (fun c => .atom (if c = 0 then 'a' else 'b'))
    (fun c => if c = 0 then .cons 1 else .atom 'c') 2) (.cons 0) 1 = some (.ok last) := by
  have listed : Listed (Heap.mk (fun c => .atom (if c = 0 then 'a' else 'b'))
      (fun c => if c = 0 then .cons 1 else .atom 'c') 2) (.cons 0) [0, 1] (.atom 'c') :=
    ⟨⟨rfl, rfl, rfl⟩, rfl, rfl, by decide⟩
  obtain ⟨last, _, _, run, _⟩ := last_butlast (fun _ _ => false) listed (n := 1) (by decide)
    (show [0, 1].length < 3 by decide)
  exact ⟨last, run.1⟩

end Ecl.Lists
