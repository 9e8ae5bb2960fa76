import Ecl.Backquote.Template

/- The expansion of templates with any number of forms behind a comma. -/
namespace Ecl.Backquote

open Nat

theorem Kind.operator_plain (k : Kind) : k.operator.isMark = false := by
  cases k <;> rfl

/-- The operator that an element is put in front of other forms with. -/
def Kind.joined : Kind → Kind
  | .append => .append
  | .nconc => .nconc
  | _ => .listStar

/-- An element is put in front of the arguments of a call. -/
def Kind.merges (a d : Kind) : Bool :=
  match d with
  | .list | .listStar => a = .quote || a = .eval
  | _ => d = a

def Splicing.kind : Splicing → Kind
  | .splice => .append
  | .nsplice => .nconc

/-- What _cl_backq_cdr and _cl_backq_car return: the arguments of a call, the forms for a comma, or
an object that is quoted with what is quoted in its place if it stands alone. -/
abbrev Expanded : Type := Kind × List Template

namespace Template

/-- The forms behind a comma. -/
def toList : Template → List Template
  | .cons f fs => f :: fs.toList
  | _ => []

def kwote (t : Template) : Template :=
  if t.object.kwote = t.object then t else .cons (.atom .quote rfl) (list1 t)

/-- The element of a list of one element. -/
def only : Template → Option Template
  | .cons e rest => if rest.isNil then some e else none
  | _ => none

def call (k : Kind) (ts : List Template) : Template :=
  .cons (.atom k.operator k.operator_plain) (list ts)

/-- What is quoted in the place of an element. -/
def content : List Template → Template
  | [_, c] => c
  | _ => nil

def operands (a : Kind) (ax : List Template) : List Template :=
  if a = .quote then [kwote (content ax)] else ax

/-- An element that is evaluated in front of a constant. -/
def pairConstant (a : Kind) (ax : List Template) (c : Template) : Expanded :=
  if c.isNil then (if a = .eval then .list else .eval, ax)
  else if a = .eval then
    match c.only with
    | some e => (.list, ax ++ [e.kwote])
    | none => (.listStar, ax ++ [c.kwote])
  else (a.joined, ax ++ [c.kwote])

def expandPair (car cdr : Expanded) : Expanded :=
  if cdr.1 = .quote then
    if car.1 = .quote then
      let x := .cons (car.2.headD nil) (cdr.2.headD nil)
      (.quote, [x, x])
    else pairConstant car.1 car.2 (content cdr.2)
  else if cdr.1 = .eval then (car.1.joined, operands car.1 car.2 ++ cdr.2)
  else if car.1.merges cdr.1 then (cdr.1, operands car.1 car.2 ++ cdr.2)
  else (car.1.joined, operands car.1 car.2 ++ [call cdr.1 cdr.2])

/-- The expansion of a nested template as an element; it is copied as it is where it is quoted
together with others. -/
def expandQuasi (y : Template) (r : Expanded) : Expanded :=
  if r.1 = .quote then (.quote, [.quasi y, content r.2]) else r

variable (again : Template → Expanded)

def expandCarOf (t : Template) (d : Expanded) : Expanded :=
  match t with
  | .quasi y => expandQuasi y (again y)
  | .unquote forms => (.eval, forms.toList)
  | .splice k forms => (k.kind, forms.toList)
  | .cons _ _ => if d.1 = .quote ∨ d.1 = .eval then d else (.eval, [call d.1 d.2])
  | t => (.quote, [t, t])

def expandCdr : Template → Expanded
  | .cons car cdr => expandPair (expandCarOf again car (expandCdr car)) (expandCdr cdr)
  | .unquote forms => (.eval, forms.toList)
  | t => (.quote, [t, t])

def expandCar (t : Template) : Expanded := expandCarOf again t (expandCdr again t)

/-- The form for a whole template. -/
def finish (r : Expanded) : Template :=
  if r.1 = .quote then kwote (content r.2) else r.2.headD nil

def expandWith (t : Template) : Template := finish (expandCar again t)

def expandNested : Nat → Template → Expanded
  | 0, t => (.quote, [t, t])
  | n + 1, y => expandCar (expandNested n) (expandWith (expandNested n) y)

def expandAgain (y : Template) : Expanded := expandNested (y.quasiquotes + 1) y

/-- The expansion of a template. -/
def expand (t : Template) : Template := expandWith expandAgain t

/-- The quasiquotes in an expansion. -/
def weight (r : Expanded) : Nat :=
  if r.1 = .quote then max (r.2.headD nil).quasiquotes (content r.2).quasiquotes
  else (r.2.map quasiquotes).sum

@[simp] theorem quasiquotes_kwote (t : Template) : t.kwote.quasiquotes = t.quasiquotes := by
  unfold kwote
  split <;> simp [quasiquotes]

@[simp] theorem quasiquotes_list (ts : List Template) :
    (list ts).quasiquotes = (ts.map quasiquotes).sum := by
  induction ts with
  | nil => rfl
  | cons t ts ih =>
    rw [List.map_cons, List.sum_cons, ← ih]
    rfl

@[simp] theorem quasiquotes_call (k : Kind) (ts : List Template) :
    (call k ts).quasiquotes = (ts.map quasiquotes).sum := by
  rw [call, quasiquotes, quasiquotes_list]
  exact Nat.zero_add _

theorem quasiquotes_toList (forms : Template) :
    (forms.toList.map quasiquotes).sum ≤ forms.quasiquotes := by
  induction forms with
  | cons f fs _ ih => simpa [toList, quasiquotes] using ih
  | _ => exact zero_le _

theorem quasiquotes_headD (ts : List Template) :
    (ts.headD nil).quasiquotes ≤ (ts.map quasiquotes).sum := by
  cases ts with
  | nil => exact zero_le _
  | cons t ts => simp

theorem weight_evaluated {r : Expanded} (evaluated : r.1 ≠ .quote) :
    weight r = (r.2.map quasiquotes).sum :=
  if_neg evaluated

theorem content_weight {r : Expanded} (quote : r.1 = .quote) :
    (content r.2).quasiquotes ≤ weight r := by
  rw [weight, if_pos quote]
  exact Nat.le_max_right _ _

theorem head_weight {r : Expanded} (quote : r.1 = .quote) :
    (r.2.headD nil).quasiquotes ≤ weight r := by
  rw [weight, if_pos quote]
  exact Nat.le_max_left _ _

theorem operands_weight (r : Expanded) :
    ((operands r.1 r.2).map quasiquotes).sum ≤ weight r := by
  unfold operands
  split
  · rename_i quote
    simpa using content_weight quote
  · rename_i apart
    exact Nat.le_of_eq (weight_evaluated apart).symm

theorem isNil_iff {t : Template} : t.isNil = true ↔ t = nil := by
  cases t with
  | atom a plain =>
    rw [isNil, decide_eq_true_iff]
    exact ⟨fun same => by subst same; rfl, fun same => (Template.atom.inj same)⟩
  | _ => simp [isNil]

theorem only_eq_some {t e : Template} : t.only = some e ↔ t = list1 e := by
  cases t with
  | cons car cdr => simp [only, isNil_iff, and_comm]
  | _ => simp [only]

theorem pairConstant_weight {r : Expanded} (evaluated : r.1 ≠ .quote) (c : Template) :
    weight (pairConstant r.1 r.2 c) ≤ weight r + c.quasiquotes := by
  have own : weight r = (r.2.map quasiquotes).sum := if_neg evaluated
  rw [own, pairConstant]
  split
  · split <;> simp [weight]
  · split
    · split
      · rename_i e only
        rw [only_eq_some] at only
        subst only
        simp [weight, quasiquotes]
      · simp [weight]
    · cases kind : r.1 <;> simp [weight, Kind.joined]

theorem expandPair_weight (r r' : Expanded) :
    weight (expandPair r r') ≤ weight r + weight r' := by
  have own := operands_weight r
  have joined : r.1.joined ≠ .quote := by cases r.1 <;> decide
  unfold expandPair
  split
  · rename_i quote'
    split
    · rename_i quote
      have whole := Nat.add_le_add (head_weight quote) (head_weight quote')
      simpa only [weight, if_true, content, List.headD_cons, quasiquotes, Nat.max_self] using whole
    · rename_i evaluated
      exact Nat.le_trans (pairConstant_weight evaluated _)
        (Nat.add_le_add_left (content_weight quote') _)
  · rename_i evaluated
    rw [weight_evaluated evaluated]
    split
    · rw [weight_evaluated joined, List.map_append, List.sum_append]
      exact Nat.add_le_add_right own _
    · split
      · rw [show weight (r'.1, operands r.1 r.2 ++ r'.2) = _ from weight_evaluated evaluated,
          List.map_append, List.sum_append]
        exact Nat.add_le_add_right own _
      · rw [weight_evaluated joined, List.map_append, List.sum_append, List.map_singleton,
          List.sum_singleton, quasiquotes_call]
        exact Nat.add_le_add_right own _

section Depth

variable {again again' : Template → Expanded} {limit : Nat}

theorem expandCarOf_weight (inside : ∀ y, y.quasiquotes < limit → weight (again y) ≤ y.quasiquotes)
    {t : Template} {d : Expanded} (enough : t.quasiquotes ≤ limit)
    (tail : weight d ≤ t.quasiquotes) :
    weight (expandCarOf again t d) ≤ t.quasiquotes := by
  cases t with
  | atom a plain => simp [expandCarOf, weight, quasiquotes, content]
  | form x => simp [expandCarOf, weight, quasiquotes, content]
  | quasi y =>
    have below := inside y enough
    rw [expandCarOf, expandQuasi]
    split
    · rename_i quote
      have quoted := Nat.le_trans (content_weight quote) below
      exact Nat.max_le.mpr ⟨Nat.le_refl _, Nat.le_trans quoted (Nat.le_succ _)⟩
    · exact Nat.le_trans below (Nat.le_succ _)
  | unquote forms => simpa [expandCarOf, weight, quasiquotes] using quasiquotes_toList forms
  | splice k forms => cases k <;>
      simpa [expandCarOf, weight, quasiquotes, Splicing.kind] using quasiquotes_toList forms
  | cons car cdr =>
    rw [expandCarOf]
    split
    · exact tail
    · rename_i called
      rw [weight, if_neg (fun quote => called (.inl quote))] at tail
      simpa [weight] using tail

theorem expandCdr_weight (inside : ∀ y, y.quasiquotes < limit → weight (again y) ≤ y.quasiquotes)
    (t : Template) : t.quasiquotes ≤ limit → weight (expandCdr again t) ≤ t.quasiquotes := by
  induction t with
  | cons car cdr ihCar ihCdr =>
    intro enough
    rw [quasiquotes] at enough ⊢
    have first := expandCarOf_weight inside (by omega) (ihCar (by omega))
    have rest := ihCdr (by omega)
    exact Nat.le_trans (expandPair_weight _ _) (Nat.add_le_add first rest)
  | unquote forms _ =>
    intro _
    simpa [expandCdr, weight, quasiquotes] using quasiquotes_toList forms
  | _ =>
    intro _
    simp [expandCdr, weight, content]

theorem expandCar_weight (inside : ∀ y, y.quasiquotes < limit → weight (again y) ≤ y.quasiquotes)
    {t : Template} (enough : t.quasiquotes ≤ limit) :
    weight (expandCar again t) ≤ t.quasiquotes :=
  expandCarOf_weight inside enough (expandCdr_weight inside t enough)

theorem finish_weight (r : Expanded) : (finish r).quasiquotes ≤ weight r := by
  unfold finish
  split
  · rename_i quote
    simpa using content_weight quote
  · rename_i evaluated
    rw [weight, if_neg evaluated]
    exact quasiquotes_headD _

theorem expandNested_weight (n : Nat) :
    ∀ y, y.quasiquotes < n → weight (expandNested n y) ≤ y.quasiquotes := by
  induction n with
  | zero => exact fun y never => absurd never (not_lt_zero _)
  | succ n inside =>
    intro y enough
    have whole : (expandWith (expandNested n) y).quasiquotes ≤ y.quasiquotes :=
      Nat.le_trans (finish_weight _) (expandCar_weight inside (le_of_lt_succ enough))
    exact Nat.le_trans
      (expandCar_weight inside (Nat.le_trans whole (le_of_lt_succ enough))) whole

theorem expandCdr_congr (same : ∀ y, y.quasiquotes < limit → again y = again' y) (t : Template) :
    t.quasiquotes ≤ limit → expandCdr again t = expandCdr again' t ∧
      expandCar again t = expandCar again' t := by
  induction t with
  | cons car cdr ihCar ihCdr =>
    intro enough
    rw [quasiquotes] at enough
    have first := (ihCar (by omega)).2
    have tails : expandCdr again (.cons car cdr) = expandCdr again' (.cons car cdr) := by
      rw [expandCdr, expandCdr, (ihCdr (by omega)).1]
      exact congrArg (expandPair · _) first
    exact ⟨tails, by rw [expandCar, expandCar, tails]; rfl⟩
  | quasi y _ =>
    intro enough
    refine ⟨rfl, ?_⟩
    rw [expandCar, expandCar, expandCarOf, expandCarOf, same y enough]
  | _ => exact fun _ => ⟨rfl, rfl⟩

theorem expandNested_eq (limit : Nat) : ∀ y : Template, y.quasiquotes < limit →
    ∀ {n m : Nat}, y.quasiquotes < n → y.quasiquotes < m → expandNested n y = expandNested m y := by
  induction limit with
  | zero => exact fun y never => absurd never (not_lt_zero _)
  | succ limit ih =>
    intro y below n m enough enough'
    cases n with
    | zero => exact absurd enough (not_lt_zero _)
    | succ n =>
      cases m with
      | zero => exact absurd enough' (not_lt_zero _)
      | succ m =>
        have same : ∀ z : Template, z.quasiquotes < y.quasiquotes →
            expandNested n z = expandNested m z := fun z fewer =>
          ih z (by omega) (by omega) (by omega)
        have wholes : expandWith (expandNested n) y = expandWith (expandNested m) y := by
          rw [expandWith, expandWith, (expandCdr_congr same y (Nat.le_refl _)).2]
        have whole : (expandWith (expandNested m) y).quasiquotes ≤ y.quasiquotes :=
          Nat.le_trans (finish_weight _) (expandCar_weight
            (fun z fewer => expandNested_weight m z (by omega)) (Nat.le_refl _))
        rw [expandNested, expandNested, wholes]
        exact (expandCdr_congr same _ whole).2

theorem expandNested_again {n : Nat} {y : Template} (enough : y.quasiquotes < n) :
    expandNested n y = expandAgain y :=
  expandNested_eq n y enough enough (lt_succ_self _)

end Depth

theorem expandWith_nested {n : Nat} {y : Template} (enough : y.quasiquotes ≤ n) :
    expandWith (expandNested n) y = expand y := by
  rw [expand, expandWith, expandWith,
    (expandCdr_congr (fun z fewer => expandNested_again (by omega)) y enough).2]

theorem expand_quasiquotes (y : Template) : (expand y).quasiquotes ≤ y.quasiquotes :=
  Nat.le_trans (finish_weight _) (expandCar_weight
    (fun z _ => expandNested_weight (z.quasiquotes + 1) z (lt_succ_self _)) (Nat.le_refl _))

/-- A nested template is expanded, and the result is read as a part of the outer one. -/
theorem expandAgain_eq (y : Template) : expandAgain y = expandCar expandAgain (expand y) := by
  rw [expandAgain, expandNested, expandWith_nested (Nat.le_refl _)]
  exact (expandCdr_congr (fun z fewer => expandNested_again fewer) _ (expand_quasiquotes y)).2

end Template

end Ecl.Backquote
