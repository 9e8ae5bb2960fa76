import Ecl.Reader.Labels

/- The graph that a text with labels denotes. -/
namespace Ecl.Reader

open List

namespace Expression

/-- What is written between the parentheses. -/
def parts : Expression → Option (List Expression)
  | .cons car cdr => some [car, cdr]
  | .vector elements => some elements
  | _ => none

def isVector : Expression → Bool
  | .vector _ => true
  | _ => false

theorem induct {motive : Expression → Prop} (atom : ∀ a, motive (.atom a))
    (node : ∀ e es, e.parts = some es → (∀ p ∈ es, motive p) → motive e)
    (label : ∀ n e, motive e → motive (.label n e)) (ref : ∀ n, motive (.ref n)) :
    ∀ e, motive e
  | .atom a => atom a
  | .cons car cdr => by
      have first := induct atom node label ref car
      have second := induct atom node label ref cdr
      exact node _ [car, cdr] rfl (by simp [first, second])
  | .vector elements => node _ elements rfl fun p _ => induct atom node label ref p
  | .label n e => label n e (induct atom node label ref e)
  | .ref n => ref n

mutual

/-- The expressions inside of an expression, from left to right. -/
def subs : Expression → List Expression
  | .atom a => [.atom a]
  | .cons car cdr => .cons car cdr :: (subs car ++ subs cdr)
  | .vector elements => .vector elements :: allSubs elements
  | .label n e => .label n e :: subs e
  | .ref n => [.ref n]

def allSubs : List Expression → List Expression
  | [] => []
  | e :: es => subs e ++ allSubs es

end

/-- The labels, from left to right. -/
def labels (e : Expression) : List Nat :=
  e.subs.filterMap fun
    | .label n _ => some n
    | _ => none

def allLabels (es : List Expression) : List Nat := es.flatMap labels

/-- The reference that is labelled, directly or through other labels. -/
def target : Expression → Option Nat
  | .ref n => some n
  | .label _ e => e.target
  | _ => none

mutual

/-- Every reference is inside of its label or after it. -/
def Scoped (known : List Nat) : Expression → Prop
  | .atom _ => True
  | .cons car cdr => Scoped known car ∧ Scoped (car.labels ++ known) cdr
  | .vector elements => ScopedAll known elements
  | .label n e => Scoped (n :: known) e
  | .ref n => n ∈ known

def ScopedAll (known : List Nat) : List Expression → Prop
  | [] => True
  | e :: es => Scoped known e ∧ ScopedAll (e.labels ++ known) es

end

/-- A text with a meaning: labels are distinct, and none of them is defined by itself. -/
structure WellFormed (e : Expression) : Prop where
  distinct : e.labels.Nodup
  inScope : Scoped [] e
  defined : ∀ n body, .label n body ∈ e.subs → body.target ≠ some n

theorem allSubs_eq (es : List Expression) : allSubs es = es.flatMap subs := by
  induction es with
  | nil => rfl
  | cons e es ih => rw [allSubs, ih, flatMap_cons]

variable {e : Expression} {es : List Expression}

theorem subs_of_parts (parts : e.parts = some es) : e.subs = e :: allSubs es := by
  cases e with
  | atom a => cases parts
  | cons car cdr =>
    cases parts
    simp [subs, allSubs]
  | vector elements =>
    cases parts
    rfl
  | label n e => cases parts
  | ref n => cases parts

theorem labels_of_parts (parts : e.parts = some es) : e.labels = allLabels es := by
  have others : e.labels = (allSubs es).filterMap fun
      | .label n _ => some n
      | _ => none := by
    unfold labels
    rw [subs_of_parts parts]
    cases e with
    | atom a => cases parts
    | cons car cdr => rfl
    | vector elements => rfl
    | label n e => cases parts
    | ref n => cases parts
  rw [others, allSubs_eq, filterMap_flatMap]
  rfl

@[simp] theorem labels_label (n : Nat) (e : Expression) : (label n e).labels = n :: e.labels := rfl

theorem target_of_parts (parts : e.parts = some es) : e.target = none := by
  cases e with
  | atom a => cases parts
  | cons car cdr => rfl
  | vector elements => rfl
  | label n e => cases parts
  | ref n => cases parts

theorem scoped_of_parts {known : List Nat}
    (parts : e.parts = some es) : Scoped known e ↔ ScopedAll known es := by
  cases e with
  | atom a => cases parts
  | cons car cdr =>
    cases parts
    simp [Scoped, ScopedAll]
  | vector elements =>
    cases parts
    simp [Scoped]
  | label n e => cases parts
  | ref n => cases parts

end Expression

section

variable (refers labels : Nat → Value → Prop) (heap : List Cell)

mutual

/-- The value is what the text says in every place: atoms, objects with as many fields as there
are parts, and at labels and references what the two relations demand. The list has the objects
for the places that are in parentheses. -/
inductive Shape : Expression → Value → List Nat → Prop where
  | atom (a : Atom) : Shape (.atom a) (.atom a) []
  | node {e : Expression} {es : List Expression} {x : Nat} {c : Cell} {xs : List Nat}
      (parts : e.parts = some es) (cell : heap[x]? = some c) (kind : c.isVector = e.isVector)
      (fields : Shapes es c.fields xs) : Shape e (.object x) (x :: xs)
  | label {n : Nat} {e : Expression} {v : Value} {xs : List Nat} (labelled : labels n v)
      (shape : Shape e v xs) : Shape (.label n e) v xs
  | ref {n : Nat} {v : Value} (referred : refers n v) : Shape (.ref n) v []

inductive Shapes : List Expression → List Value → List Nat → Prop where
  | nil : Shapes [] [] []
  | cons {e : Expression} {es : List Expression} {v : Value} {vs : List Value} {xs ys : List Nat}
      (first : Shape e v xs) (rest : Shapes es vs ys) : Shapes (e :: es) (v :: vs) (xs ++ ys)

end

end

inductive Reaches (heap : List Cell) (v : Value) : Value → Prop where
  | refl : Reaches heap v v
  | field {x : Nat} {c : Cell} {w : Value} (before : Reaches heap v (.object x))
      (cell : heap[x]? = some c) (member : w ∈ c.fields) : Reaches heap v w

/-- The value is the graph: each label and each reference to it are one object, different places
in parentheses are different objects, and there are no others. -/
def IsGraph (heap : List Cell) (e : Expression) (v : Value) : Prop :=
  ∃ (value : Nat → Value) (xs : List Nat),
    Shape (fun n w => w = value n) (fun n w => w = value n) heap e v xs ∧ xs.Nodup ∧
      ∀ y, Reaches heap v (.object y) → y ∈ xs

/-- Reading the text ends with the graph that it denotes, in which no placeholder remains. -/
def Denotes (e : Expression) : Prop :=
  ∃ v s, (∀ fuel, e.subs.length ≤ fuel → eclReadObjectNonRecursive fuel e = .ok (some (v, s))) ∧
    IsGraph s.heap e v ∧ ∀ pair ∈ s.context, ¬ Reaches s.heap v (.object pair.2)

variable {refers refers' labels labels' : Nat → Value → Prop} {heap heap' : List Cell}

variable {es : List Expression}

theorem Shape.parts_inv {e : Expression} {v : Value} {xs : List Nat}
    (parts : e.parts = some es) (shape : Shape refers labels heap e v xs) :
    ∃ x c ys, v = .object x ∧ xs = x :: ys ∧ heap[x]? = some c ∧ c.isVector = e.isVector ∧
      Shapes refers labels heap es c.fields ys := by
  cases shape with
  | atom a => cases parts
  | @node _ es' x c ys parts' cell kind fields =>
    rw [parts] at parts'
    cases parts'
    exact ⟨x, c, ys, rfl, rfl, cell, kind, fields⟩
  | label labelled shape => cases parts
  | ref referred => cases parts

theorem Shapes.of_all (all : ∀ e ∈ es, ∀ v xs, Shape refers labels heap e v xs →
      (∀ x ∈ xs, heap'[x]? = heap[x]?) → Shape refers' labels' heap' e v xs) :
    ∀ {vs : List Value} {xs : List Nat}, Shapes refers labels heap es vs xs →
      (∀ x ∈ xs, heap'[x]? = heap[x]?) → Shapes refers' labels' heap' es vs xs := by
  induction es with
  | nil =>
    intro vs xs shapes _
    cases shapes
    exact .nil
  | cons e es ih =>
    intro vs xs shapes same
    cases shapes with
    | cons first rest =>
      have first' := all e (by simp) _ _ first fun x member => same x (by simp [member])
      have rest' := ih (fun e' member => all e' (by simp [member])) rest fun x member =>
        same x (by simp [member])
      exact .cons first' rest'

theorem Shape.mono (refer : ∀ n v, refers n v → refers' n v)
    (label : ∀ n v, labels n v → labels' n v) (e : Expression) :
    ∀ v xs, Shape refers labels heap e v xs → (∀ x ∈ xs, heap'[x]? = heap[x]?) →
      Shape refers' labels' heap' e v xs := by
  induction e using Expression.induct with
  | atom a =>
    intro v xs shape _
    cases shape with
    | atom => exact .atom a
    | node parts => cases parts
  | node e es parts ih =>
    intro v xs shape same
    obtain ⟨x, c, ys, rfl, rfl, cell, kind, fields⟩ := shape.parts_inv parts
    have cell' : heap'[x]? = some c := by rw [same x (by simp), cell]
    exact .node parts cell' kind
      (Shapes.of_all ih fields fun y member => same y (by simp [member]))
  | label n e ih =>
    intro v xs shape same
    cases shape with
    | node parts => cases parts
    | label labelled shape => exact .label (label n v labelled) (ih v xs shape same)
  | ref n =>
    intro v xs shape _
    cases shape with
    | node parts => cases parts
    | ref referred => exact .ref (refer n v referred)

variable {f : Value → Value}

/-- The objects are still themselves, with other fields. -/
def Replaced (f : Value → Value) (xs : List Nat) (heap heap' : List Cell) : Prop :=
  ∀ x ∈ xs, f (.object x) = .object x ∧ heap'[x]? = heap[x]?.map (·.map f)

theorem Shapes.mem : ∀ {vs : List Value} {xs : List Nat},
    Shapes refers labels heap es vs xs → ∀ p ∈ es, ∃ w ys, w ∈ vs ∧
      Shape refers labels heap p w ys ∧ ∀ y ∈ ys, y ∈ xs := by
  induction es with
  | nil => exact fun _ p member => by cases member
  | cons e es ih =>
    intro vs xs shapes p member
    cases shapes with
    | cons first rest =>
      cases mem_cons.mp member with
      | inl same =>
        rw [same]
        exact ⟨_, _, mem_cons_self, first, fun y member => mem_append_left _ member⟩
      | inr later =>
        obtain ⟨w, ys, found, shape, inside⟩ := ih rest p later
        exact ⟨w, ys, mem_cons_of_mem _ found, shape,
          fun y member => mem_append_right _ (inside y member)⟩

theorem Reaches.trans {v w u : Value} (first : Reaches heap v w) (second : Reaches heap w u) :
    Reaches heap v u := by
  induction second with
  | refl => exact first
  | field before cell member ih => exact .field ih cell member

/-- Every place of the text has a value, which can be reached after the fields were replaced. -/
theorem Shape.sub_reached (e : Expression) : ∀ v xs, Shape refers labels heap e v xs →
      Replaced f xs heap heap' →
      ∀ p ∈ e.subs, ∃ w ys, Shape refers labels heap p w ys ∧ (∀ y ∈ ys, y ∈ xs) ∧
        Reaches heap' (f v) (f w) := by
  induction e using Expression.induct with
  | atom a =>
    intro v xs shape _ p member
    cases mem_singleton.mp member
    exact ⟨v, xs, shape, fun y member => member, .refl⟩
  | node e es parts ih =>
    intro v xs shape changed p member
    rw [Expression.subs_of_parts parts, mem_cons, Expression.allSubs_eq,
      mem_flatMap] at member
    cases member with
    | inl same =>
      rw [same]
      exact ⟨v, xs, shape, fun y member => member, .refl⟩
    | inr inner =>
      obtain ⟨q, part, member⟩ := inner
      obtain ⟨x, c, ys, rfl, rfl, cell, kind, fields⟩ := shape.parts_inv parts
      obtain ⟨u, zs, field, shape', inside⟩ := fields.mem q part
      obtain ⟨w, ws, found, within, reached⟩ := ih q part u zs shape'
        (fun y member => changed y (mem_cons_of_mem _ (inside y member))) p member
      have ⟨same, cell'⟩ := changed x mem_cons_self
      rw [cell] at cell'
      have step : Reaches heap' (f (.object x)) (f u) := by
        rw [same]
        apply Reaches.field .refl cell'
        rw [Cell.fields_map]
        exact mem_map_of_mem field
      exact ⟨w, ws, found, fun y member => mem_cons_of_mem _ (inside y (within y member)),
        step.trans reached⟩
  | label n e ih =>
    intro v xs shape changed p member
    rw [Expression.subs, mem_cons] at member
    cases member with
    | inl same =>
      rw [same]
      exact ⟨v, xs, shape, fun y member => member, .refl⟩
    | inr inner =>
      cases shape with
      | node parts => cases parts
      | label labelled shape => exact ih v xs shape changed p inner
  | ref n =>
    intro v xs shape _ p member
    cases mem_singleton.mp member
    exact ⟨v, xs, shape, fun y member => member, .refl⟩

theorem Shapes.replaced
    (all : ∀ e ∈ es, ∀ v xs, Shape refers labels heap e v xs → Replaced f xs heap heap' →
      Shape refers' labels' heap' e (f v) xs) :
    ∀ {vs : List Value} {xs : List Nat}, Shapes refers labels heap es vs xs →
      Replaced f xs heap heap' →
      Shapes refers' labels' heap' es (vs.map f) xs := by
  induction es with
  | nil =>
    intro vs xs shapes _
    cases shapes
    exact .nil
  | cons e es ih =>
    intro vs xs shapes changed
    cases shapes with
    | cons first rest =>
      have first' := all e (by simp) _ _ first fun x member => changed x (by simp [member])
      have rest' := ih (fun e' member => all e' (by simp [member])) rest fun x member =>
        changed x (by simp [member])
      exact .cons first' rest'

theorem Shape.replaced (atoms : ∀ a, f (.atom a) = .atom a)
    (label : ∀ n v, labels n v → labels' n (f v)) (e : Expression) :
    ∀ v xs, (∀ n v, .ref n ∈ e.subs → refers n v → refers' n (f v)) →
      Shape refers labels heap e v xs →
      Replaced f xs heap heap' →
      Shape refers' labels' heap' e (f v) xs := by
  induction e using Expression.induct with
  | atom a =>
    intro v xs _ shape _
    cases shape with
    | atom =>
      rw [atoms]
      exact .atom a
    | node parts => cases parts
  | node e es parts ih =>
    intro v xs refer shape changed
    obtain ⟨x, c, ys, rfl, rfl, cell, kind, fields⟩ := shape.parts_inv parts
    have ⟨same, cell'⟩ := changed x mem_cons_self
    rw [cell] at cell'
    rw [same]
    refine .node parts cell' ?_ ?_
    · rw [Cell.isVector_map, kind]
    · rw [Cell.fields_map]
      apply Shapes.replaced _ fields fun y member => changed y (mem_cons_of_mem _ member)
      intro p part w zs shape' changed'
      apply ih p part w zs _ shape' changed'
      intro n u member
      apply refer n u
      rw [Expression.subs_of_parts parts, Expression.allSubs_eq]
      exact mem_cons_of_mem _ (mem_flatMap.mpr ⟨p, part, member⟩)
  | label n e ih =>
    intro v xs refer shape changed
    cases shape with
    | node parts => cases parts
    | label labelled shape =>
      exact .label (label n v labelled)
        (ih v xs (fun m u member => refer m u (mem_cons_of_mem _ member)) shape changed)
  | ref n =>
    intro v xs refer shape _
    cases shape with
    | node parts => cases parts
    | ref referred => exact .ref (refer n v mem_cons_self referred)

def Within (xs : List Nat) (v : Value) : Prop := ∀ y, v = .object y → y ∈ xs

theorem Shapes.closed {all : List Nat}
    (each : ∀ e ∈ es, ∀ v xs, Shape refers labels heap e v xs → (∀ x ∈ xs, x ∈ all) →
      Within all v ∧ ∀ x ∈ xs, ∀ c, heap[x]? = some c → ∀ w ∈ c.fields, Within all w) :
    ∀ {vs : List Value} {xs : List Nat}, Shapes refers labels heap es vs xs →
      (∀ x ∈ xs, x ∈ all) →
      (∀ v ∈ vs, Within all v) ∧
        ∀ x ∈ xs, ∀ c, heap[x]? = some c → ∀ w ∈ c.fields, Within all w := by
  induction es with
  | nil =>
    intro vs xs shapes _
    cases shapes
    exact ⟨fun v member => (by cases member), fun x member => (by cases member)⟩
  | cons e es ih =>
    intro vs xs shapes inside
    cases shapes with
    | cons first rest =>
      have ⟨value, cells⟩ := each e (by simp) _ _ first fun x member => inside x (by simp [member])
      have ⟨values, cells'⟩ := ih (fun e' member => each e' (by simp [member])) rest
        fun x member => inside x (by simp [member])
      constructor
      · intro v member
        cases mem_cons.mp member with
        | inl same => exact same ▸ value
        | inr later => exact values v later
      · intro x member
        cases mem_append.mp member with
        | inl own => exact cells x own
        | inr later => exact cells' x later

theorem Shape.closed {all : List Nat} (e : Expression) : ∀ v xs,
    (∀ n v, .ref n ∈ e.subs → refers n v → Within all v) → Shape refers labels heap e v xs →
    (∀ x ∈ xs, x ∈ all) →
    Within all v ∧ ∀ x ∈ xs, ∀ c, heap[x]? = some c → ∀ w ∈ c.fields, Within all w := by
  induction e using Expression.induct with
  | atom a =>
    intro v xs _ shape _
    cases shape with
    | atom => exact ⟨fun y same => (by cases same), fun x member => (by cases member)⟩
    | node parts => cases parts
  | node e es parts ih =>
    intro v xs refer shape inside
    obtain ⟨x, c, ys, rfl, rfl, cell, kind, fields⟩ := shape.parts_inv parts
    have ⟨values, cells⟩ := Shapes.closed (fun p part w zs shape' inside' => by
      apply ih p part w zs _ shape' inside'
      intro n u member
      apply refer n u
      rw [Expression.subs_of_parts parts, Expression.allSubs_eq]
      exact mem_cons_of_mem _ (mem_flatMap.mpr ⟨p, part, member⟩)) fields
        fun y member => inside y (mem_cons_of_mem _ member)
    constructor
    · intro y same
      cases same
      exact inside x mem_cons_self
    · intro y member
      cases mem_cons.mp member with
      | inl same =>
        intro d found w field
        rw [same, cell] at found
        cases found
        exact values w field
      | inr later => exact cells y later
  | label n e ih =>
    intro v xs refer shape inside
    cases shape with
    | node parts => cases parts
    | label labelled shape =>
      exact ih v xs (fun m u member => refer m u (mem_cons_of_mem _ member)) shape inside
  | ref n =>
    intro v xs refer shape _
    cases shape with
    | node parts => cases parts
    | ref referred =>
      exact ⟨refer n v mem_cons_self referred, fun x member => (by cases member)⟩

end Ecl.Reader
