import Mathlib.Data.List.Nodup
import Ecl.Reader.Graph

/- What the readers make of a text: its places in parentheses, and pairs in place of references. -/
namespace Ecl.Reader

open List Prod

open Ecl.Lib (ok_bind error_bind bind_eq_ok)

/-- The object for a text in parentheses. -/
def Expression.cell : Expression → List Value → Cell
  | .cons _ _, [car, cdr] => .cons car cdr
  | _, vs => .vector vs

variable {es : List Expression}

theorem readObject_of_parts {e : Expression} (parts : e.parts = some es) (s : ReadState) :
    readObject e s = readObjects es s >>= fun (vs, s) =>
      .ok (.object (s.alloc (e.cell vs)).1, (s.alloc (e.cell vs)).2) := by
  cases e with
  | atom a => cases parts
  | cons car cdr =>
    cases parts
    simp only [readObject, readObjects]
    cases readObject car s with
    | error fault => rfl
    | ok found =>
      simp only [ok_bind]
      cases readObject cdr found.2 with
      | error fault => rfl
      | ok found => rfl
  | vector elements =>
    cases parts
    simp only [readObject]
    rfl
  | label n e => cases parts
  | ref n => cases parts

theorem readObjects_length : ∀ {s s' : ReadState} {vs : List Value},
    readObjects es s = .ok (vs, s') → vs.length = es.length := by
  induction es with
  | nil =>
    intro s s' vs read
    cases read
    rfl
  | cons e es ih =>
    intro s s' vs read
    rw [readObjects] at read
    obtain ⟨⟨v, s₁⟩, _, read⟩ := bind_eq_ok.mp read
    obtain ⟨⟨others, s₂⟩, rest, read⟩ := bind_eq_ok.mp read
    cases read
    rw [length_cons, length_cons, ih rest]

theorem cell_of_parts {e : Expression} {vs : List Value}
    (parts : e.parts = some es) (length : vs.length = es.length) :
    (e.cell vs).fields = vs ∧ (e.cell vs).isVector = e.isVector := by
  cases e with
  | atom a => cases parts
  | cons car cdr =>
    cases parts
    obtain ⟨a, d, rfl⟩ := length_eq_two.mp length
    exact ⟨rfl, rfl⟩
  | vector elements => exact ⟨rfl, rfl⟩
  | label n e => cases parts
  | ref n => cases parts

/-- A reference is read as the pair of its label. -/
def Refers (context : List (BitVec 62 × Nat)) (n : Nat) (v : Value) : Prop :=
  ∃ p, (argument n, p) ∈ context ∧ v = .object p

/-- What a label is put on is in the CDR of its pair. -/
def Labels (context : List (BitVec 62 × Nat)) (heap : List Cell) (n : Nat) (v : Value) : Prop :=
  ∃ p, (argument n, p) ∈ context ∧ heap[p]? = some (.cons (.atom (.fixnum (argument n))) v)

/-- The state after reading something with the given labels: new pairs, and new objects for its
places. -/
structure Grew (labels : List Nat) (s s' : ReadState) (pairs : List (BitVec 62 × Nat))
    (xs : List Nat) : Prop where
  grows : s.heap.length ≤ s'.heap.length
  kept : ∀ y < s.heap.length, s'.heap[y]? = s.heap[y]?
  context : s'.context = pairs ++ s.context
  keys : pairs.map Prod.fst = (labels.map argument).reverse
  inside : ∀ y ∈ pairs.map Prod.snd ++ xs, s.heap.length ≤ y ∧ y < s'.heap.length
  nodup : (pairs.map Prod.snd ++ xs).Nodup
  distinct : (s.context.map Prod.fst).Nodup → (s'.context.map Prod.fst).Nodup

namespace Grew

variable {labels more : List Nat} {s s' s'' : ReadState} {pairs others : List (BitVec 62 × Nat)}
variable {xs ys : List Nat}

theorem refl (s : ReadState) : Grew [] s s [] [] where
  grows := Nat.le_refl _
  kept := fun _ _ => rfl
  context := rfl
  keys := rfl
  inside := fun y member => by simp at member
  nodup := .nil
  distinct := id

theorem trans (first : Grew labels s s' pairs xs) (second : Grew more s' s'' others ys) :
    Grew (labels ++ more) s s'' (others ++ pairs) (xs ++ ys) where
  grows := Nat.le_trans first.grows second.grows
  kept := by
    intro y below
    have grows := first.grows
    rw [second.kept y (by omega), first.kept y below]
  context := by rw [second.context, first.context, append_assoc]
  keys := by rw [map_append, second.keys, first.keys, map_append, reverse_append]
  inside := by
    intro y member
    have grows := first.grows
    have grows' := second.grows
    simp only [map_append, mem_append] at member
    rcases member with (member | member) | (member | member)
    · have bounds := second.inside y (mem_append_left _ member)
      omega
    · have bounds := first.inside y (mem_append_left _ member)
      omega
    · have bounds := first.inside y (mem_append_right _ member)
      omega
    · have bounds := second.inside y (mem_append_right _ member)
      omega
  nodup := by
    have apart : ∀ y ∈ pairs.map snd ++ xs, ∀ z ∈ others.map snd ++ ys, y ≠ z := by
      intro y member z member'
      have bounds := first.inside y member
      have bounds' := second.inside z member'
      omega
    have both : ((pairs.map snd ++ xs) ++ (others.map snd ++ ys)).Nodup :=
      nodup_append.mpr ⟨first.nodup, second.nodup, apart⟩
    refine List.Perm.nodup ?_ both
    rw [perm_iff_count]
    intro y
    simp only [map_append, count_append]
    omega
  distinct := fun h => second.distinct (first.distinct h)

theorem alloc (grew : Grew labels s s' pairs xs) (c : Cell) :
    Grew labels s (s'.alloc c).2 pairs ((s'.alloc c).1 :: xs) where
  grows := by
    have grows := grew.grows
    simp only [ReadState.alloc, length_append, length_singleton]
    omega
  kept := by
    intro y below
    have grows := grew.grows
    simp only [ReadState.alloc]
    rw [List.getElem?_append_left (by omega), grew.kept y below]
  context := grew.context
  keys := grew.keys
  inside := by
    intro y member
    have grows := grew.grows
    simp only [ReadState.alloc, length_append, length_singleton, mem_append,
      mem_cons] at member ⊢
    rcases member with member | rfl | member
    · have bounds := grew.inside y (mem_append_left _ member)
      omega
    · omega
    · have bounds := grew.inside y (mem_append_right _ member)
      omega
  nodup := by
    have fresh : s'.heap.length ∉ pairs.map snd ++ xs := by
      intro member
      have bounds := grew.inside _ member
      omega
    refine (perm_middle.nodup_iff).mpr ?_
    exact nodup_cons.mpr ⟨fresh, grew.nodup⟩
  distinct := grew.distinct

theorem label {n : Nat} (fresh : argument n ∉ s.context.map fst) (pair : Cell)
    (f : Cell → Cell)
    (grew : Grew labels
      { (s.alloc pair).2 with
        context := (argument n, (s.alloc pair).1) :: s.context } s' pairs xs) :
    Grew (n :: labels) s { s' with heap := s'.heap.modify (s.alloc pair).1 f }
      (pairs ++ [(argument n, (s.alloc pair).1)]) xs := by
  have grows := grew.grows
  have inside := grew.inside
  simp only [ReadState.alloc, length_append, length_singleton] at grows inside ⊢
  constructor
  · simp only [length_modify]
    omega
  · intro y below
    have kept := grew.kept y
    simp only [ReadState.alloc, length_append, length_singleton] at kept
    dsimp only
    rw [List.getElem?_modify_ne _ _ (show s.heap.length ≠ y by omega), kept (by omega),
      List.getElem?_append_left below]
  · rw [grew.context, append_assoc, singleton_append]
    rfl
  · rw [map_append, grew.keys]
    simp
  · intro y member
    simp only [map_append, map_cons, map_nil, mem_append,
      mem_singleton, length_modify] at member ⊢
    rcases member with (member | rfl) | member
    · have bounds := inside y (mem_append_left _ member)
      omega
    · omega
    · have bounds := inside y (mem_append_right _ member)
      omega
  · have new : s.heap.length ∉ pairs.map snd ++ xs := by
      intro member
      have bounds := inside _ member
      omega
    have all := nodup_cons.mpr ⟨new, grew.nodup⟩
    refine List.Perm.nodup ?_ all
    rw [perm_iff_count]
    intro y
    simp only [map_append, map_cons, map_nil, count_append, count_cons,
      count_nil]
    omega
  · intro before
    exact grew.distinct (nodup_cons.mpr ⟨fresh, before⟩)

end Grew

theorem Labels.mono {pairs others : List (BitVec 62 × Nat)} {heap heap' : List Cell} {n : Nat}
    {v : Value} (more : ∀ pair ∈ pairs, pair ∈ others)
    (kept : ∀ pair ∈ pairs, heap'[pair.2]? = heap[pair.2]?) (label : Labels pairs heap n v) :
    Labels others heap' n v := by
  obtain ⟨p, member, cell⟩ := label
  exact ⟨p, more _ member, by rw [kept _ member, cell]⟩

theorem Refers.mono {context more : List (BitVec 62 × Nat)} {n : Nat} {v : Value}
    (grows : ∀ pair ∈ context, pair ∈ more) (refers : Refers context n v) : Refers more n v := by
  obtain ⟨p, member, same⟩ := refers
  exact ⟨p, grows _ member, same⟩

/-- What a successful reading makes. -/
def Reads (e : Expression) (s : ReadState) (v : Value) (s' : ReadState) : Prop :=
  ∃ pairs xs, Grew e.labels s s' pairs xs ∧
    Shape (Refers s'.context) (Labels pairs s'.heap) s'.heap e v xs

theorem readObjects_reads
    (all : ∀ e ∈ es, ∀ s v s', readObject e s = .ok (v, s') → Reads e s v s') :
    ∀ {s s' : ReadState} {vs : List Value}, readObjects es s = .ok (vs, s') →
      ∃ pairs xs, Grew (Expression.allLabels es) s s' pairs xs ∧
        Shapes (Refers s'.context) (Labels pairs s'.heap) s'.heap es vs xs := by
  induction es with
  | nil =>
    intro s s' vs read
    cases read
    exact ⟨[], [], .refl s, .nil⟩
  | cons e es ih =>
    intro s s' vs read
    rw [readObjects] at read
    obtain ⟨⟨v, s₁⟩, first, read⟩ := bind_eq_ok.mp read
    obtain ⟨⟨others, s₂⟩, rest, read⟩ := bind_eq_ok.mp read
    cases read
    obtain ⟨pairs, xs, grew, shape⟩ := all e (by simp) _ _ _ first
    obtain ⟨pairs', ys, grew', shapes⟩ := ih (fun e' member => all e' (by simp [member])) rest
    refine ⟨pairs' ++ pairs, xs ++ ys, grew.trans grew', .cons ?_ ?_⟩
    · apply Shape.mono _ _ e v xs shape
      · intro x member
        exact grew'.kept x (grew.inside x (mem_append_right _ member)).2
      · intro n w refers
        exact refers.mono fun pair member => by simp [grew'.context, member]
      · intro n w label
        apply label.mono fun pair member => by simp [member]
        intro pair member
        have named : pair.2 ∈ pairs.map snd ++ xs :=
          mem_append_left _ (mem_map_of_mem member)
        exact grew'.kept _ (grew.inside _ named).2
    · apply Shapes.of_all _ shapes fun x _ => rfl
      intro e' _ w zs shape' _
      apply Shape.mono (fun n w refers => refers) _ e' w zs shape' fun x _ => rfl
      intro n w label
      exact label.mono (fun pair member => by simp [member]) fun pair _ => rfl

variable {s : ReadState}

theorem assq_eq_none {d : BitVec 62} : s.assq d = none ↔ d ∉ s.context.map fst := by
  rw [ReadState.assq, Option.map_eq_none_iff, List.find?_eq_none]
  simp only [mem_map, beq_iff_eq]
  constructor
  · intro none ⟨pair, member, same⟩
    exact none pair member same
  · intro absent pair member same
    exact absent ⟨pair, member, same⟩

theorem assq_mem {d : BitVec 62} {p : Nat} (found : s.assq d = some p) : (d, p) ∈ s.context := by
  rw [ReadState.assq, Option.map_eq_some_iff] at found
  obtain ⟨pair, found, rfl⟩ := found
  have same := List.find?_some found
  rw [beq_iff_eq] at same
  rw [← same]
  exact mem_of_find?_eq_some found

/-- One case for each way to write an expression; the one for a label is the one that changes an
object that was there before: its own pair. -/
theorem readObject_reads (e : Expression) :
    ∀ s v s', readObject e s = .ok (v, s') → Reads e s v s' := by
  induction e using Expression.induct with
  | atom a =>
    intro s v s' read
    cases read
    exact ⟨[], [], .refl s, .atom a⟩
  | node e es parts ih =>
    intro s v s' read
    rw [readObject_of_parts parts] at read
    obtain ⟨⟨vs, s₁⟩, all, read⟩ := bind_eq_ok.mp read
    cases read
    obtain ⟨pairs, xs, grew, shapes⟩ := readObjects_reads ih all
    have ⟨fields, kind⟩ := cell_of_parts parts (readObjects_length all)
    have cell : (s₁.alloc (e.cell vs)).2.heap[(s₁.alloc (e.cell vs)).1]? = some (e.cell vs) := by
      simp [ReadState.alloc]
    have labels : e.labels = Expression.allLabels es := Expression.labels_of_parts parts
    refine ⟨pairs, (s₁.alloc (e.cell vs)).1 :: xs, labels ▸ grew.alloc _,
      .node parts cell kind ?_⟩
    rw [fields]
    have kept : ∀ x ∈ pairs.map snd ++ xs,
        (s₁.alloc (e.cell vs)).2.heap[x]? = s₁.heap[x]? := by
      intro x member
      exact List.getElem?_append_left (grew.inside x member).2
    apply Shapes.of_all _ shapes fun x member => kept x (mem_append_right _ member)
    intro e' _ w zs shape same
    apply Shape.mono (fun n w refers => refers) _ e' w zs shape same
    intro n w label
    apply label.mono fun pair member => member
    intro pair member
    exact kept _ (mem_append_left _ (mem_map_of_mem member))
  | label n e ih =>
    intro s v s' read
    rw [readObject, sharpEqReader] at read
    split at read
    · cases read
    · rename_i absent
      have fresh : argument n ∉ s.context.map fst := by
        rw [← assq_eq_none]
        simpa using absent
      obtain ⟨⟨w, s₁⟩, inner, read⟩ := bind_eq_ok.mp read
      dsimp only at read
      split at read
      · cases read
      · cases read
        obtain ⟨pairs, xs, grew, shape⟩ := ih _ _ _ inner
        have whole := grew.label fresh (.cons (.atom (.fixnum (argument n))) (.atom .nil))
          (·.setField 1 v)
        refine ⟨_, xs, whole, .label ?_ ?_⟩
        · refine ⟨s.heap.length, by simp [ReadState.alloc], ?_⟩
          have pair := grew.kept s.heap.length (by simp)
          simp only [List.getElem?_concat_length] at pair
          simp only [List.getElem?_modify, ↓reduceIte, pair]
          rfl
        · have other : ∀ y ∈ pairs.map snd ++ xs,
              (s₁.heap.modify s.heap.length (·.setField 1 v))[y]? = s₁.heap[y]? := by
            intro y member
            have bounds := grew.inside y member
            simp only [length_append, length_singleton] at bounds
            exact List.getElem?_modify_ne _ _ (by omega)
          apply Shape.mono (fun m w refers => refers) _ e v xs shape
          · intro x member
            exact other x (mem_append_right _ member)
          · intro m w label
            apply label.mono fun pair member => mem_append_left _ member
            intro pair member
            exact other _ (mem_append_left _ (mem_map_of_mem member))
  | ref n =>
    intro s v s' read
    rw [readObject, sharpSharpReader] at read
    split at read
    · cases read
    · rename_i p found
      cases read
      exact ⟨[], [], .refl s, .ref ⟨p, assq_mem found, rfl⟩⟩

/-- What a reference stands for is a pair, anything else is a new object or an atom. -/
theorem Shape.target_cases {refers labels : Nat → Value → Prop} {heap : List Cell}
    (e : Expression) : ∀ v xs, Shape refers labels heap e v xs →
      (∀ n, e.target = some n → refers n v) ∧
        (e.target = none → ∀ p, v = .object p → p ∈ xs) := by
  induction e using Expression.induct with
  | atom a =>
    intro v xs shape
    cases shape with
    | atom =>
      constructor
      · intro n same
        cases same
      · intro _ p same
        cases same
    | node parts => cases parts
  | node e es parts ih =>
    intro v xs shape
    have none := Expression.target_of_parts parts
    obtain ⟨x, c, ys, rfl, rfl, _⟩ := shape.parts_inv parts
    constructor
    · intro n same
      rw [none] at same
      cases same
    · intro _ p same
      cases same
      exact mem_cons_self
  | label n e ih =>
    intro v xs shape
    cases shape with
    | node parts => cases parts
    | label labelled shape => exact ih v xs shape
  | ref n =>
    intro v xs shape
    cases shape with
    | node parts => cases parts
    | ref referred =>
      constructor
      · intro m same
        cases same
        exact referred
      · intro same
        cases same

theorem Expression.target_known (e : Expression) : ∀ {known : List Nat} {n : Nat},
    Scoped known e → e.target = some n → n ∈ e.labels ++ known := by
  induction e using Expression.induct with
  | atom a =>
    intro known n _ same
    cases same
  | node e es parts _ =>
    intro known n _ same
    rw [target_of_parts parts] at same
    cases same
  | label m e ih =>
    intro known n known' same
    have member := ih known' same
    simp only [labels_label, mem_append, mem_cons] at member ⊢
    tauto
  | ref m =>
    intro known n known' same
    cases same
    exact mem_append_right _ known'

/-- The state in front of a text whose references are to the known labels and its own. -/
structure Expects (labels known : List Nat) (s : ReadState) : Prop where
  keys : ∀ d, d ∈ s.context.map Prod.fst ↔ d ∈ known.map argument
  made : ∀ pair ∈ s.context, pair.2 < s.heap.length
  distinct : ((labels ++ known).map argument).Nodup

theorem Expects.after {labels more known : List Nat} {s' : ReadState}
    {pairs : List (BitVec 62 × Nat)} {xs : List Nat} (expects : Expects (labels ++ more) known s)
    (grew : Grew labels s s' pairs xs) : Expects more (labels ++ known) s' where
  keys := by
    intro d
    have keys := expects.keys d
    rw [grew.context, map_append, mem_append, grew.keys, keys, map_append,
      mem_append, mem_reverse]
  made := by
    intro pair member
    rw [grew.context, mem_append] at member
    cases member with
    | inl new =>
      exact (grew.inside pair.2 (mem_append_left _ (mem_map_of_mem new))).2
    | inr old => exact Nat.lt_of_lt_of_le (expects.made pair old) grew.grows
  distinct := by
    refine List.Perm.nodup ?_ expects.distinct
    apply List.Perm.map
    rw [perm_iff_count]
    intro n
    simp only [count_append]
    omega

theorem Expects.first {labels more known : List Nat}
    (expects : Expects (labels ++ more) known s) : Expects labels known s where
  keys := expects.keys
  made := expects.made
  distinct := by
    refine expects.distinct.sublist (List.Sublist.map _ ?_)
    rw [append_assoc]
    exact (List.Sublist.refl _).append (sublist_append_right _ _)

theorem readObjects_ok
    (all : ∀ e ∈ es, ∀ known s, Expression.Scoped known e → Expects e.labels known s →
      ∃ v s', readObject e s = .ok (v, s')) :
    ∀ {known : List Nat} {s : ReadState}, Expression.ScopedAll known es →
      Expects (Expression.allLabels es) known s → ∃ vs s', readObjects es s = .ok (vs, s') := by
  induction es with
  | nil => exact fun {_ s} _ _ => ⟨[], s, rfl⟩
  | cons e es ih =>
    intro known s inScope expects
    have labels : Expression.allLabels (e :: es) = e.labels ++ Expression.allLabels es := rfl
    rw [labels] at expects
    obtain ⟨v, s₁, first⟩ := all e (by simp) known s inScope.1 expects.first
    obtain ⟨pairs, xs, grew, _⟩ := readObject_reads e _ _ _ first
    obtain ⟨vs, s₂, rest⟩ := ih (fun e' member => all e' (by simp [member])) inScope.2
      (expects.after grew)
    refine ⟨v :: vs, s₂, ?_⟩
    rw [readObjects, first, ok_bind]
    dsimp only
    rw [rest, ok_bind]

theorem readObject_ok (e : Expression) : ∀ known s, Expression.Scoped known e →
    Expects e.labels known s →
    (∀ n body, .label n body ∈ e.subs → body.target ≠ some n) →
    ∃ v s', readObject e s = .ok (v, s') := by
  induction e using Expression.induct with
  | atom a => exact fun _ s _ _ _ => ⟨.atom a, s, rfl⟩
  | node e es parts ih =>
    intro known s inScope expects defined
    rw [Expression.labels_of_parts parts] at expects
    have each : ∀ p ∈ es, ∀ known s, Expression.Scoped known p → Expects p.labels known s →
        ∃ v s', readObject p s = .ok (v, s') := by
      intro p member known s inScope expects
      apply ih p member known s inScope expects
      intro n body inside
      apply defined n body
      rw [Expression.subs_of_parts parts, Expression.allSubs_eq]
      exact mem_cons_of_mem _ (mem_flatMap.mpr ⟨p, member, inside⟩)
    obtain ⟨vs, s', all⟩ :=
      readObjects_ok each ((Expression.scoped_of_parts parts).mp inScope) expects
    rw [readObject_of_parts parts, all, ok_bind]
    exact ⟨_, _, rfl⟩
  | label n e ih =>
    intro known s inScope expects defined
    rw [Expression.labels_label] at expects
    have fresh : argument n ∉ s.context.map fst := by
      rw [expects.keys]
      have distinct := expects.distinct
      rw [cons_append, map_cons, nodup_cons, map_append,
        mem_append] at distinct
      exact fun member => distinct.1 (.inr member)
    have absent : s.assq (argument n) = none := assq_eq_none.mpr fresh
    let pair : Cell := .cons (.atom (.fixnum (argument n))) (.atom .nil)
    let start : ReadState :=
      { (s.alloc pair).2 with context := (argument n, (s.alloc pair).1) :: s.context }
    have expects' : Expects e.labels (n :: known) start := by
      constructor
      · intro d
        have keys := expects.keys d
        simp only [start, map_cons, mem_cons, keys]
      · intro other member
        simp only [start, ReadState.alloc, mem_cons, length_append,
          length_singleton] at member ⊢
        cases member with
        | inl same => rw [same]; omega
        | inr old =>
          have made := expects.made other old
          omega
      · refine List.Perm.nodup ?_ expects.distinct
        exact List.Perm.map _ perm_middle.symm
    obtain ⟨v, s₁, inner⟩ := ih (n :: known) start inScope expects' fun m body inside =>
      defined m body (mem_cons_of_mem _ inside)
    obtain ⟨pairs, xs, grew, shape⟩ := readObject_reads e _ _ _ inner
    have other : v ≠ .object s.heap.length := by
      intro same
      have inside := grew.inside
      simp only [start, ReadState.alloc, length_append, length_singleton] at inside
      have ⟨pointed, made⟩ := Shape.target_cases e v xs shape
      cases target : e.target with
      | none =>
        have bounds := inside _ (mem_append_right _ (made target _ same))
        omega
      | some m =>
        obtain ⟨p, member, same'⟩ := pointed m target
        rw [same] at same'
        cases same'
        have argument_eq : argument m = argument n := by
          rw [grew.context, mem_append] at member
          simp only [start, ReadState.alloc, mem_cons, mk.injEq] at member
          rcases member with new | same | old
          · have bounds := inside _ (mem_append_left _ (mem_map_of_mem new))
            omega
          · exact same.1
          · have made := expects.made _ old
            omega
        have named : m ∈ n :: e.labels ++ known := by
          have member := Expression.target_known e inScope target
          simp only [mem_append, mem_cons] at member ⊢
          tauto
        have same : m = n := inj_on_of_nodup_map expects.distinct named (by simp) argument_eq
        exact defined n e mem_cons_self (same ▸ target)
    refine ⟨v, { s₁ with heap := s₁.heap.modify s.heap.length (·.setField 1 v) }, ?_⟩
    have inner' : readObject e { (s.alloc pair).2 with
        context := (argument n, (s.alloc pair).1) :: (s.alloc pair).2.context } = .ok (v, s₁) :=
      inner
    rw [readObject, sharpEqReader, absent]
    dsimp only [Option.isSome]
    rw [if_neg Bool.false_ne_true, inner', ok_bind]
    exact if_neg other
  | ref n =>
    intro known s inScope expects _
    have found : argument n ∈ s.context.map fst := by
      rw [expects.keys]
      exact mem_map_of_mem inScope
    cases result : s.assq (argument n) with
    | none => exact absurd found (assq_eq_none.mp result)
    | some p =>
      refine ⟨.object p, s, ?_⟩
      rw [readObject, sharpSharpReader, result]

end Ecl.Reader
