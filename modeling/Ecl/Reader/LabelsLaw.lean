import Ecl.Reader.Reading
import Ecl.Reader.Patching

/- When the object that is read is the graph that the text denotes. -/
namespace Ecl.Reader

open List

open Ecl.Lib (ok_bind error_bind bind_eq_ok)

/-- The entries that patch_sharp makes. -/
def entries (s : ReadState) (x : Nat) : Option Value :=
  if x ∈ s.context.map Prod.snd then consCdr s.heap x else none

theorem foldl_entries (heap : List Cell) (context : List (BitVec 62 × Nat)) :
    ∀ table : Nat → Option Value, context.foldl
      (fun table pair => Function.update table pair.2 (consCdr heap pair.2)) table =
      fun x => if x ∈ context.map Prod.snd then consCdr heap x else table x := by
  induction context with
  | nil =>
    intro table
    funext x
    simp
  | cons pair context ih =>
    intro table
    rw [foldl_cons, ih]
    funext x
    by_cases later : x ∈ context.map Prod.snd
    · simp [later]
    · by_cases same : x = pair.2
      · simp [same]
      · simp [later, same]

theorem patchSharp_eq (fuel : Nat) (v : Value) (s : ReadState) :
    patchSharp fuel v s = doPatchSharp fuel v ⟨s.heap, marked (entries s) []⟩ := by
  have table : marked (entries s) [] = entries s := by
    funext x
    simp [marked]
  rw [patchSharp, foldl_entries, table]
  rfl

/-- The places of a text that was read, and its pairs. -/
structure Whole (e : Expression) (v : Value) (s : ReadState) (xs : List Nat) : Prop where
  shape : Shape (Refers s.context) (Labels s.context s.heap) s.heap e v xs
  nodup : (s.context.map Prod.snd ++ xs).Nodup
  keys : s.context.map Prod.fst = (e.labels.map argument).reverse
  distinct : (s.context.map Prod.fst).Nodup

theorem readObject_whole {e : Expression} {v : Value} {s : ReadState}
    (read : readObject e ⟨[], []⟩ = .ok (v, s)) : ∃ xs, Whole e v s xs := by
  obtain ⟨pairs, xs, grew, shape⟩ := readObject_reads e _ _ _ read
  have context := grew.context
  rw [append_nil] at context
  rw [← context] at shape
  exact ⟨xs, shape, context ▸ grew.nodup, context ▸ grew.keys, grew.distinct .nil⟩

namespace Whole

variable {e : Expression} {v : Value} {s : ReadState} {xs : List Nat}

theorem entry_none (whole : Whole e v s xs) {x : Nat} (member : x ∈ xs) : entries s x = none := by
  have ⟨_, _, apart⟩ := nodup_append.mp whole.nodup
  exact if_neg fun pair => apart x pair x member rfl

theorem entry_label (whole : Whole e v s xs) {n p : Nat} {w : Value}
    (label : Labels s.context s.heap n w) (pair : (argument n, p) ∈ s.context) :
    entries s p = some w := by
  obtain ⟨q, member, cell⟩ := label
  have same : (argument n, p) = (argument n, q) :=
    inj_on_of_nodup_map whole.distinct pair member rfl
  cases same
  have inside : p ∈ s.context.map Prod.snd := mem_map_of_mem pair
  rw [entries, if_pos inside, consCdr, cell]

theorem replaced {heap' : List Cell} (whole : Whole e v s xs)
    (patched : Patched (entries s) xs s.heap heap') :
    Replaced (resolve (entries s)) xs s.heap heap' := by
  intro x member
  constructor
  · rw [resolve, whole.entry_none member]
    rfl
  · rw [patched x, if_pos member]

theorem resolve_ref (whole : Whole e v s xs) {n : Nat} {u w : Value}
    (refers : Refers s.context n u) (label : Labels s.context s.heap n w) :
    resolve (entries s) u = w := by
  obtain ⟨p, pair, rfl⟩ := refers
  rw [resolve, whole.entry_label label pair]
  rfl

theorem resolve_within (whole : Whole e v s xs) {w : Value} (within : Within xs w) :
    resolve (entries s) w = w := by
  cases w with
  | atom a => rfl
  | object y =>
    rw [resolve, whole.entry_none (within y rfl)]
    rfl

end Whole

namespace Expression

theorem mem_labels {e : Expression} {n : Nat} :
    n ∈ e.labels ↔ ∃ body, .label n body ∈ e.subs := by
  simp only [labels, mem_filterMap]
  constructor
  · intro ⟨p, member, found⟩
    cases p with
    | label m body =>
      cases found
      exact ⟨body, member⟩
    | atom a => cases found
    | cons car cdr => cases found
    | vector elements => cases found
    | ref m => cases found
  · intro ⟨body, member⟩
    exact ⟨_, member, rfl⟩

theorem refs_known_all {es : List Expression} {n : Nat}
    (each : ∀ e ∈ es, ∀ known, Scoped known e → .ref n ∈ e.subs → n ∈ e.labels ++ known) :
    ∀ {known : List Nat}, ScopedAll known es → ∀ e ∈ es, .ref n ∈ e.subs →
      n ∈ allLabels es ++ known := by
  induction es with
  | nil => exact fun _ e member => by cases member
  | cons e es ih =>
    intro known inScope p part member
    have labels : allLabels (e :: es) = e.labels ++ allLabels es := rfl
    cases mem_cons.mp part with
    | inl same =>
      have found := each e (by simp) known inScope.1 (same ▸ member)
      simp only [labels, mem_append] at found ⊢
      tauto
    | inr later =>
      have found := ih (fun e' part' => each e' (by simp [part'])) inScope.2 p later member
      simp only [labels, mem_append] at found ⊢
      tauto

theorem refs_known {n : Nat} (e : Expression) : ∀ known, Scoped known e → .ref n ∈ e.subs →
    n ∈ e.labels ++ known := by
  induction e using Expression.induct with
  | atom a =>
    intro known _ member
    cases mem_singleton.mp member
  | node e es parts ih =>
    intro known inScope member
    rw [subs_of_parts parts, mem_cons, allSubs_eq, mem_flatMap] at member
    rw [labels_of_parts parts]
    cases member with
    | inl same =>
      rw [← same] at parts
      cases parts
    | inr inner =>
      obtain ⟨p, part, member⟩ := inner
      exact refs_known_all ih ((scoped_of_parts parts).mp inScope) p part member
  | label m e ih =>
    intro known inScope member
    have inner : .ref n ∈ e.subs := by
      cases mem_cons.mp member with
      | inl same => cases same
      | inr inner => exact inner
    have found := ih (m :: known) inScope inner
    simp only [labels_label, mem_append, mem_cons] at found ⊢
    tauto
  | ref m =>
    intro known inScope member
    cases mem_singleton.mp member
    exact mem_append_right _ inScope

end Expression

theorem resolve_none {pairs : Nat → Option Value} (none : ∀ x, pairs x = none) (v : Value) :
    resolve pairs v = v := by
  cases v with
  | atom a => rfl
  | object x =>
    rw [resolve, none x]
    rfl

theorem Cell.map_of_id {f : Value → Value} (same : ∀ v, f v = v) (c : Cell) : c.map f = c := by
  apply Cell.ext_fields
  · rw [Cell.isVector_map]
  · rw [Cell.fields_map, map_congr_left fun v _ => same v, map_id']

theorem replaced_id (xs : List Nat) (heap : List Cell) : Replaced id xs heap heap := by
  intro x _
  refine ⟨rfl, ?_⟩
  cases heap[x]? with
  | none => rfl
  | some c => rw [Option.map_some, Cell.map_of_id (f := id) fun v => rfl]

namespace Whole

variable {e : Expression} {v : Value} {s : ReadState} {xs : List Nat}

theorem labelled (whole : Whole e v s xs) {n : Nat} {body : Expression}
    (member : .label n body ∈ e.subs) :
    ∃ w ys, Labels s.context s.heap n w ∧
      Shape (Refers s.context) (Labels s.context s.heap) s.heap body w ys ∧ ∀ y ∈ ys, y ∈ xs := by
  obtain ⟨w, ys, shape, inside, _⟩ :=
    Shape.sub_reached e v xs whole.shape (replaced_id xs s.heap) _ member
  cases shape with
  | node parts => cases parts
  | label labelled shape => exact ⟨w, ys, labelled, shape, inside⟩

theorem placed (whole : Whole e v s xs) :
    Shape (Placed (entries s)) (fun _ _ => True) s.heap e v xs := by
  apply Shape.mono _ (fun _ _ _ => trivial) e v xs whole.shape fun x _ => rfl
  intro n u ⟨p, pair, same⟩
  have key : argument n ∈ (e.labels.map argument).reverse := by
    rw [← whole.keys]
    exact mem_map_of_mem pair
  obtain ⟨m, label, equal⟩ := mem_map.mp (mem_reverse.mp key)
  obtain ⟨body, member⟩ := Expression.mem_labels.mp label
  obtain ⟨w, ys, labels, _⟩ := whole.labelled member
  rw [← equal] at pair
  exact ⟨p, w, same, whole.entry_label labels pair⟩

end Whole

theorem eclReadObjectNonRecursive_eq {e : Expression} {v : Value} {s : ReadState} {xs : List Nat}
    (read : readObject e ⟨[], []⟩ = .ok (v, s)) (whole : Whole e v s xs) :
    ∃ heap', Patched (entries s) xs s.heap heap' ∧ ∀ fuel, e.subs.length ≤ fuel →
      eclReadObjectNonRecursive fuel e =
        .ok (some (resolve (entries s) v, { s with heap := heap' })) := by
  by_cases empty : s.context = []
  · have none : ∀ x, entries s x = none := by
      intro x
      simp [entries, empty]
    refine ⟨s.heap, ?_, ?_⟩
    · intro y
      split
      · cases s.heap[y]? with
        | none => rfl
        | some c => rw [Option.map_some, Cell.map_of_id (resolve_none none)]
      · rfl
    · intro fuel _
      rw [resolve_none none, eclReadObjectNonRecursive, read, ok_bind]
      exact if_pos empty
  · have nodup : ([] ++ xs).Nodup := (nodup_append.mp whole.nodup).2.1
    have clean : ∀ y ∈ [] ++ xs, entries s y = none := fun y member => whole.entry_none member
    have patches (fuel : Nat) (enough : e.subs.length ≤ fuel) :=
      doPatchSharp_patches e v xs [] s.heap fuel whole.placed nodup clean enough
    obtain ⟨heap', _, patched⟩ := patches _ (Nat.le_refl _)
    refine ⟨heap', patched, ?_⟩
    intro fuel enough
    obtain ⟨heap₁, run, patched₁⟩ := patches fuel enough
    have same : heap₁ = heap' := by
      apply ext_getElem?
      intro y
      rw [patched₁ y, patched y]
    rw [eclReadObjectNonRecursive, read, ok_bind]
    dsimp only
    rw [if_neg empty, patchSharp_eq, run, same]

/-- No reference is to a label that is put on a reference. -/
def Settled (e : Expression) : Prop :=
  ∀ n body, .ref n ∈ e.subs → .label n body ∈ e.subs → body.target = none

section

variable {e : Expression} {v : Value} {s : ReadState} {xs : List Nat} {heap' : List Cell}

def labelValue (s : ReadState) (n : Nat) : Value :=
  match s.assq (argument n) with
  | some p => resolve (entries s) (resolve (entries s) (.object p))
  | none => .atom .nil

theorem labelValue_eq (whole : Whole e v s xs) {n : Nat} {w : Value}
    (label : Labels s.context s.heap n w) : labelValue s n = resolve (entries s) w := by
  obtain ⟨p, member, cell⟩ := label
  cases found : s.assq (argument n) with
  | none => exact absurd (mem_map_of_mem member) (assq_eq_none.mp found)
  | some q =>
    have refers : Refers s.context n (.object q) := ⟨q, assq_mem found, rfl⟩
    rw [labelValue, found]
    dsimp only
    rw [whole.resolve_ref refers ⟨p, member, cell⟩]

theorem settled_within (whole : Whole e v s xs) (known : ∀ n, .ref n ∈ e.subs → n ∈ e.labels)
    (settled : Settled e) {n : Nat} {u : Value} (member : .ref n ∈ e.subs)
    (refers : Refers s.context n u) :
    Within xs (resolve (entries s) u) ∧ resolve (entries s) u = labelValue s n := by
  obtain ⟨body, label⟩ := Expression.mem_labels.mp (known n member)
  obtain ⟨w, ys, labels, shape, inside⟩ := whole.labelled label
  have none := settled n body member label
  have within : Within xs w := fun y same =>
    inside y ((Shape.target_cases body w ys shape).2 none y same)
  rw [whole.resolve_ref refers labels, labelValue_eq whole labels, whole.resolve_within within]
  exact ⟨within, rfl⟩

theorem labelValue_within (whole : Whole e v s xs) (known : ∀ n, .ref n ∈ e.subs → n ∈ e.labels)
    (settled : Settled e) {n : Nat} (member : .ref n ∈ e.subs) : Within xs (labelValue s n) := by
  obtain ⟨body, label⟩ := Expression.mem_labels.mp (known n member)
  obtain ⟨w, ys, ⟨p, pair, _⟩, _⟩ := whole.labelled label
  have refers : Refers s.context n (.object p) := ⟨p, pair, rfl⟩
  have ⟨within, same⟩ := settled_within whole known settled member refers
  exact same ▸ within

theorem isGraph_of_settled (whole : Whole e v s xs)
    (known : ∀ n, .ref n ∈ e.subs → n ∈ e.labels) (settled : Settled e)
    (patched : Patched (entries s) xs s.heap heap') :
    IsGraph heap' e (resolve (entries s) v) ∧
      ∀ y, Reaches heap' (resolve (entries s) v) (.object y) → y ∈ xs := by
  have final : Shape (fun n w => w = labelValue s n) (fun n w => w = labelValue s n) heap' e
      (resolve (entries s) v) xs := by
    apply Shape.replaced (fun a => rfl) _ e v xs _ whole.shape (whole.replaced patched)
    · intro n w label
      exact (labelValue_eq whole label).symm
    · intro n u member refers
      exact (settled_within whole known settled member refers).2
  have ⟨root, cells⟩ := Shape.closed e _ xs
    (fun n w member same => same ▸ labelValue_within whole known settled member) final
    fun x member => member
  have within : ∀ w, Reaches heap' (resolve (entries s) v) w → Within xs w := by
    intro w reached
    induction reached with
    | refl => exact root
    | field before cell member ih => exact cells _ (ih _ rfl) _ cell _ member
  have reached := fun y reached => within (.object y) reached y rfl
  exact ⟨⟨labelValue s, xs, final, (nodup_append.mp whole.nodup).2.1, reached⟩, reached⟩

/-- A reference to a label that is put on a reference becomes the pair of the latter. -/
theorem placeholder_reached (whole : Whole e v s xs)
    (patched : Patched (entries s) xs s.heap heap') {n k : Nat} {body : Expression}
    (reference : .ref n ∈ e.subs) (label : .label n body ∈ e.subs)
    (target : body.target = some k) :
    ∃ pair ∈ s.context, Reaches heap' (resolve (entries s) v) (.object pair.2) := by
  obtain ⟨u, _, shape, _, reached⟩ :=
    Shape.sub_reached e v xs whole.shape (whole.replaced patched) _ reference
  obtain ⟨w, ys, labels, shape', _⟩ := whole.labelled label
  obtain ⟨p, pair, same⟩ := (Shape.target_cases body w ys shape').1 k target
  have refers : Refers s.context n u := by
    cases shape with
    | node parts => cases parts
    | ref referred => exact referred
  rw [whole.resolve_ref refers labels, same] at reached
  exact ⟨_, pair, reached⟩

end

/-- The object that is read is the graph that the text denotes exactly when no two labels have the
same argument and no reference is to a label that is put on a reference. -/
theorem labels_denote_iff (e : Expression) (formed : e.WellFormed) :
    Denotes e ↔ (e.labels.map argument).Nodup ∧ Settled e := by
  have known : ∀ n, .ref n ∈ e.subs → n ∈ e.labels := by
    intro n member
    simpa using Expression.refs_known e [] formed.inScope member
  constructor
  · intro ⟨v, s, result, _, clean⟩
    have once := result _ (Nat.le_refl _)
    obtain ⟨⟨v₀, s₀⟩, read, _⟩ := bind_eq_ok.mp once
    obtain ⟨xs, whole⟩ := readObject_whole read
    obtain ⟨heap', patched, eq⟩ := eclReadObjectNonRecursive_eq read whole
    rw [eq _ (Nat.le_refl _)] at once
    cases once
    constructor
    · have distinct := whole.distinct
      rw [whole.keys, nodup_reverse] at distinct
      exact distinct
    · intro n body reference label
      cases target : body.target with
      | none => rfl
      | some k =>
        obtain ⟨pair, member, reached⟩ :=
          placeholder_reached whole patched reference label target
        exact absurd reached (clean pair member)
  · intro ⟨distinct, settled⟩
    have expects : Expects e.labels [] ⟨[], []⟩ := by
      constructor
      · intro d
        simp
      · intro pair member
        cases member
      · rw [append_nil]
        exact distinct
    obtain ⟨v, s, read⟩ := readObject_ok e [] ⟨[], []⟩ formed.inScope expects formed.defined
    obtain ⟨xs, whole⟩ := readObject_whole read
    obtain ⟨heap', patched, eq⟩ := eclReadObjectNonRecursive_eq read whole
    have ⟨graph, reached⟩ := isGraph_of_settled whole known settled patched
    refine ⟨_, _, eq, graph, ?_⟩
    intro pair member reaches
    have ⟨_, _, apart⟩ := nodup_append.mp whole.nodup
    exact apart _ (mem_map_of_mem member) _ (reached _ reaches) rfl

/-- #1=(#1# . #2=(nil . #2#)). -/
def twoCycles : Expression :=
  .label 1 (.cons (.ref 1) (.label 2 (.cons (.atom .nil) (.ref 2))))

theorem twoCycles_formed : twoCycles.WellFormed where
  distinct := by simp [twoCycles, Expression.labels, Expression.subs]
  inScope := by simp [twoCycles, Expression.Scoped]
  defined := by
    intro n body member
    simp [twoCycles, Expression.subs] at member
    obtain ⟨rfl, rfl⟩ | ⟨rfl, rfl⟩ := member
    · simp [Expression.target]
    · simp [Expression.target]

theorem labels_denote_iff_twoCycles :
    Denotes twoCycles ↔ (twoCycles.labels.map argument).Nodup ∧ Settled twoCycles :=
  labels_denote_iff twoCycles twoCycles_formed

/-- #1=(nil . (#2=#1# . #2#)). -/
def labelledReference : Expression :=
  .label 1 (.cons (.atom .nil) (.cons (.label 2 (.ref 1)) (.ref 2)))

/-- The last reference is left as the pair (1 . object). -/
theorem labelled_reference_fails : ¬ ∀ e : Expression, e.WellFormed → Denotes e := by
  intro claim
  have formed : labelledReference.WellFormed := by
    constructor
    · simp [labelledReference, Expression.labels, Expression.subs]
    · simp [labelledReference, Expression.Scoped, Expression.labels, Expression.subs]
    · intro n body member
      simp [labelledReference, Expression.subs] at member
      obtain ⟨rfl, rfl⟩ | ⟨rfl, rfl⟩ := member
      · simp [Expression.target]
      · simp [Expression.target]
  obtain ⟨v, s, result, _, clean⟩ := claim labelledReference formed
  have computed : eclReadObjectNonRecursive 7 labelledReference = .ok (some (.object 3, {
      heap := [
        .cons (.atom (.fixnum 1)) (.object 3),
        .cons (.atom (.fixnum 2)) (.object 0),
        .cons (.object 3) (.object 0),
        .cons (.atom .nil) (.object 2)]
      context := [(2, 1), (1, 0)] })) := by decide +kernel
  have once := result 7 (by simp [labelledReference, Expression.subs])
  rw [computed] at once
  cases once
  have notReached := clean (1, 0) (by simp)
  apply notReached
  apply Reaches.field (x := 2) (c := .cons (.object 3) (.object 0)) _ rfl (by simp [Cell.fields])
  exact .field (x := 3) (c := .cons (.atom .nil) (.object 2)) .refl rfl (by simp [Cell.fields])

end Ecl.Reader
