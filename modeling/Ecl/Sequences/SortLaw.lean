import Ecl.Sequences.Sort

/- quick-sort arranges a range of a vector and touches nothing else. -/
namespace Ecl.Sequences

open List Nat

variable {σ κ α : Type}

/-- All elements at the places from `lo` to `hi`. -/
def Each (lo hi : Nat) (P : α → Prop) (seq : List α) : Prop :=
  ∀ i x, lo ≤ i → i < hi → seq[i]? = some x → P x

/-- What happens between two states happens from `lo` to `hi`. -/
structure Within (lo hi : Nat) (v v' : Run σ α) : Prop where
  perm : v'.seq.Perm v.seq
  outside : ∀ i, i < lo ∨ hi ≤ i → v'.seq[i]? = v.seq[i]?
  inside : ∀ P : α → Prop, Each lo hi P v.seq → Each lo hi P v'.seq
  accessed : ∃ new, v'.accessed = new ++ v.accessed ∧ ∀ i ∈ new, lo ≤ i ∧ i < hi

namespace Within

variable {lo hi : Nat} {v v' v'' : Run σ α}

theorem trans (first : Within lo hi v v') (second : Within lo hi v' v'') : Within lo hi v v'' := by
  obtain ⟨new, accessed, range⟩ := first.accessed
  obtain ⟨new', accessed', range'⟩ := second.accessed
  refine ⟨second.perm.trans first.perm, fun i out =>
    (second.outside i out).trans (first.outside i out),
    fun P each => second.inside P (first.inside P each), new' ++ new, ?_, ?_⟩
  · rw [accessed', accessed, append_assoc]
  · intro i member
    rcases mem_append.mp member with member | member
    · exact range' i member
    · exact range i member

theorem of_seq (new : List Nat) (same : v'.seq = v.seq) (accessed : v'.accessed = new ++ v.accessed)
    (range : ∀ i ∈ new, lo ≤ i ∧ i < hi) : Within lo hi v v' := by
  refine ⟨same ▸ .refl _, fun i _ => by rw [same], fun P each => ?_, new, accessed, range⟩
  rw [same]
  exact each

theorem widen {lo' hi' : Nat} (within : Within lo' hi' v v') (below : lo ≤ lo') (above : hi' ≤ hi) :
    Within lo hi v v' := by
  obtain ⟨new, accessed, range⟩ := within.accessed
  refine ⟨within.perm, fun i out => within.outside i (by omega),
    fun P each i x lower upper found => ?_,
    new, accessed, fun i member => ?_⟩
  · by_cases between : lo' ≤ i ∧ i < hi'
    · exact within.inside P (fun n y lower' upper' => each n y (by omega) (by omega)) i x
        between.1 between.2 found
    · rw [within.outside i (by omega)] at found
      exact each i x lower upper found
  · have := range i member
    omega

theorem length_eq (within : Within lo hi v v') : v'.seq.length = v.seq.length :=
  within.perm.length_eq

theorem beside {lo' hi' : Nat} {P : α → Prop} (within : Within lo' hi' v v')
    (apart : hi ≤ lo' ∨ hi' ≤ lo) (each : Each lo hi P v.seq) : Each lo hi P v'.seq := by
  intro i x lower upper found
  rw [within.outside i (by omega)] at found
  exact each i x lower upper found

end Within

variable {i : Nat} {v : Run σ α} {x : α}

theorem elt_spec (lo hi : Nat) (found : v.seq[i]? = some x) (lower : lo ≤ i) (upper : i < hi) :
    ∃ v', v.elt i = some (x, v') ∧ v'.seq = v.seq ∧ v'.state = v.state ∧ Within lo hi v v' := by
  refine ⟨{ v with accessed := i :: v.accessed }, by simp [Run.elt, found], rfl, rfl, ?_⟩
  refine Within.of_seq [i] rfl rfl fun n member => ?_
  rw [mem_singleton.mp member]
  exact ⟨lower, upper⟩

variable {lo hi : Nat}

theorem precedes_within (test : Test σ κ α) (x kd : κ) (v : Run σ α) :
    Within lo hi v (v.precedes test x kd).2 :=
  Within.of_seq [] rfl rfl fun i member => by cases member

variable {seq : List α}

theorem getElem?_exchange {j : Nat} {y : α} (boundI : i < seq.length)
    (boundJ : j < seq.length) (n : Nat) :
    ((seq.set i y).set j x)[n]? = if n = j then some x else if n = i then some y else seq[n]? := by
  rw [List.getElem?_set, List.getElem?_set, length_set]
  by_cases atJ : n = j
  · subst atJ
    rw [if_pos rfl, if_pos rfl, if_pos boundJ]
  · rw [if_neg (Ne.symm atJ), if_neg atJ]
    by_cases atI : n = i
    · subst atI
      rw [if_pos rfl, if_pos rfl, if_pos boundI]
    · rw [if_neg (Ne.symm atI), if_neg atI]

theorem exchange_spec (lo hi : Nat) {j : Nat} {y : α} (foundI : v.seq[i]? = some x)
    (foundJ : v.seq[j]? = some y) (lowerI : lo ≤ i) (upperI : i < hi) (lowerJ : lo ≤ j)
    (upperJ : j < hi) :
    ∃ v' v'', v.setElt i y = some v' ∧ v'.setElt j x = some v'' ∧ Within lo hi v v'' ∧
      v''.state = v.state ∧
      ∀ n, v''.seq[n]? = if n = j then some x else if n = i then some y else v.seq[n]? := by
  obtain ⟨boundI, elementI⟩ := List.getElem?_eq_some_iff.mp foundI
  obtain ⟨boundJ, elementJ⟩ := List.getElem?_eq_some_iff.mp foundJ
  have places := getElem?_exchange (x := x) (y := y) boundI boundJ
  refine ⟨_, { v with seq := (v.seq.set i y).set j x, accessed := j :: i :: v.accessed },
    if_pos boundI, ?_, ⟨?_, ?_, ?_, [j, i], rfl, ?_⟩, rfl, places⟩
  · simp [Run.setElt, boundJ]
  · have perm := set_set_perm boundI boundJ
    rw [elementI, elementJ] at perm
    exact perm
  · intro n out
    rw [places, if_neg (by omega), if_neg (by omega)]
  · intro P each n z lower upper found
    rw [places] at found
    split at found
    · cases found
      exact each i x lowerI upperI foundI
    · split at found
      · cases found
        exact each j y lowerJ upperJ foundJ
      · exact each n z lower upper found
  · intro n member
    rcases mem_cons.mp member with rfl | member
    · exact ⟨lowerJ, upperJ⟩
    · rw [mem_singleton.mp member]
      exact ⟨lowerI, upperI⟩

theorem Each.empty {P : α → Prop} (none : hi ≤ lo) : Each lo hi P seq :=
  fun i x lower upper => by omega

theorem Each.snoc {P : α → Prop} (each : Each lo i P seq)
    (found : seq[i]? = some x) (holds : P x) : Each lo (i + 1) P seq := by
  intro n y lower upper there
  by_cases last : n = i
  · subst last
    rw [found] at there
    cases there
    exact holds
  · exact each n y lower (by omega) there

/-- Where the two loops stand: `Low` up to `j`, `High` above `k`, and at `k` an element that
is to be moved when `upwards`. -/
structure Swept (Low High : α → Prop) (lo hi : Nat) (upwards : Bool) (j k : Nat) (seq : List α) :
    Prop where
  start : lo ≤ j
  apart : j < k
  bound : k ≤ hi
  length : hi ≤ seq.length
  low : Each (lo + 1) (j + 1) Low seq
  high : Each (k + 1) hi High seq
  inside : upwards = true → k < hi
  held : ∀ x, k < hi → seq[k]? = some x → if upwards then Low x else High x

/-- What the two loops leave. -/
def Parted (Low High : α → Prop) (lo hi : Nat) (v : Run σ α) (result : Option (Nat × Run σ α)) :
    Prop :=
  ∃ m v', result = some (m, v') ∧ lo ≤ m ∧ m < hi ∧ Within (lo + 1) hi v v' ∧
    Each (lo + 1) (m + 1) Low v'.seq ∧ Each (m + 1) hi High v'.seq

theorem Parted.after {Low High : α → Prop} {v' : Run σ α}
    {result : Option (Nat × Run σ α)} (within : Within (lo + 1) hi v v')
    (parted : Parted Low High lo hi v' result) : Parted Low High lo hi v result := by
  obtain ⟨m, w, equation, lower, upper, rest, low, high⟩ := parted
  exact ⟨m, w, equation, lower, upper, within.trans rest, low, high⟩

section Sweep

variable {test : Test σ κ α} {kd : κ} {Low High : α → Prop} {lo hi : Nat}

theorem sweep_met {j k : Nat} {v : Run σ α} (met : ¬j + 1 < k) (upwards : Bool) :
    sweep test kd upwards j k v = some (if upwards then j + 1 else j, v) := by
  rw [sweep, if_neg met, if_neg met]
  cases upwards <;> rfl

theorem asked_spec (test : Test σ κ α) (kd : κ) (lo hi : Nat) {i : Nat} {v : Run σ α} {x : α}
    (found : v.seq[i]? = some x) (lower : lo ≤ i)
    (upper : i < hi) :
    ∃ v₁, v.elt i = some (x, v₁) ∧
      (v₁.precedes test (test.key x) kd).2.seq = v.seq ∧
      (v₁.precedes test (test.key x) kd).1 = (test.predicate (test.key x) kd v.state).1 ∧
      Within lo hi v (v₁.precedes test (test.key x) kd).2 := by
  obtain ⟨v₁, read, seq, state, within⟩ := elt_spec lo hi found lower upper
  exact ⟨v₁, read, seq, by rw [← state]; rfl, within.trans (precedes_within test _ _ v₁)⟩

theorem sweep_spec (test : Test σ κ α) (kd : κ) (Low High : α → Prop)
    (toLow : ∀ x s, (test.predicate (test.key x) kd s).1 = true → Low x)
    (toHigh : ∀ x s, (test.predicate (test.key x) kd s).1 = false → High x) (rounds : Nat) :
    ∀ upwards j k (v : Run σ α), k = j + rounds + 1 → Swept Low High lo hi upwards j k v.seq →
      Parted Low High lo hi v (sweep test kd upwards j k v) := by
  induction rounds with
  | zero =>
    intro upwards j k v far swept
    obtain ⟨start, apart, bound, length, low, high, inside, held⟩ := swept
    rw [sweep_met (by omega)]
    have still : Within (lo + 1) hi v v :=
      Within.of_seq [] rfl rfl fun i member => by cases member
    cases upwards with
    | true =>
      have below := inside rfl
      obtain ⟨x, found⟩ : ∃ x, v.seq[k]? = some x :=
        ⟨_, List.getElem?_eq_getElem (by omega)⟩
      subst far
      exact ⟨j + 1, v, rfl, by omega, by omega, still,
        low.snoc found (held x below found), high⟩
    | false =>
      subst far
      refine ⟨j, v, rfl, start, by omega, still, low, ?_⟩
      intro n x lower upper found
      by_cases first : n = j + 1
      · subst first
        exact held x upper found
      · exact high n x (by omega) upper found
  | succ rounds next =>
    intro upwards j k v far swept
    obtain ⟨start, apart, bound, length, low, high, inside, held⟩ := swept
    have bounded : ∀ i, i < hi → ∃ x, v.seq[i]? = some x := fun i inside =>
      ⟨_, List.getElem?_eq_getElem (by omega)⟩
    cases upwards with
    | true =>
      have below := inside rfl
      obtain ⟨x, found⟩ := bounded (j + 1) (by omega)
      obtain ⟨v₁, read, seq, answer, within⟩ :=
        asked_spec test kd (lo + 1) hi found (by omega) (by omega)
      rw [sweep, if_pos rfl, if_pos (by omega), read]
      rcases asked : v₁.precedes test (test.key x) kd with ⟨verdict, v₂⟩
      simp only [asked] at seq answer within ⊢
      rw [← seq] at low high held found length
      cases verdict with
      | true =>
        refine Parted.after within (next true (j + 1) k v₂ (by omega) ?_)
        have isLow := toLow x v.state answer.symm
        exact ⟨by omega, by omega, bound, length, low.snoc found isLow, high, inside, held⟩
      | false =>
        have isHigh := toHigh x v.state answer.symm
        obtain ⟨y, foundK⟩ : ∃ y, v₂.seq[k]? = some y :=
          ⟨_, List.getElem?_eq_getElem (by omega)⟩
        have isLow := held y below foundK
        obtain ⟨v₃, readJ, seq₃, -, within₃⟩ :=
          elt_spec (lo + 1) hi found (by omega) (by omega)
        rw [← seq₃] at low high found foundK
        obtain ⟨v₄, readK, seq₄, -, within₄⟩ :=
          elt_spec (lo + 1) hi foundK (by omega) (by omega)
        rw [← seq₄] at low high found foundK
        obtain ⟨v₅, v₆, setJ, setK, within₆, -, places⟩ :=
          exchange_spec (lo + 1) hi found foundK (by omega) (by omega) (by omega)
            (by omega)
        have whole := ((within.trans within₃).trans within₄).trans within₆
        have atJ : v₆.seq[j + 1]? = some y := by
          rw [places, if_neg (by omega), if_pos rfl]
        have atK : v₆.seq[k]? = some x := by
          rw [places, if_pos rfl]
        have elsewhere : ∀ {a b} {P : α → Prop}, b ≤ j + 1 ∨ k < a → Each a b P v₄.seq →
            Each a b P v₆.seq := by
          intro a b P apart each n z lower upper there
          rw [places, if_neg (by omega), if_neg (by omega)] at there
          exact each n z lower upper there
        have run := Parted.after whole (next false (j + 1) k v₆ (by omega)
          ⟨by omega, by omega, bound, ?_, ?_, ?_, fun never => absurd never Bool.false_ne_true, ?_⟩)
        · simp only [readJ, readK, setJ, setK, bind, Option.bind]
          exact run
        · rw [whole.length_eq, ← seq]
          exact length
        · exact (elsewhere (.inl (Nat.le_refl _)) low).snoc atJ isLow
        · exact elsewhere (.inr (lt_succ_self k)) high
        · intro z _ there
          rw [atK] at there
          cases there
          exact isHigh
    | false =>
      obtain ⟨x, found⟩ := bounded (k - 1) (by omega)
      obtain ⟨v₁, read, seq, answer, within⟩ :=
        asked_spec test kd (lo + 1) hi found (by omega) (by omega)
      rw [sweep, if_neg Bool.false_ne_true, if_pos (by omega), read]
      rcases asked : v₁.precedes test (test.key x) kd with ⟨verdict, v₂⟩
      simp only [asked] at seq answer within ⊢
      rw [← seq] at low high held found length
      have high' : Each (k - 1 + 1) hi High v₂.seq := by
        intro n y lower upper there
        by_cases first : n = k
        · subst first
          exact held y upper there
        · exact high n y (by omega) upper there
      cases verdict with
      | true =>
        refine Parted.after within (next true j (k - 1) v₂ (by omega) ?_)
        have isLow := toLow x v.state answer.symm
        refine ⟨start, by omega, by omega, length, low, high', fun _ => by omega, ?_⟩
        intro y _ there
        rw [found] at there
        cases there
        exact isLow
      | false =>
        refine Parted.after within (next false j (k - 1) v₂ (by omega) ?_)
        have isHigh := toHigh x v.state answer.symm
        refine ⟨start, by omega, by omega, length, low, high', fun never =>
          absurd never Bool.false_ne_true, ?_⟩
        intro y _ there
        rw [found] at there
        cases there
        exact isHigh

end Sweep

/-- Every element of the range stands in `R` to the later ones. -/
def SortedIn (R : α → α → Prop) (lo hi : Nat) (seq : List α) : Prop :=
  ∀ i k x y, lo ≤ i → i < k → k < hi → seq[i]? = some x → seq[k]? = some y → R x y

theorem SortedIn.congr {R : α → α → Prop} {seq' : List α}
    (sorted : SortedIn R lo hi seq) (same : ∀ i, lo ≤ i → i < hi → seq'[i]? = seq[i]?) :
    SortedIn R lo hi seq' := by
  intro i k x y lower between upper foundI foundK
  rw [same i lower (by omega)] at foundI
  rw [same k (by omega) upper] at foundK
  exact sorted i k x y lower between upper foundI foundK

theorem SortedIn.join {R : α → α → Prop} (trans : ∀ x y z, R x y → R y z → R x z) {m : Nat}
    {d : α} (left : SortedIn R lo m seq) (right : SortedIn R (m + 1) hi seq)
    (pivot : seq[m]? = some d) (low : Each lo m (R · d) seq) (high : Each (m + 1) hi (R d ·) seq) :
    SortedIn R lo hi seq := by
  intro i k x y lower between upper foundI foundK
  have toPivot : i < m → R x d := fun before => low i x lower before foundI
  have fromPivot : m < k → R d y := fun after => high k y after upper foundK
  by_cases leftI : i < m
  · by_cases leftK : k < m
    · exact left i k x y lower between leftK foundI foundK
    · by_cases atK : k = m
      · subst atK
        rw [pivot] at foundK
        cases foundK
        exact toPivot leftI
      · exact trans x d y (toPivot leftI) (fromPivot (by omega))
  · by_cases atI : i = m
    · subst atI
      rw [pivot] at foundI
      cases foundI
      exact fromPivot between
    · exact right i k x y (by omega) between upper foundI foundK

/-- quick-sort ends with the range in the order of what the answers of the predicate say. -/
theorem quickSort_spec (test : Test σ κ α) (R : α → α → Prop)
    (trans : ∀ x y z, R x y → R y z → R x z)
    (before : ∀ x d s, (test.predicate (test.key x) (test.key d) s).1 = true → R x d)
    (after : ∀ x d s, (test.predicate (test.key x) (test.key d) s).1 = false → R d x)
    (depth : Nat) :
    ∀ start last (v : Run σ α), last - start < depth → last ≤ v.seq.length →
      ∃ v', quickSort test depth start last v = some v' ∧ Within start last v v' ∧
        SortedIn R start last v'.seq := by
  induction depth with
  | zero =>
    intro start last v deep
    omega
  | succ depth deeper =>
    intro start last v deep length
    rw [quickSort]
    by_cases short : last ≤ start + 1
    · rw [if_pos short]
      refine ⟨v, rfl, Within.of_seq [] rfl rfl nofun, ?_⟩
      intro i k x y lower between upper
      omega
    rw [if_neg short]
    obtain ⟨d, found⟩ : ∃ d, v.seq[start]? = some d :=
      ⟨_, List.getElem?_eq_getElem (by omega)⟩
    obtain ⟨v₁, readD, seq₁, -, within₁⟩ :=
      elt_spec start last found (Nat.le_refl _) (by omega)
    obtain ⟨m, v₂, swept, lower, upper, within₂, low, high⟩ :=
      sweep_spec test (test.key d) (R · d) (R d ·)
        (fun x s => before x d s) (fun x s => after x d s) (last - start - 1) false start last v₁
        (by omega)
        ⟨Nat.le_refl _, by omega, Nat.le_refl _, seq₁ ▸ length, Each.empty (Nat.le_refl _),
          Each.empty (by omega), nofun, fun x never => absurd never (Nat.lt_irrefl _)⟩
    have atStart : v₂.seq[start]? = some d := by
      rw [within₂.outside start (.inl (lt_succ_self _)), seq₁]
      exact found
    obtain ⟨y, foundM⟩ : ∃ y, v₂.seq[m]? = some y :=
      ⟨_, List.getElem?_eq_getElem (by rw [within₂.length_eq, seq₁]; omega)⟩
    obtain ⟨v₃, readM, seq₃, -, within₃⟩ :=
      elt_spec start last foundM lower upper
    rw [← seq₃] at atStart foundM low high
    obtain ⟨v₄, v₅, setStart, setM, within₅, -, places⟩ :=
      exchange_spec start last atStart foundM (Nat.le_refl _) (by omega) lower upper
    have parted := ((within₁.trans (within₂.widen (le_succ _) (Nat.le_refl _))).trans
      within₃).trans within₅
    have pivot : v₅.seq[m]? = some d := by
      rw [places, if_pos rfl]
    have below : Each start m (R · d) v₅.seq := by
      intro n z lower' upper' there
      rw [places, if_neg (by omega)] at there
      by_cases first : n = start
      · rw [if_pos first] at there
        cases there
        exact low m y (by omega) (lt_succ_self m) foundM
      · rw [if_neg first] at there
        exact low n z (by omega) (by omega) there
    have above : Each (m + 1) last (R d ·) v₅.seq := by
      intro n z lower' upper' there
      rw [places, if_neg (by omega), if_neg (by omega)] at there
      exact high n z lower' upper' there
    obtain ⟨v₆, sortLeft, within₆, left⟩ := deeper start m v₅ (by omega)
      (by rw [parted.length_eq]; omega)
    obtain ⟨v₇, sortRight, within₇, right⟩ := deeper (m + 1) last v₆ (by omega)
      (by rw [within₆.length_eq, parted.length_eq]; omega)
    refine ⟨v₇, ?_, ?_, ?_⟩
    · simp only [readD, swept, readM, setStart, setM, sortLeft, sortRight, bind, Option.bind]
    · exact (parted.trans (within₆.widen (Nat.le_refl _) (by omega))).trans
        (within₇.widen (by omega) (Nat.le_refl _))
    · refine SortedIn.join (d := d) trans ?_ right ?_ ?_ ?_
      · exact left.congr fun i _ inside => within₇.outside i (.inl (by omega))
      · rw [within₇.outside m (.inl (lt_succ_self m)), within₆.outside m (.inr (Nat.le_refl m))]
        exact pivot
      · exact within₇.beside (.inl (le_succ m)) (within₆.inside _ below)
      · exact within₇.inside _ (within₆.beside (.inr (by omega)) above)

/- list-merge-sort and sort: order, permutation and ties. -/

open Stable List

variable {σ κ α : Type}

/-- The order of elements by their keys. -/
def byKey (key : α → κ) (predicate : κ → κ → Bool) (x y : α) : Bool := predicate (key x) (key y)

theorem byKey_weak (key : α → κ) (predicate : κ → κ → Bool)
    (weak : IsStrictWeakOrder κ (fun a b => predicate a b = true)) :
    IsStrictWeakOrder α (fun x y => byKey key predicate x y = true) where
  irrefl x := weak.irrefl (key x)
  trans x y z := weak.trans (key x) (key y) (key z)
  incomp_trans x y z := weak.incomp_trans (key x) (key y) (key z)

section Merging

variable (key : α → κ) (predicate : κ → κ → Bool)

theorem mergeLists_nil_left (right : List α) : mergeLists key predicate [] right = right := by
  rw [mergeLists]

theorem mergeLists_nil_right (left : List α) : mergeLists key predicate left [] = left := by
  cases left <;> simp [mergeLists]

/-- One element is taken, from the first list unless that of the second goes before it. -/
theorem mergeLists_cons (weak : IsStrictWeakOrder α (fun x y => byKey key predicate x y = true))
    (x y : α) (left right : List α) :
    mergeLists key predicate (x :: left) (y :: right) =
      if byKey key predicate y x then y :: mergeLists key predicate (x :: left) right
      else x :: mergeLists key predicate left (y :: right) := by
  rw [mergeLists]
  by_cases first : predicate (key x) (key y) = true
  · have second : byKey key predicate y x = false :=
      lt_asymm (show byKey key predicate x y = true from first)
    rw [if_pos first, second, if_neg Bool.false_ne_true]
  · rw [if_neg first]
    rfl

theorem mergeLists_sublists (left right : List α) :
    left.Sublist (mergeLists key predicate left right) ∧
      right.Sublist (mergeLists key predicate left right) := by
  fun_induction mergeLists key predicate left right with
  | case1 right => exact ⟨nil_sublist right, .refl right⟩
  | case2 left => exact ⟨.refl left, nil_sublist left⟩
  | case3 x left y right _ ih => exact ⟨ih.1.cons_cons x, ih.2.cons x⟩
  | case4 x left y right _ _ ih => exact ⟨ih.1.cons y, ih.2.cons_cons y⟩
  | case5 x left y right _ _ ih => exact ⟨ih.1.cons_cons x, ih.2.cons x⟩

theorem mergeLists_sorted (weak : IsStrictWeakOrder α (fun x y => byKey key predicate x y = true))
    (left right : List α) :
      Ordered (byKey key predicate) left → Ordered (byKey key predicate) right →
      Sorted (byKey key predicate) (left ++ right) (mergeLists key predicate left right) := by
  induction left generalizing right with
  | nil =>
    intro _ ordered
    rw [mergeLists_nil_left]
    exact ⟨.refl _, ordered, fun _ => rfl⟩
  | cons x left outer =>
    induction right with
    | nil =>
      intro ordered _
      rw [mergeLists_nil_right, append_nil]
      exact ⟨.refl _, ordered, fun _ => rfl⟩
    | cons y right inner =>
      intro ordered ordered'
      obtain ⟨firstLeft, restLeft⟩ := pairwise_cons.mp ordered
      obtain ⟨firstRight, restRight⟩ := pairwise_cons.mp ordered'
      rw [mergeLists_cons key predicate weak]
      by_cases greater : byKey key predicate y x = true
      · obtain ⟨perm, sorted, stable⟩ := inner ordered restRight
        rw [if_pos greater]
        have beyond : ∀ z ∈ x :: left, byKey key predicate y z = true := by
          intro z member
          rcases mem_cons.mp member with rfl | later
          · exact greater
          · rcases lt_split greater z with less | less
            · exact less
            · rw [firstLeft z later] at less
              cases less
        refine ⟨(perm.cons y).trans perm_middle.symm, ?_, fun a => ?_⟩
        · refine pairwise_cons.mpr ⟨fun z member => ?_, sorted⟩
          rcases mem_append.mp (perm.mem_iff.mp member) with fromLeft | fromRight
          · exact lt_asymm (beyond z fromLeft)
          · exact firstRight z fromRight
        · by_cases tie : tied (byKey key predicate) a y = true
          · have none : (x :: left).filter (tied (byKey key predicate) a) = [] := by
              refine filter_eq_nil_iff.mpr fun z member same => ?_
              have less := beyond z member
              rw [(tied_iff.mp (tied_trans (tied_symm tie) same)).1] at less
              cases less
            rw [filter_cons_of_pos tie, stable, filter_append, filter_append, none,
              nil_append, nil_append, filter_cons_of_pos tie]
          · rw [filter_cons_of_neg tie, stable, filter_append, filter_append,
              filter_cons_of_neg tie]
      · obtain ⟨perm, sorted, stable⟩ := outer (y :: right) restLeft ordered'
        rw [if_neg greater]
        have before := Bool.eq_false_iff.mpr greater
        refine ⟨perm.cons x, ?_, fun a => ?_⟩
        · refine pairwise_cons.mpr ⟨fun z member => ?_, sorted⟩
          rcases mem_append.mp (perm.mem_iff.mp member) with fromLeft | fromRight
          · exact firstLeft z fromLeft
          · rcases mem_cons.mp fromRight with rfl | later
            · exact before
            · refine Bool.eq_false_iff.mpr fun less => ?_
              rcases lt_split less y with less | less
              · rw [firstRight z later] at less
                cases less
              · exact greater less
        · rw [cons_append]
          by_cases tie : tied (byKey key predicate) a x = true
          · rw [filter_cons_of_pos tie, filter_cons_of_pos tie, stable]
          · rw [filter_cons_of_neg tie, filter_cons_of_neg tie, stable]

theorem listMergeSort_sorted
    (weak : IsStrictWeakOrder α (fun x y => byKey key predicate x y = true))
    (l : List α) : Sorted (byKey key predicate) l (listMergeSort key predicate l) := by
  fun_induction listMergeSort key predicate l with
  | case1 => exact ⟨.refl _, .nil, fun _ => rfl⟩
  | case2 x => exact ⟨.refl _, pairwise_singleton _ x, fun _ => rfl⟩
  | case3 x y first =>
    exact ⟨.refl _, pairwise_pair.mpr (lt_asymm (show byKey key predicate x y = true from first)),
      fun _ => rfl⟩
  | case4 x y first second =>
    have greater : byKey key predicate y x = true := second
    have pair := mergeLists_sorted key predicate weak [x] [y] (pairwise_singleton _ x)
      (pairwise_singleton _ y)
    rw [mergeLists_cons key predicate weak, if_pos greater, mergeLists_nil_right] at pair
    exact pair
  | case5 x y first second =>
    have notGreater : ¬byKey key predicate y x = true := second
    have pair := mergeLists_sorted key predicate weak [x] [y] (pairwise_singleton _ x)
      (pairwise_singleton _ y)
    rw [mergeLists_cons key predicate weak, if_neg notGreater, mergeLists_nil_left] at pair
    exact pair
  | case6 x y z rest i left right =>
    have halves := Sorted.append left right
      (mergeLists_sorted key predicate weak _ _ left.ordered right.ordered)
    rw [take_append_drop] at halves
    exact halves

end Merging

section Sorting

variable (key : α → κ)

theorem sort_vector {type : SeqType} (vector : type ≠ .list) (predicate : κ → κ → Bool)
    (weak : IsStrictWeakOrder α (fun x y => byKey key predicate x y = true)) (sequence : List α) :
    ∃ s, sort type key predicate sequence = some s ∧ s.Perm sequence ∧
      Ordered (byKey key predicate) s := by
  have trans : ∀ x y z, byKey key predicate y x = false → byKey key predicate z y = false →
      byKey key predicate z x = false := by
    intro x y z first second
    refine Bool.eq_false_iff.mpr fun less => ?_
    rcases lt_split less y with less | less
    · rw [second] at less
      cases less
    · rw [first] at less
      cases less
  obtain ⟨v, sorted, within, ordered⟩ :=
    quickSort_spec (pureTest key predicate) (fun x y => byKey key predicate y x = false)
      trans (fun x d _ before => lt_asymm (show byKey key predicate x d = true from before))
        (fun x d _ after => after)
      (sequence.length + 1) 0 sequence.length ⟨sequence, [], ()⟩ (by omega) (Nat.le_refl _)
  refine ⟨v.seq, by rw [sort, if_neg vector, sorted]; rfl, within.perm, ?_⟩
  refine pairwise_iff_getElem.mpr fun i k boundI boundK less => ?_
  exact ordered i k _ _ (Nat.zero_le i) less (by rw [← within.length_eq]; exact boundK)
    (List.getElem?_eq_getElem boundI) (List.getElem?_eq_getElem boundK)

/-- SORT puts every sequence in order, and quick-sort ends within its range with a permutation
whatever the predicate answers. -/
theorem sort_correct :
    (∀ predicate, IsStrictWeakOrder κ (fun a b => predicate a b = true) →
      ∀ type (sequence : List α), ∃ s, sort type key predicate sequence = some s ∧
        s.Perm sequence ∧ s.Pairwise fun x y => predicate (key y) (key x) = false) ∧
    ∀ (σ : Type) (predicate : κ → κ → σ → Bool × σ) start last (v : Run σ α),
      last ≤ v.seq.length → ∀ depth, last - start < depth →
        ∃ v', quickSort ⟨key, predicate⟩ depth start last v = some v' ∧ v'.seq.Perm v.seq ∧
          (∀ i, i < start ∨ last ≤ i → v'.seq[i]? = v.seq[i]?) ∧
          ∃ new, v'.accessed = new ++ v.accessed ∧ ∀ i ∈ new, start ≤ i ∧ i < last := by
  constructor
  · intro predicate weak type sequence
    have byKeys := byKey_weak key predicate weak
    by_cases list : type = .list
    · have sorted := listMergeSort_sorted key predicate byKeys sequence
      exact ⟨_, if_pos list, sorted.perm, sorted.ordered⟩
    · exact sort_vector key list predicate byKeys sequence
  · intro σ predicate start last v length depth deep
    obtain ⟨v', sorted, within, -⟩ :=
      quickSort_spec ⟨key, predicate⟩ (fun _ _ => True) (fun _ _ _ _ _ => trivial)
        (fun _ _ _ _ => trivial) (fun _ _ _ _ => trivial) depth start last v deep length
    exact ⟨v', sorted, within.perm, within.outside, within.accessed⟩

end Sorting

end Ecl.Sequences
