import Ecl.Sequences.SortLaw

/- stable-sort and merge of seqlib.lsp. Strings and bit vectors are sorted by quick-sort, which
keeps ties only where there is nothing to keep apart. -/
namespace Ecl.Sequences

open Stable List Option

variable {σ κ α : Type}

/-- STABLE-SORT, with the elements of the sequence. -/
def stableSort (type : SeqType) (key : α → κ) (predicate : κ → κ → Bool) (sequence : List α) :
    Option (List α) :=
  if type = .list then some (listMergeSort key predicate sequence)
  else if type = .string ∨ type = .bitVector then sort type key predicate sequence
  else some (listMergeSort key predicate sequence)

/-- The loop of MERGE, from the element `j` on of the `size` ones of the result. -/
def mergeLoop (key : α → κ) (predicate : κ → κ → Bool) (sequence1 sequence2 : List α) :
    Nat → Nat → Nat → List α → Option (List α)
  | 0, _, _, newseq => some newseq
  | left + 1, i1, i2, newseq =>
    if i1 ≥ sequence1.length then do
      let v2 ← sequence2[i2]?
      mergeLoop key predicate sequence1 sequence2 left i1 (i2 + 1) (newseq ++ [v2])
    else do
      let v1 ← sequence1[i1]?
      if i2 ≥ sequence2.length then
        mergeLoop key predicate sequence1 sequence2 left (i1 + 1) i2 (newseq ++ [v1])
      else do
        let v2 ← sequence2[i2]?
        if predicate (key v1) (key v2) then
          mergeLoop key predicate sequence1 sequence2 left (i1 + 1) i2 (newseq ++ [v1])
        else if predicate (key v2) (key v1) then
          mergeLoop key predicate sequence1 sequence2 left i1 (i2 + 1) (newseq ++ [v2])
        else mergeLoop key predicate sequence1 sequence2 left (i1 + 1) i2 (newseq ++ [v1])

/-- MERGE, with the elements of the result. -/
def merge (key : α → κ) (predicate : κ → κ → Bool) (sequence1 sequence2 : List α) :
    Option (List α) :=
  mergeLoop key predicate sequence1 sequence2 (sequence1.length + sequence2.length) 0 0 []

theorem mergeLoop_eq (key : α → κ) (predicate : κ → κ → Bool) (sequence1 sequence2 : List α)
    (left : Nat) : ∀ i1 i2 newseq, i1 ≤ sequence1.length → i2 ≤ sequence2.length →
      left = (sequence1.length - i1) + (sequence2.length - i2) →
      mergeLoop key predicate sequence1 sequence2 left i1 i2 newseq =
        some (newseq ++ mergeLists key predicate (sequence1.drop i1) (sequence2.drop i2)) := by
  induction left with
  | zero =>
    intro i1 i2 newseq bound1 bound2 count
    rw [mergeLoop, drop_eq_nil_of_le (by omega), drop_eq_nil_of_le (by omega),
      mergeLists_nil_left, append_nil]
  | succ left rest =>
    intro i1 i2 newseq bound1 bound2 count
    rw [mergeLoop]
    by_cases over1 : i1 ≥ sequence1.length
    · have inside2 : i2 < sequence2.length := by omega
      have next := rest i1 (i2 + 1) (newseq ++ [sequence2[i2]]) bound1 inside2 (by omega)
      rw [drop_eq_nil_of_le over1, mergeLists_nil_left, append_assoc, singleton_append,
        getElem_cons_drop] at next
      rw [if_pos over1, List.getElem?_eq_getElem inside2, drop_eq_nil_of_le over1,
        mergeLists_nil_left]
      exact next
    · have inside1 : i1 < sequence1.length := by omega
      rw [if_neg over1, List.getElem?_eq_getElem inside1]
      by_cases over2 : i2 ≥ sequence2.length
      · have next := rest (i1 + 1) i2 (newseq ++ [sequence1[i1]]) inside1 bound2 (by omega)
        rw [drop_eq_nil_of_le over2, mergeLists_nil_right, append_assoc,
          singleton_append, getElem_cons_drop] at next
        rw [drop_eq_nil_of_le over2, mergeLists_nil_right]
        simp only [bind, Option.bind, if_pos over2]
        exact next
      · have inside2 : i2 < sequence2.length := by omega
        have next1 := rest (i1 + 1) i2 (newseq ++ [sequence1[i1]]) inside1 bound2 (by omega)
        have next2 := rest i1 (i2 + 1) (newseq ++ [sequence2[i2]]) bound1 inside2 (by omega)
        rw [append_assoc, singleton_append] at next1 next2
        simp only [bind, Option.bind, if_neg over2, List.getElem?_eq_getElem inside2]
        rw [drop_eq_getElem_cons inside1, drop_eq_getElem_cons inside2, mergeLists,
          next1, next2, drop_eq_getElem_cons inside1, drop_eq_getElem_cons inside2]
        split
        · rfl
        · split <;> rfl

theorem merge_eq (key : α → κ) (predicate : κ → κ → Bool) (sequence1 sequence2 : List α) :
    merge key predicate sequence1 sequence2 =
      some (mergeLists key predicate sequence1 sequence2) := by
  have run :=
    mergeLoop_eq key predicate sequence1 sequence2 (sequence1.length + sequence2.length) 0 0 []
    (Nat.zero_le _) (Nat.zero_le _) rfl
  rw [drop_zero, drop_zero, nil_append] at run
  exact run

section Never

theorem sweep_never (test : Test σ κ α) (kd : κ) {l : List α}
    (never : ∀ x ∈ l, ∀ s, (test.predicate (test.key x) kd s).1 = false)
    (rounds : Nat) : ∀ j k (v : Run σ α), k = j + rounds + 1 → k ≤ l.length → v.seq = l →
      ∃ v', sweep test kd false j k v = some (j, v') ∧ v'.seq = l := by
  induction rounds with
  | zero =>
    intro j k v far bound same
    exact ⟨v, sweep_met (by omega) false, same⟩
  | succ rounds next =>
    intro j k v far bound same
    have inside : k - 1 < l.length := by omega
    have found : v.seq[k - 1]? = some l[k - 1] := by rw [same, List.getElem?_eq_getElem inside]
    obtain ⟨v₁, read, seq, answer, -⟩ :=
      asked_spec test kd 0 l.length found (Nat.zero_le _) inside
    rw [sweep, if_neg Bool.false_ne_true, if_pos (by omega), read]
    rcases asked : v₁.precedes test (test.key l[k - 1]) kd with ⟨verdict, v₂⟩
    simp only [asked] at seq answer ⊢
    rw [never _ (getElem_mem inside)] at answer
    subst answer
    exact next j (k - 1) v₂ (by omega) (by omega) (seq.trans same)

theorem quickSort_never (test : Test σ κ α) {l : List α}
    (never : ∀ x ∈ l, ∀ d ∈ l, ∀ s, (test.predicate (test.key x) (test.key d) s).1 = false)
    (depth : Nat) : ∀ start last (v : Run σ α), last - start < depth → last ≤ l.length → v.seq = l →
      ∃ v', quickSort test depth start last v = some v' ∧ v'.seq = l := by
  induction depth with
  | zero =>
    intro start last v deep
    omega
  | succ depth deeper =>
    intro start last v deep bound same
    rw [quickSort]
    by_cases short : last ≤ start + 1
    · exact ⟨v, if_pos short, same⟩
    rw [if_neg short]
    have inside : start < l.length := by omega
    have found : v.seq[start]? = some l[start] := by rw [same, List.getElem?_eq_getElem inside]
    obtain ⟨v₁, readD, seq₁, -, -⟩ :=
      elt_spec 0 l.length found (Nat.zero_le _) inside
    obtain ⟨v₂, swept, seq₂⟩ :=
      sweep_never test (test.key l[start])
        (fun x member s => never x member _ (getElem_mem inside) s) (last - start - 1) start last
        v₁ (by omega) bound (seq₁.trans same)
    have found₂ : v₂.seq[start]? = some l[start] := by rw [seq₂, List.getElem?_eq_getElem inside]
    obtain ⟨v₃, readM, seq₃, -, -⟩ :=
      elt_spec 0 l.length found₂ (Nat.zero_le _) inside
    have found₃ : v₃.seq[start]? = some l[start] := by rw [seq₃, found₂]
    obtain ⟨v₄, v₅, setStart, setM, -, -, places⟩ :=
      exchange_spec 0 l.length found₃ found₃ (Nat.zero_le _) inside (Nat.zero_le _)
        inside
    have seq₅ : v₅.seq = l := by
      refine ext_getElem? fun n => ?_
      rw [places]
      by_cases atStart : n = start
      · rw [if_pos atStart, atStart, List.getElem?_eq_getElem inside]
      · rw [if_neg atStart, if_neg atStart, seq₃, seq₂]
    obtain ⟨v₆, sortLeft, seq₆⟩ := deeper start start v₅ (by omega) (by omega) seq₅
    obtain ⟨v₇, sortRight, seq₇⟩ := deeper (start + 1) last v₆ (by omega) bound seq₆
    refine ⟨v₇, ?_, seq₇⟩
    simp only [readD, swept, readM, setStart, setM, sortLeft, sortRight, bind, Option.bind]

end Never

/-- stable-sort gives the one stable arrangement, for all sequences of these elements. -/
def SortsStably (type : SeqType) (key : α → κ) (predicate : κ → κ → Bool) (elements : α → Prop) :
    Prop :=
  ∀ sequence, (∀ x ∈ sequence, elements x) → ∃ s, stableSort type key predicate sequence = some s ∧
    Sorted (byKey key predicate) sequence s ∧
    ∀ s', Sorted (byKey key predicate) sequence s' → s' = s

section Stability

variable {key : α → κ} {predicate : κ → κ → Bool}

/-- Nothing to be kept apart: no two elements are tied, or all are. -/
def TiesPlain (key : α → κ) (predicate : κ → κ → Bool) (elements : α → Prop) : Prop :=
  (∀ x y, elements x → elements y → tied (byKey key predicate) x y = true → x = y) ∨
    ∀ x y, elements x → elements y → byKey key predicate x y = false

variable {elements : α → Prop}

theorem sort_stably (weak : IsStrictWeakOrder α (fun x y => byKey key predicate x y = true))
    {type : SeqType} (vector : type ≠ .list)
    (plain : TiesPlain key predicate elements) {sequence : List α}
    (among : ∀ x ∈ sequence, elements x) :
    ∃ s, sort type key predicate sequence = some s ∧ Sorted (byKey key predicate) sequence s := by
  rcases plain with equal | never
  · obtain ⟨s, sorted, perm, ordered⟩ := sort_vector key vector predicate weak sequence
    exact ⟨s, sorted, Sorted.of_ties_eq
      (fun x member y member' => equal x y (among x member) (among y member')) perm ordered⟩
  · obtain ⟨v, sorted, same⟩ :=
      quickSort_never (pureTest key predicate) (l := sequence)
        (fun x member d member' _ => never x d (among x member) (among d member'))
        (sequence.length + 1) 0 sequence.length ⟨sequence, [], ()⟩ (by omega) (Nat.le_refl _) rfl
    refine ⟨sequence, by rw [sort, if_neg vector, sorted, map_some, same], .refl _, ?_,
      fun _ => rfl⟩
    exact pairwise_of_forall_mem_list fun x member y member' =>
      never y x (among y member') (among x member)

theorem tiesPlain_of_two (weak : IsStrictWeakOrder α (fun x y => byKey key predicate x y = true))
    (two : ∀ x y z, elements x → elements y → elements z → x = y ∨ x = z ∨ y = z) :
    TiesPlain key predicate elements := by
  by_cases different : ∃ x y, elements x ∧ elements y ∧
    tied (byKey key predicate) x y = true ∧ x ≠ y
  · obtain ⟨x, y, hx, hy, tie, apart⟩ := different
    have each : ∀ z, elements z → tied (byKey key predicate) x z = true := by
      intro z hz
      rcases two x y z hx hy hz with same | rfl | rfl
      · exact absurd same apart
      · exact tied_self x
      · exact tie
    exact .inr fun a b ha hb => (tied_iff.mp (tied_trans (tied_symm (each a ha)) (each b hb))).1
  · refine .inl fun x y hx hy tie => ?_
    by_contra apart
    exact different ⟨x, y, hx, hy, tie, apart⟩

variable {test : Test σ κ α}

theorem sweep_down {kd : κ} {j k : Nat} (apart : j + 1 < k) (v : Run σ α) :
    sweep test kd false j k v = (v.elt (k - 1)).bind fun p =>
      sweep test kd (p.2.precedes test (test.key p.1) kd).1 j (k - 1)
        (p.2.precedes test (test.key p.1) kd).2 := by
  rw [sweep, if_neg Bool.false_ne_true, if_pos apart]
  cases v.elt (k - 1) with
  | none => rfl
  | some p =>
    rcases asked : p.2.precedes test (test.key p.1) kd with ⟨verdict, v'⟩
    simp only [Option.bind, asked]
    cases verdict <;> rfl

theorem sweep_up {kd : κ} {j k : Nat} (apart : j + 1 < k) (v : Run σ α) :
    sweep test kd true j k v = (v.elt (j + 1)).bind fun p =>
      if (p.2.precedes test (test.key p.1) kd).1 then
        sweep test kd true (j + 1) k (p.2.precedes test (test.key p.1) kd).2
      else
        ((p.2.precedes test (test.key p.1) kd).2.elt (j + 1)).bind fun q =>
          (q.2.elt k).bind fun r =>
          (r.2.setElt (j + 1) r.1).bind fun w => (w.setElt k q.1).bind fun w =>
            sweep test kd false (j + 1) k w := by
  rw [sweep, if_pos rfl, if_pos apart]
  cases v.elt (j + 1) with
  | none => rfl
  | some p =>
    rcases asked : p.2.precedes test (test.key p.1) kd with ⟨verdict, v'⟩
    simp only [Option.bind, asked]
    cases verdict <;> rfl

theorem quickSort_short {start last : Nat} (short : last ≤ start + 1) (depth : Nat)
    (v : Run σ α) : quickSort test (depth + 1) start last v = some v := by
  rw [quickSort, if_pos short]

theorem quickSort_long {start last : Nat} (long : start + 1 < last) (depth : Nat)
    (v : Run σ α) : quickSort test (depth + 1) start last v =
      (v.elt start).bind fun p => (sweep test (test.key p.1) false start last p.2).bind fun q =>
        (q.2.elt q.1).bind fun r => (r.2.setElt start r.1).bind fun w =>
          (w.setElt q.1 p.1).bind fun w =>
          (quickSort test depth start q.1 w).bind fun w =>
            quickSort test depth (q.1 + 1) last w := by
  rw [quickSort, if_neg (Nat.not_le.mpr long)]
  rfl

theorem sort_string_above {d x y : α} (lower : byKey key predicate x d = true)
    (lower' : byKey key predicate y d = true) (tie : byKey key predicate x y = false) :
    sort .string key predicate [d, x, y] = some [y, x, d] := by
  unfold byKey at lower lower' tie
  simp [sort, quickSort_short, quickSort_long, sweep_up, sweep_down, sweep_met, pureTest, Run.elt,
    Run.setElt, Run.precedes, lower, lower', tie]

theorem sort_string_below {x y z : α} (lower : byKey key predicate z x = true)
    (tie : byKey key predicate y x = false) (self : byKey key predicate x x = false) :
    sort .string key predicate [x, y, x, z] = some [z, x, x, y] := by
  unfold byKey at lower tie self
  simp [sort, quickSort_short, quickSort_long, sweep_up, sweep_down, sweep_met, pureTest, Run.elt,
    Run.setElt, Run.precedes, lower, tie, self]

theorem string_ties_plain (weak : IsStrictWeakOrder α (fun x y => byKey key predicate x y = true))
    (stable : SortsStably .string key predicate elements) :
    TiesPlain key predicate elements := by
  by_contra plain
  obtain ⟨different, sometimes⟩ := not_or.mp plain
  push Not at different sometimes
  obtain ⟨x, y, hx, hy, tie, apart⟩ := different
  obtain ⟨a, b, ha, hb, less⟩ := sometimes
  obtain ⟨notLess, notGreater⟩ := tied_iff.mp tie
  rw [ne_eq, Bool.not_eq_false] at less
  have self : tied (byKey key predicate) x x = true := tied_self x
  rcases lt_split less x with below | above
  · have untied : tied (byKey key predicate) x a = false := by simp [tied, below]
    obtain ⟨s, sorted, arranged, -⟩ := stable [x, y, x, a] (by simp [hx, hy, ha])
    have run := sort_string_below below notGreater (lt_irrefl x)
    have same : [a, x, x, y] = s := some.inj (run.symm.trans sorted)
    have kept := arranged.stable x
    rw [← same] at kept
    simp only [List.filter, tie, self, untied, List.cons.injEq, true_and] at kept
    exact apart kept.1
  · have untied : tied (byKey key predicate) x b = false := by simp [tied, above]
    have above' : byKey key predicate y b = true := by
      rcases lt_split above y with less | less
      · rw [notLess] at less
        cases less
      · exact less
    obtain ⟨s, sorted, arranged, -⟩ := stable [b, x, y] (by simp [hx, hy, hb])
    have run := sort_string_above above above' notLess
    have same : [y, x, b] = s := some.inj (run.symm.trans sorted)
    have kept := arranged.stable x
    rw [← same] at kept
    simp only [List.filter, tie, self, untied, List.cons.injEq] at kept
    exact apart kept.2.1

/-- stable-sort is stable except for strings with distinct tied characters and others that are
in order; merge always is. -/
theorem stableSort_stable_iff (weak : IsStrictWeakOrder κ (fun a b => predicate a b = true))
    (type : SeqType) (elements : α → Prop)
    (bits : type = .bitVector →
      ∀ x y z, elements x → elements y → elements z → x = y ∨ x = z ∨ y = z) :
    (SortsStably type key predicate elements ↔
      (type = .string → TiesPlain key predicate elements)) ∧
      ∀ sequence1 sequence2 : List α,
        Ordered (byKey key predicate) sequence1 → Ordered (byKey key predicate) sequence2 →
          ∃ newseq, merge key predicate sequence1 sequence2 = some newseq ∧
            Sorted (byKey key predicate) (sequence1 ++ sequence2) newseq ∧
            sequence1.Sublist newseq ∧ sequence2.Sublist newseq := by
  have byKeys := byKey_weak key predicate weak
  refine ⟨⟨fun stable string => ?_, fun plain sequence among => ?_⟩,
    fun sequence1 sequence2 first second => ?_⟩
  · subst string
    exact string_ties_plain byKeys stable
  · have unique : ∀ {s}, Sorted (byKey key predicate) sequence s →
        ∀ s', Sorted (byKey key predicate) sequence s' → s' = s :=
      fun sorted _ sorted' => sorted.unique sorted'
    have lists := listMergeSort_sorted key predicate byKeys sequence
    rw [stableSort]
    by_cases list : type = .list
    · exact ⟨_, if_pos list, lists, unique lists⟩
    · rw [if_neg list]
      by_cases array : type = .string ∨ type = .bitVector
      · have apart : TiesPlain key predicate elements := by
          rcases array with string | bitVector
          · exact plain string
          · exact tiesPlain_of_two byKeys (bits bitVector)
        obtain ⟨s, sorted, stable⟩ := sort_stably byKeys list apart among
        exact ⟨s, by rw [if_pos array, sorted], stable, unique stable⟩
      · exact ⟨_, if_neg array, lists, unique lists⟩
  · exact ⟨_, merge_eq key predicate sequence1 sequence2,
      mergeLists_sorted key predicate byKeys sequence1 sequence2 first second,
      mergeLists_sublists key predicate sequence1 sequence2⟩

/-- The characters of a string by their upper case. -/
def charLessp (a b : Char) : Bool := a.toUpper.toNat < b.toUpper.toNat

theorem charLessp_weak : IsStrictWeakOrder Char (fun a b => charLessp a b = true) where
  irrefl a := by simp [charLessp]
  trans a b c := by
    simp only [charLessp, decide_eq_true_eq]
    exact Nat.lt_trans
  incomp_trans a b c := by
    simp only [charLessp, decide_eq_true_eq]
    omega

theorem stableSort_stable_letters :
    (SortsStably .string (fun c : Char => c) charLessp (· ∈ ['a', 'b']) ↔
      (SeqType.string = .string → TiesPlain (fun c : Char => c) charLessp (· ∈ ['a', 'b']))) ∧
      ∃ newseq, merge (fun c : Char => c) charLessp ['a'] ['A', 'b'] = some newseq := by
  have law := @stableSort_stable_iff Char Char (fun c : Char => c) charLessp charLessp_weak .string
    (· ∈ ['a', 'b']) nofun
  obtain ⟨newseq, merged, -⟩ := law.2 ['a'] ['A', 'b'] (pairwise_singleton _ _)
    (pairwise_pair.mpr (by decide))
  exact ⟨law.1, newseq, merged⟩

/-- With CHAR-LESSP the letters of bAa change their order. -/
theorem stableSort_unstable :
    stableSort .string (fun c : Char => c) charLessp ['b', 'A', 'a'] = some ['a', 'A', 'b'] ∧
      ¬SortsStably .string (fun c : Char => c) charLessp (fun _ => True) := by
  have run : stableSort .string (fun c : Char => c) charLessp ['b', 'A', 'a'] =
      some ['a', 'A', 'b'] := by decide +kernel
  refine ⟨run, fun stable => ?_⟩
  obtain ⟨s, sorted, arranged, -⟩ := stable ['b', 'A', 'a'] fun _ _ => trivial
  have same : ['a', 'A', 'b'] = s := Option.some.inj (run.symm.trans sorted)
  have kept := arranged.stable 'A'
  rw [← same] at kept
  exact absurd kept (by decide)

end Stability

end Ecl.Sequences
