import Mathlib.Data.Int.ConditionallyCompleteOrder
import Mathlib.Data.Sign.Basic
import Ecl.Equality.Equal
import Ecl.Number.Round

/- The comparisons of num_comp.d on rationals: =, <, <=, >, >=, MAX and MIN, and EQL on the
objects that hold them. -/
namespace Ecl.Number

open Ecl.Equality (Ref Heap Object eclEql)

namespace Integer

/-- The cases of ecl_number_equalp for two integers; fixnums are compared as words. -/
def numberEqualp : Integer → Integer → Bool
  | .fixnum x, .fixnum y => fix x == fix y
  | .bignum x, .bignum y => (x - y).sign == 0
  | _, _ => false

theorem numberEqualp_iff (x y : Integer) : x.numberEqualp y = true ↔ x = y := by
  cases x with
  | fixnum a =>
    cases y with
    | fixnum b =>
      rw [numberEqualp, beq_iff_eq, fixnum.injEq, ← BitVec.toInt_inj, toInt_fix, toInt_fix,
        BitVec.toInt_inj]
    | bignum b => simp only [numberEqualp, Bool.false_eq_true, reduceCtorEq]
  | bignum a =>
    cases y with
    | fixnum b => simp only [numberEqualp, Bool.false_eq_true, reduceCtorEq]
    | bignum b =>
      rw [numberEqualp, beq_iff_eq, bignum.injEq, Int.sign_eq_zero_iff_zero]
      omega

end Integer

namespace Rational

/-- The function ecl_number_equalp. -/
def numberEqualp : Rational → Rational → Bool
  | .integer x, .integer y => x.numberEqualp y
  | .ratio num den, .ratio num' den' => num.numberEqualp num' && den.numberEqualp den'
  | _, _ => false

/-- The loop of the function monotonic; c is the argument before those that are left. -/
def monotonicLoop (s t : Int) (c : Rational) : List Rational → Bool
  | [] => true
  | d :: nums => if s * numberCompare d c < t then false else monotonicLoop s t d nums

/-- Without arguments there is only an error, FEwrong_num_arguments_anonym. -/
def monotonic (s t : Int) : List Rational → Option Bool
  | [] => none
  | c :: nums => some (monotonicLoop s t c nums)

/-- The functions <=, >=, < and >. -/
def notGreater : List Rational → Option Bool := monotonic 1 0

def notLess : List Rational → Option Bool := monotonic (-1) 0

def less : List Rational → Option Bool := monotonic 1 1

def greater : List Rational → Option Bool := monotonic (-1) 1

/-- The loop of MAX and MIN, over the test for which an argument replaces the result. -/
def bestLoop (replaces : Int → Bool) (best : Rational) : List Rational → Rational
  | [] => best
  | numi :: nums =>
    bestLoop replaces (if replaces (numberCompare best numi) then numi else best) nums

def best (replaces : Int → Bool) : List Rational → Option Rational
  | [] => none
  | first :: nums => some (bestLoop replaces first nums)

def max : List Rational → Option Rational := best (· < 0)

def min : List Rational → Option Rational := best (0 < ·)

theorem numberEqualp_iff (x y : Rational) : numberEqualp x y = true ↔ x = y := by
  cases x with
  | integer a =>
    cases y with
    | integer b => rw [numberEqualp, Integer.numberEqualp_iff, integer.injEq]
    | ratio num den => simp only [numberEqualp, Bool.false_eq_true, reduceCtorEq]
  | ratio num den =>
    cases y with
    | integer b => simp only [numberEqualp, Bool.false_eq_true, reduceCtorEq]
    | ratio num' den' =>
      rw [numberEqualp, Bool.and_eq_true, Integer.numberEqualp_iff, Integer.numberEqualp_iff,
        ratio.injEq]

variable {x y : Rational}

theorem numberCompare_sign (canonicalX : x.Canonical) (canonicalY : y.Canonical) :
    SignType.sign (numberCompare x y) = SignType.sign (x.value - y.value) := by
  have compares := numberCompare_compares canonicalX canonicalY
  rcases lt_trichotomy (numberCompare x y) 0 with below | zero | above
  · have notPos := mt compares.pos.mpr (by omega)
    have notZero := mt compares.zero.mpr (by omega)
    rw [sign_neg below, sign_neg (sub_neg.mpr (lt_of_le_of_ne (not_lt.mp notPos) notZero))]
  · rw [zero, compares.zero.mp zero, sub_self, sign_zero, sign_zero]
  · rw [sign_pos above, sign_pos (sub_pos.mpr (compares.pos.mp above))]

theorem numberCompare_neg_iff (canonicalX : x.Canonical)
    (canonicalY : y.Canonical) : numberCompare x y < 0 ↔ x.value < y.value := by
  rw [← sign_eq_neg_one_iff, numberCompare_sign canonicalX canonicalY, sign_eq_neg_one_iff,
    sub_neg]

theorem numberCompare_eq_zero_iff (canonicalX : x.Canonical)
    (canonicalY : y.Canonical) : numberCompare x y = 0 ↔ x = y := by
  rw [(numberCompare_compares canonicalX canonicalY).zero]
  exact ⟨eq_of_value canonicalX canonicalY, congrArg value⟩

theorem numberCompare_pos_iff (canonicalX : x.Canonical)
    (canonicalY : y.Canonical) : 0 < numberCompare x y ↔ y.value < x.value :=
  (numberCompare_compares canonicalX canonicalY).pos

theorem numberCompare_le_zero_iff (canonicalX : x.Canonical)
    (canonicalY : y.Canonical) : numberCompare x y ≤ 0 ↔ x.value ≤ y.value := by
  rw [← not_lt, numberCompare_pos_iff canonicalX canonicalY, not_lt]

theorem numberCompare_nonneg_iff (canonicalX : x.Canonical)
    (canonicalY : y.Canonical) : 0 ≤ numberCompare x y ↔ y.value ≤ x.value := by
  rw [← not_lt, numberCompare_neg_iff canonicalX canonicalY, not_lt]

theorem monotonicLoop_iff {s t : Int} {order : ℚ → ℚ → Prop}
    (decides : ∀ {c d : Rational}, c.Canonical → d.Canonical →
      (t ≤ s * numberCompare d c ↔ order c.value d.value))
    {c : Rational} {nums : List Rational} (canonical : ∀ d ∈ c :: nums, d.Canonical) :
    monotonicLoop s t c nums = true ↔ ((c :: nums).map value).IsChain order := by
  induction nums generalizing c with
  | nil => simp only [monotonicLoop, List.map_cons, List.map_nil, List.IsChain.singleton]
  | cons d nums ih =>
    have decidesHere := decides (canonical c (List.mem_cons_self ..))
      (canonical d (List.mem_cons_of_mem c (List.mem_cons_self ..)))
    have rest := ih fun e member => canonical e (List.mem_cons_of_mem c member)
    rw [List.map_cons, List.map_cons, List.isChain_cons_cons, ← List.map_cons, ← rest,
      ← decidesHere, monotonicLoop]
    split
    · rename_i stops
      simp only [Bool.false_eq_true, false_iff]
      omega
    · rename_i goes
      have holds : t ≤ s * numberCompare d c := by omega
      simp only [holds, true_and]

theorem monotonic_iff {s t : Int} {order : ℚ → ℚ → Prop} [IsTrans ℚ order]
    (decides : ∀ {c d : Rational}, c.Canonical → d.Canonical →
      (t ≤ s * numberCompare d c ↔ order c.value d.value))
    {first : Rational} {rest : List Rational} (canonical : ∀ d ∈ first :: rest, d.Canonical) :
    ∃ answer, monotonic s t (first :: rest) = some answer ∧
      (answer = true ↔ ((first :: rest).map value).Pairwise order) := by
  refine ⟨_, rfl, ?_⟩
  rw [monotonicLoop_iff decides canonical, List.isChain_iff_pairwise]

section Best

variable {replaces : Int → Bool} {order : ℚ → ℚ → Prop} [Std.Total order]

/-- A round of MAX or MIN: the new result is one of two arguments, and both come before it. -/
theorem best_round {m n : Rational}
    (decides : replaces (numberCompare m n) = true ↔ ¬ order n.value m.value) :
    ∃ next, (if replaces (numberCompare m n) then n else m) = next ∧ (next = m ∨ next = n) ∧
      order m.value next.value ∧ order n.value next.value := by
  have reflexive (q : ℚ) : order q q := (Std.Total.total q q).elim id id
  by_cases moves : replaces (numberCompare m n) = true
  · have after := decides.mp moves
    have ordered := (Std.Total.total m.value n.value).resolve_right after
    exact ⟨n, if_pos moves, .inr rfl, ordered, reflexive _⟩
  · have ordered := not_not.mp (mt decides.mpr moves)
    exact ⟨m, if_neg moves, .inl rfl, reflexive _, ordered⟩

theorem bestLoop_spec [IsTrans ℚ order]
    (decides : ∀ {m n : Rational}, m.Canonical → n.Canonical →
      (replaces (numberCompare m n) = true ↔ ¬ order n.value m.value))
    {first : Rational} {rest : List Rational} (canonicalFirst : first.Canonical)
    (canonical : ∀ d ∈ rest, d.Canonical) :
    bestLoop replaces first rest ∈ first :: rest ∧
      ∀ d ∈ first :: rest, order d.value (bestLoop replaces first rest).value := by
  have transitive {p q r : ℚ} (left : order p q) (right : order q r) : order p r :=
    IsTrans.trans p q r left right
  induction rest generalizing first with
  | nil =>
    have reflexive := (Std.Total.total (r := order) first.value first.value).elim id id
    simp only [bestLoop, List.mem_singleton, forall_eq, true_and]
    exact reflexive
  | cons numi rest ih =>
    have canonicalNumi := canonical numi (List.mem_cons_self ..)
    obtain ⟨next, round, which, fromFirst, fromNumi⟩ :=
      best_round (decides canonicalFirst canonicalNumi)
    have canonicalNext : next.Canonical := by
      rcases which with rfl | rfl
      · exact canonicalFirst
      · exact canonicalNumi
    have later := ih canonicalNext fun d member => canonical d (List.mem_cons_of_mem _ member)
    rw [bestLoop, round]
    apply And.intro
    · rcases List.mem_cons.mp later.1 with same | member
      · rw [same]
        rcases which with rfl | rfl
        · exact List.mem_cons_self ..
        · exact List.mem_cons_of_mem _ (List.mem_cons_self ..)
      · exact List.mem_cons_of_mem _ (List.mem_cons_of_mem _ member)
    · have reached := later.2 next (List.mem_cons_self ..)
      intro d member
      rcases List.mem_cons.mp member with rfl | member
      · exact transitive fromFirst reached
      · rcases List.mem_cons.mp member with rfl | member
        · exact transitive fromNumi reached
        · exact later.2 d (List.mem_cons_of_mem _ member)

variable (order) in
theorem best_spec [IsTrans ℚ order]
    (decides : ∀ {m n : Rational}, m.Canonical → n.Canonical →
      (replaces (numberCompare m n) = true ↔ ¬ order n.value m.value))
    {first : Rational} {rest : List Rational} (canonical : ∀ d ∈ first :: rest, d.Canonical) :
    ∃ m ∈ first :: rest, best replaces (first :: rest) = some m ∧
      ∀ d ∈ first :: rest, order d.value m.value := by
  have spec := bestLoop_spec decides (canonical first (List.mem_cons_self ..))
    fun d member => canonical d (List.mem_cons_of_mem _ member)
  exact ⟨_, spec.1, rfl, spec.2⟩

end Best

end Rational

/-- The object in a heap that a word stands for holds an integer. -/
def Integer.In (heap : Heap) (p : Ref) : Integer → Prop
  | .fixnum n => p = .fixnum n
  | .bignum value => ∃ address, p = .pointer address ∧ heap address = .bignum value

/-- The object in a heap that a word stands for holds a rational. -/
def Rational.In (heap : Heap) (p : Ref) : Rational → Prop
  | .integer n => n.In heap p
  | .ratio num den => ∃ address refNum refDen, p = .pointer address ∧
      heap address = .ratio refNum refDen ∧ num.In heap refNum ∧ den.In heap refDen

variable {heap : Heap} {p q : Ref}

theorem Integer.eclEql_eq {x y : Integer} (holdsX : x.In heap p) (holdsY : y.In heap q)
    (depth : Nat) :
    eclEql heap (depth + 1) p q = some (decide (x = y)) := by
  cases x with
  | fixnum a =>
    rw [show p = .fixnum a from holdsX]
    cases y with
    | fixnum b =>
      rw [show q = .fixnum b from holdsY]
      by_cases same : a = b
      · simp only [eclEql, same, if_true, decide_true]
      · simp only [eclEql, Heap.look, Ref.fixnum.injEq, fixnum.injEq, same, if_false,
          decide_false]
    | bignum b =>
      obtain ⟨address, rfl, found⟩ := holdsY
      simp only [eclEql, Heap.look, found, reduceCtorEq, if_false, decide_false]
  | bignum a =>
    obtain ⟨address, rfl, found⟩ := holdsX
    cases y with
    | fixnum b =>
      rw [show q = .fixnum b from holdsY]
      simp only [eclEql, Heap.look, found, reduceCtorEq, if_false, decide_false]
    | bignum b =>
      obtain ⟨address', rfl, found'⟩ := holdsY
      by_cases one : address = address'
      · have same : a = b := by
          rw [one, found'] at found
          exact (Object.bignum.inj found).symm
        simp only [eclEql, one, same, if_true, decide_true]
      · simp only [eclEql, Heap.look, found, found', Ref.pointer.injEq, one, if_false,
          bignum.injEq, beq_eq_decide]

theorem Integer.eclEql_ratio {num den : Ref} {x : Integer}
    (holds : x.In heap p) (found : heap.look q = .ratio num den) (depth : Nat) :
    eclEql heap (depth + 1) p q = some false ∧ eclEql heap (depth + 1) q p = some false := by
  have apart : p ≠ q := by
    rintro rfl
    cases x with
    | fixnum a => simp only [show p = .fixnum a from holds, Heap.look, reduceCtorEq] at found
    | bignum a =>
      obtain ⟨address, rfl, found'⟩ := holds
      simp only [Heap.look, found', reduceCtorEq] at found
  rw [eclEql, eclEql, if_neg apart, if_neg apart.symm, found]
  cases x with
  | fixnum a =>
    rw [show p = .fixnum a from holds]
    exact ⟨rfl, rfl⟩
  | bignum a =>
    obtain ⟨address, rfl, found'⟩ := holds
    simp only [Heap.look, found', and_self]

theorem Rational.eclEql_eq {x y : Rational} (holdsX : x.In heap p) (holdsY : y.In heap q)
    (depth : Nat) :
    eclEql heap (depth + 2) p q = some (decide (x = y)) := by
  cases x with
  | integer a =>
    cases y with
    | integer b =>
      rw [Integer.eclEql_eq holdsX holdsY]
      simp only [integer.injEq]
    | ratio num den =>
      obtain ⟨address, refNum, refDen, rfl, found, _⟩ := holdsY
      have look : heap.look (.pointer address) = .ratio refNum refDen := found
      rw [(Integer.eclEql_ratio holdsX look _).1]
      simp only [reduceCtorEq, decide_false]
  | ratio num den =>
    obtain ⟨address, refNum, refDen, rfl, found, holdsNum, holdsDen⟩ := holdsX
    have look : heap.look (.pointer address) = .ratio refNum refDen := found
    cases y with
    | integer b =>
      rw [(Integer.eclEql_ratio holdsY look _).2]
      simp only [reduceCtorEq, decide_false]
    | ratio num' den' =>
      obtain ⟨address', refNum', refDen', rfl, found', holdsNum', holdsDen'⟩ := holdsY
      have nums := Integer.eclEql_eq holdsNum holdsNum' depth
      have dens := Integer.eclEql_eq holdsDen holdsDen' depth
      by_cases one : address = address'
      · -- One object holds both ratios, so that their terms are the same objects too.
        rw [one, found'] at found
        have refs := Object.ratio.inj found
        rw [← refs.1] at nums
        rw [← refs.2] at dens
        simp only [eclEql, if_true, Option.some.injEq, true_eq_decide_iff] at nums dens
        simp only [eclEql, one, if_true, nums, dens, decide_true]
      · rw [eclEql, if_neg (by simpa only [Ref.pointer.injEq] using one)]
        simp only [Heap.look, found, found', Equality.andAlso, nums, dens, ratio.injEq]
        by_cases same : num = num'
        · simp only [same, decide_true, true_and]
        · simp only [same, decide_false, false_and]

/-- Comparison is the order of the rationals and equality is that of the objects, so that
the functions of many arguments answer by the order. -/
theorem rational_comparison {x y z : Rational} (canonicalX : x.Canonical)
    (canonicalY : y.Canonical) (canonicalZ : z.Canonical) :
    SignType.sign (Rational.numberCompare x y) = SignType.sign (x.value - y.value) ∧
    (Rational.numberCompare x y = 0 ↔ Rational.numberEqualp x y = true) ∧
    (∀ (heap : Heap) (p q : Ref) (depth : Nat), x.In heap p → y.In heap q →
      (eclEql heap (depth + 2) p q = some (Rational.numberEqualp x y))) ∧
    (Rational.numberCompare x y ≤ 0 ∨ Rational.numberCompare y x ≤ 0) ∧
    (Rational.numberCompare x y ≤ 0 → Rational.numberCompare y x ≤ 0 → x = y) ∧
    (Rational.numberCompare x y ≤ 0 → Rational.numberCompare y z ≤ 0 →
      Rational.numberCompare x z ≤ 0) ∧
    ∀ rest : List Rational, (∀ d ∈ rest, d.Canonical) →
      (∃ m ∈ x :: rest, Rational.max (x :: rest) = some m ∧
        ∀ d ∈ x :: rest, d.value ≤ m.value) ∧
      (∃ m ∈ x :: rest, Rational.min (x :: rest) = some m ∧
        ∀ d ∈ x :: rest, m.value ≤ d.value) ∧
      (∃ answer, Rational.notGreater (x :: rest) = some answer ∧
        (answer = true ↔ ((x :: rest).map Rational.value).Pairwise (· ≤ ·))) ∧
      (∃ answer, Rational.notLess (x :: rest) = some answer ∧
        (answer = true ↔ ((x :: rest).map Rational.value).Pairwise (· ≥ ·))) ∧
      (∃ answer, Rational.less (x :: rest) = some answer ∧
        (answer = true ↔ ((x :: rest).map Rational.value).Pairwise (· < ·))) ∧
      (∃ answer, Rational.greater (x :: rest) = some answer ∧
        (answer = true ↔ ((x :: rest).map Rational.value).Pairwise (· > ·))) := by
  have xy := Rational.numberCompare_le_zero_iff canonicalX canonicalY
  have yx := Rational.numberCompare_le_zero_iff canonicalY canonicalX
  have yz := Rational.numberCompare_le_zero_iff canonicalY canonicalZ
  have xz := Rational.numberCompare_le_zero_iff canonicalX canonicalZ
  refine ⟨Rational.numberCompare_sign canonicalX canonicalY, ?_, ?_, ?_, ?_, ?_, ?_⟩
  · rw [Rational.numberCompare_eq_zero_iff canonicalX canonicalY, Rational.numberEqualp_iff]
  · intro heap p q depth holdsX holdsY
    rw [Rational.eclEql_eq holdsX holdsY, Option.some.injEq, Bool.eq_iff_iff, decide_eq_true_iff,
      Rational.numberEqualp_iff]
  · rw [xy, yx]
    exact le_total x.value y.value
  · rw [xy, yx]
    intro left right
    exact Rational.eq_of_value canonicalX canonicalY (le_antisymm left right)
  · rw [xy, yz, xz]
    exact le_trans
  · intro rest canonicalRest
    have canonical : ∀ d ∈ x :: rest, d.Canonical :=
      List.forall_mem_cons.mpr ⟨canonicalX, canonicalRest⟩
    refine ⟨?_, ?_, ?_, ?_, ?_, ?_⟩
    · apply Rational.best_spec (· ≤ ·) ?_ canonical
      intro m n canonicalM canonicalN
      rw [decide_eq_true_iff, Rational.numberCompare_neg_iff canonicalM canonicalN, not_le]
    · apply Rational.best_spec (· ≥ ·) ?_ canonical
      intro m n canonicalM canonicalN
      rw [decide_eq_true_iff, Rational.numberCompare_pos_iff canonicalM canonicalN, not_le]
    · apply Rational.monotonic_iff ?_ canonical
      intro c d canonicalC canonicalD
      rw [one_mul, Rational.numberCompare_nonneg_iff canonicalD canonicalC]
    · apply Rational.monotonic_iff ?_ canonical
      intro c d canonicalC canonicalD
      rw [neg_one_mul, neg_nonneg, Rational.numberCompare_le_zero_iff canonicalD canonicalC]
    · apply Rational.monotonic_iff ?_ canonical
      intro c d canonicalC canonicalD
      have positive : 1 ≤ 1 * Rational.numberCompare d c ↔ 0 < Rational.numberCompare d c := by
        omega
      rw [positive, Rational.numberCompare_pos_iff canonicalD canonicalC]
    · apply Rational.monotonic_iff ?_ canonical
      intro c d canonicalC canonicalD
      show 0 < -1 * _ ↔ _
      rw [neg_one_mul, neg_pos, Rational.numberCompare_neg_iff canonicalD canonicalC]

theorem rational_comparison_least_third :
    (∃ m ∈ [Rational.integer (.bignum (2 ^ 61)), .ratio (makeFixnum 1) (makeFixnum 3)],
      Rational.min [.integer (.bignum (2 ^ 61)), .ratio (makeFixnum 1) (makeFixnum 3)] = some m ∧
      ∀ d ∈ [Rational.integer (.bignum (2 ^ 61)), .ratio (makeFixnum 1) (makeFixnum 3)],
        m.value ≤ d.value) ∧
    Rational.min [.integer (.bignum (2 ^ 61)), .ratio (makeFixnum 1) (makeFixnum 3)] =
      some (.ratio (makeFixnum 1) (makeFixnum 3)) := by
  have comparison := rational_comparison (x := .integer (.bignum (2 ^ 61)))
    (y := .ratio (makeFixnum 1) (makeFixnum 3)) (z := .integer (makeFixnum 0)) (by decide)
    (by decide +kernel) trivial
  exact ⟨(comparison.2.2.2.2.2.2 [.ratio (makeFixnum 1) (makeFixnum 3)] (by decide +kernel)).2.1,
    by decide +kernel⟩

end Ecl.Number
