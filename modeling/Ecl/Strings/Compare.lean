import Mathlib.Data.List.Lex

/- The comparison of strings in string.d. -/
namespace Ecl.Strings

open List Option Nat

/-- How two lists of numbers compare (-1, 0 or 1), and the length of what they have in common. -/
def diff : List Nat → List Nat → Int × Nat
  | [], [] => (0, 0)
  | [], _ :: _ => (-1, 0)
  | _ :: _, [] => (1, 0)
  | x :: xs, y :: ys =>
    if x < y then (-1, 0) else if y < x then (1, 0) else ((diff xs ys).1, (diff xs ys).2 + 1)

/-- The lists are the same up to a position where they differ or one of them ends. -/
def FirstDifference (xs ys : List Nat) (n : Nat) : Prop :=
  n ≤ xs.length ∧ n ≤ ys.length ∧ xs.take n = ys.take n ∧ ∀ x, xs[n]? = some x → ys[n]? ≠ some x

theorem diff_first (xs ys : List Nat) : FirstDifference xs ys (diff xs ys).2 := by
  induction xs generalizing ys with
  | nil =>
    cases ys with
    | nil => exact ⟨le_refl _, le_refl _, rfl, fun _ never => by cases never⟩
    | cons y ys => exact ⟨le_refl _, zero_le _, rfl, fun _ never => by cases never⟩
  | cons x xs ih =>
    cases ys with
    | nil => exact ⟨zero_le _, le_refl _, rfl, fun _ _ never => by cases never⟩
    | cons y ys =>
      rw [diff]
      split
      · refine ⟨zero_le _, zero_le _, rfl, fun z same same' => ?_⟩
        cases same
        cases same'
        omega
      · split
        · refine ⟨zero_le _, zero_le _, rfl, fun z same same' => ?_⟩
          cases same
          cases same'
          omega
        · have same : x = y := by omega
          obtain ⟨left, right, front, differ⟩ := ih ys
          refine ⟨succ_le_succ left, succ_le_succ right, ?_, differ⟩
          rw [same, take_succ_cons, take_succ_cons, front]

theorem diff_order (xs ys : List Nat) : (diff xs ys).1 = -1 ∧ xs < ys ∧ xs ≠ ys ∧ ¬ ys < xs ∨
    (diff xs ys).1 = 0 ∧ ¬ xs < ys ∧ xs = ys ∧ ¬ ys < xs ∨
    (diff xs ys).1 = 1 ∧ ¬ xs < ys ∧ xs ≠ ys ∧ ys < xs := by
  induction xs generalizing ys with
  | nil => cases ys <;> simp [diff]
  | cons x xs ih =>
    cases ys with
    | nil => simp [diff]
    | cons y ys =>
      rw [diff]
      split
      · simp [cons_lt_cons_iff]
        omega
      · split
        · simp [cons_lt_cons_iff]
          omega
        · have same : x = y := by omega
          simpa [same] using ih ys

theorem diff_eq_zero (xs ys : List Nat) : (diff xs ys).1 = 0 ↔ xs = ys := by
  rcases diff_order xs ys with ⟨order, holds⟩ | ⟨order, holds⟩ | ⟨order, holds⟩
  · simp [order, holds]
  · exact iff_of_true order holds.2.1
  · simp [order, holds]

inductive StringType where
  | t_base_string
  | t_string

/-- A string; self are the codes of its characters, which are bytes in a base string. -/
structure LispString where
  type : StringType
  self : List Nat
  fillp : Nat
  within : fillp ≤ self.length

inductive Bound where
  | nil
  | fixnum (i : Int)
  | other

/-- get_string_start_end, where none is FEerror. -/
def getStringStartEnd (string : LispString) (start stop : Bound) : Option (Nat × Nat) :=
  match start with
  | .fixnum ps =>
    if ps < 0 then none
    else
      match stop with
      | .nil => if (string.fillp : Int) < ps then none else some (ps.toNat, string.fillp)
      | .fixnum pe =>
        if pe < 0 then none
        else if pe < ps ∨ (string.fillp : Int) < pe then none else some (ps.toNat, pe.toNat)
      | .other => none
  | _ => none

def codes (self : List Nat) (s e : Nat) : List Nat := (self.take e).drop s

theorem codes_nil {self : List Nat} {s e : Nat} (ended : e ≤ s) : codes self s e = [] :=
  drop_of_length_le (le_trans (length_take_le _ _) ended)

theorem codes_cons {self : List Nat} {s e : Nat} (inside : s < e) (bound : e ≤ self.length) :
    ∃ c, self[s]? = some c ∧ codes self s e = c :: codes self (s + 1) e := by
  have short : s < (self.take e).length := by
    rw [length_take]
    omega
  refine ⟨self[s], List.getElem?_eq_getElem _, ?_⟩
  rw [codes, drop_eq_getElem_cons short, getElem_take]
  rfl

theorem codes_length {self : List Nat} {s e : Nat} (bound : e ≤ self.length) :
    (codes self s e).length = e - s := by
  rw [codes, length_drop, length_take, min_eq_left bound]

theorem getStringStartEnd_valid {string : LispString} {start stop : Bound} {s e : Nat}
    (bounds : getStringStartEnd string start stop = some (s, e)) :
      s ≤ e ∧ e ≤ string.self.length := by
  have within := string.within
  unfold getStringStartEnd at bounds
  split at bounds
  · split at bounds
    · cases bounds
    · split at bounds
      · split at bounds
        · cases bounds
        · cases bounds
          omega
      · split at bounds
        · cases bounds
        · split at bounds
          · cases bounds
          · cases bounds
            omega
      · cases bounds
  · cases bounds

section Code

/-- The code that is compared; upcase is ecl_char_upcase. -/
def fold (upcase : Nat → Nat) (caseSensitive : Bool) (c : Nat) :
    Nat := if caseSensitive then c else upcase c

variable (upcase : Nat → Nat)

/-- The loop of compare_strings; the output and the value of m. Reading outside of the characters
gives none. -/
def compareStrings (self1 self2 : List Nat) (caseSensitive : Bool) (s1 e1 s2 e2 : Nat) :
    Option (Int × Nat) :=
  if s1 < e1 then
    if e2 ≤ s2 then some (1, s1)
    else do
      let c1 ← self1[s1]?
      let c2 ← self2[s2]?
      let c1 := fold upcase caseSensitive c1
      let c2 := fold upcase caseSensitive c2
      if c1 < c2 then some (-1, s1)
      else if c2 < c1 then some (1, s1)
      else compareStrings self1 self2 caseSensitive (s1 + 1) e1 (s2 + 1) e2
  else if e2 ≤ s2 then some (0, s1) else some (-1, s1)
termination_by e1 - s1

/-- The loop of compare_base, after l steps. -/
def compareBase (s1 : List Nat) (l1 : Nat) (s2 : List Nat) (l2 : Nat)
    (caseSensitive : Bool) (l : Nat) :
    Option (Int × Nat) :=
  if l < l1 then
    if l = l2 then some (1, l)
    else do
      let c1 ← s1[l]?
      let c2 ← s2[l]?
      let c1 := fold upcase caseSensitive c1
      let c2 := fold upcase caseSensitive c2
      if c1 < c2 then some (-1, l)
      else if c2 < c1 then some (1, l)
      else compareBase s1 l1 s2 l2 caseSensitive (l + 1)
  else if l1 = l2 then some (0, l) else some (-1, l)
termination_by l1 - l

/-- The choice of the loop, with the position in the first string. -/
def compare (string1 : LispString) (s1 e1 : Nat) (string2 : LispString) (s2 e2 : Nat)
    (caseSensitive : Bool) :
    Option (Int × Nat) :=
  match string1.type, string2.type with
  | .t_base_string, .t_base_string =>
    (compareBase upcase (string1.self.drop s1) (e1 - s1) (string2.self.drop s2)
      (e2 - s2) caseSensitive 0).map
      fun (output, m) => (output, m + s1)
  | _, _ => compareStrings upcase string1.self string2.self caseSensitive s1 e1 s2 e2

/-- The loops of string= and ecl_string_eq, whatever the types of the characters. -/
def sameLoop (self1 self2 : List Nat) (s1 e1 s2 : Nat) : Option Bool :=
  if s1 < e1 then do
    let c1 ← self1[s1]?
    let c2 ← self2[s2]?
    if c1 = c2 then sameLoop self1 self2 (s1 + 1) e1 (s2 + 1) else some false
  else some true
termination_by e1 - s1

def eclStringEq (x y : LispString) : Option Bool :=
  if x.fillp ≠ y.fillp then some false
  else
    match x.type, y.type with
    | .t_string, .t_base_string => sameLoop x.self y.self 0 x.fillp 0
    | .t_base_string, .t_string => sameLoop y.self x.self 0 x.fillp 0
    | _, _ => some (decide (x.self.take x.fillp = y.self.take x.fillp))

/-- The arguments of a function; the bounds have defaults. -/
structure Arguments where
  string1 : LispString
  string2 : LispString
  start1 : Bound := .fixnum 0
  end1 : Bound := .nil
  start2 : Bound := .fixnum 0
  end2 : Bound := .nil

variable (a : Arguments)

def stringEq : Option Bool := do
  let (s1, e1) ← getStringStartEnd a.string1 a.start1 a.end1
  let (s2, e2) ← getStringStartEnd a.string2 a.start2 a.end2
  if e1 - s1 ≠ e2 - s2 then some false else sameLoop a.string1.self a.string2.self s1 e1 s2

def stringEqual : Option Bool := do
  let (s1, e1) ← getStringStartEnd a.string1 a.start1 a.end1
  let (s2, e2) ← getStringStartEnd a.string2 a.start2 a.end2
  if e1 - s1 ≠ e2 - s2 then some false
  else do
    let (output, _) ← compare upcase a.string1 s1 e1 a.string2 s2 e2 false
    some (decide (output = 0))

/-- The result is an index or NIL. -/
def stringCompare (sign1 sign2 : Int) (caseSensitive : Bool) : Option (Option Nat) := do
  let (s1, e1) ← getStringStartEnd a.string1 a.start1 a.end1
  let (s2, e2) ← getStringStartEnd a.string2 a.start2 a.end2
  let (output, e1) ← compare upcase a.string1 s1 e1 a.string2 s2 e2 caseSensitive
  some (if output = sign1 ∨ output = sign2 then some e1 else none)

def stringLt : Option (Option Nat) := stringCompare upcase a (-1) (-1) true

def stringGt : Option (Option Nat) := stringCompare upcase a 1 1 true

def stringLe : Option (Option Nat) := stringCompare upcase a (-1) 0 true

def stringGe : Option (Option Nat) := stringCompare upcase a 0 1 true

def stringNe : Option (Option Nat) := stringCompare upcase a (-1) 1 true

def stringLessp : Option (Option Nat) := stringCompare upcase a (-1) (-1) false

def stringGreaterp : Option (Option Nat) := stringCompare upcase a 1 1 false

def stringNotGreaterp : Option (Option Nat) := stringCompare upcase a (-1) 0 false

def stringNotLessp : Option (Option Nat) := stringCompare upcase a 0 1 false

def stringNotEqual : Option (Option Nat) := stringCompare upcase a (-1) 1 false

end Code

def compared (upcase : Nat → Nat) (caseSensitive : Bool) (self : List Nat) (s e : Nat) : List Nat :=
  (codes self s e).map (fold upcase caseSensitive)

/-- The difference of two substrings, at its position in the first string. -/
def outcome (upcase : Nat → Nat) (caseSensitive : Bool) (self1 : List Nat) (s1 e1 : Nat)
    (self2 : List Nat)
    (s2 e2 : Nat) : Int × Nat :=
  let d :=
    diff (compared upcase caseSensitive self1 s1 e1) (compared upcase caseSensitive self2 s2 e2)
  (d.1, s1 + d.2)

section Laws

variable (upcase : Nat → Nat) (caseSensitive : Bool) {self1 self2 : List Nat}

theorem compareStrings_eq (s1 s2 : Nat) {e1 e2 : Nat} (bound1 : e1 ≤ self1.length)
    (bound2 : e2 ≤ self2.length) :
    compareStrings upcase self1 self2 caseSensitive s1 e1 s2 e2 =
      some (outcome upcase caseSensitive self1 s1 e1 self2 s2 e2) := by
  unfold compareStrings
  by_cases inside : s1 < e1
  · obtain ⟨c1, read1, cons1⟩ := codes_cons inside bound1
    rw [if_pos inside, outcome, compared, cons1]
    by_cases ended : e2 ≤ s2
    · rw [if_pos ended, compared, codes_nil ended]
      rfl
    · obtain ⟨c2, read2, cons2⟩ := codes_cons (Nat.lt_of_not_le ended) bound2
      have rest := compareStrings_eq (s1 + 1) (s2 + 1) bound1 bound2
      rw [if_neg ended, read1, read2, compared, cons2, map_cons, map_cons, diff]
      simp only [bind_eq_bind, bind_some]
      split
      · rfl
      · split
        · rfl
        · rw [rest, outcome, compared, compared, Nat.add_right_comm]
          rfl
  · rw [if_neg inside, outcome, compared, codes_nil (Nat.le_of_not_lt inside)]
    by_cases ended : e2 ≤ s2
    · rw [if_pos ended, compared, codes_nil ended]
      rfl
    · obtain ⟨c2, _, cons2⟩ := codes_cons (Nat.lt_of_not_le ended) bound2
      rw [if_neg ended, compared, cons2]
      rfl
termination_by e1 - s1

theorem compareBase_eq {l1 l2 : Nat} (l : Nat) (left : l ≤ l1) (right : l ≤ l2) :
    compareBase upcase self1 l1 self2 l2 caseSensitive l =
      compareStrings upcase self1 self2 caseSensitive l l1 l l2 := by
  unfold compareBase compareStrings
  by_cases inside : l < l1
  · rw [if_pos inside, if_pos inside]
    by_cases ended : l = l2
    · rw [if_pos ended, if_pos (le_of_eq ended.symm)]
    · rw [if_neg ended, if_neg (by omega), compareBase_eq (l + 1) inside (by omega)]
  · rw [if_neg inside, if_neg inside]
    by_cases ended : l1 = l2
    · rw [if_pos ended, if_pos (by omega)]
    · rw [if_neg ended, if_neg (by omega)]
termination_by l1 - l

theorem codes_drop (self : List Nat) (s e : Nat) :
    codes (self.drop s) 0 (e - s) = codes self s e := by
  rw [codes, codes, drop_zero, drop_take]

theorem compare_eq {string1 string2 : LispString} (s1 s2 : Nat) {e1 e2 : Nat}
    (bound1 : e1 ≤ string1.self.length)
    (bound2 : e2 ≤ string2.self.length) : compare upcase string1 s1 e1 string2 s2 e2 caseSensitive =
      some (outcome upcase caseSensitive string1.self s1 e1 string2.self s2 e2) := by
  unfold compare
  split
  · rw [compareBase_eq upcase caseSensitive 0 (zero_le _) (zero_le _), compareStrings_eq, map_some]
    · simp only [outcome, compared, codes_drop, Nat.zero_add, Nat.add_comm]
    · rw [length_drop]
      omega
    · rw [length_drop]
      omega
  · exact compareStrings_eq upcase caseSensitive s1 s2 bound1 bound2

omit upcase caseSensitive in
theorem sameLoop_eq (s1 s2 : Nat) {e1 e2 : Nat} (bound1 : e1 ≤ self1.length)
    (bound2 : e2 ≤ self2.length)
    (same : e1 - s1 = e2 - s2) :
    sameLoop self1 self2 s1 e1 s2 = some (decide (codes self1 s1 e1 = codes self2 s2 e2)) := by
  unfold sameLoop
  by_cases inside : s1 < e1
  · obtain ⟨c1, read1, cons1⟩ := codes_cons inside bound1
    obtain ⟨c2, read2, cons2⟩ := codes_cons (show s2 < e2 by omega) bound2
    rw [if_pos inside, read1, read2, cons1, cons2,
      sameLoop_eq (s1 + 1) (s2 + 1) bound1 bound2 (by omega)]
    by_cases equal : c1 = c2 <;> simp [equal]
  · rw [if_neg inside, codes_nil (Nat.le_of_not_lt inside), codes_nil (show e2 ≤ s2 by omega)]
    rfl
termination_by e1 - s1

end Laws

theorem eclStringEq_eq (x y : LispString) :
    eclStringEq x y = some (decide (codes x.self 0 x.fillp = codes y.self 0 y.fillp)) := by
  unfold eclStringEq
  by_cases length : x.fillp = y.fillp
  · have loop := sameLoop_eq 0 0 x.within y.within (by omega)
    have swapped := sameLoop_eq 0 0 y.within x.within (by omega)
    rw [if_neg (not_not.mpr length)]
    split
    · exact loop
    · rw [length, swapped, length]
      exact congrArg some (decide_eq_decide.mpr eq_comm)
    · rw [codes, codes, drop_zero, drop_zero, length]
  · rw [if_pos length, decide_eq_false]
    intro same
    apply length
    rw [← Nat.sub_zero x.fillp, ← Nat.sub_zero y.fillp, ← codes_length x.within,
      ← codes_length y.within, same]

/-- The lists compare in one way, and the predicates say which; the index is the first difference.
-/
def Answers (xs ys : List Nat) (start : Nat) (eq : Option Bool)
    (lt gt le ge ne : Option (Option Nat)) : Prop :=
  (xs < ys ∧ xs ≠ ys ∧ ¬ ys < xs ∨ ¬ xs < ys ∧ xs = ys ∧ ¬ ys < xs ∨ ¬ xs < ys ∧
    xs ≠ ys ∧ ys < xs) ∧
  ∃ n, FirstDifference xs ys n ∧ eq = some (decide (xs = ys)) ∧
    lt = some (if xs < ys then some (start + n) else none) ∧
    gt = some (if ys < xs then some (start + n) else none) ∧
    le = some (if xs < ys ∨ xs = ys then some (start + n) else none) ∧
    ge = some (if ys < xs ∨ xs = ys then some (start + n) else none) ∧
    ne = some (if xs ≠ ys then some (start + n) else none)

/-- The answer of string_compare. -/
def signed (sign1 sign2 : Int) (output : Int × Nat) : Option Nat :=
  if output.1 = sign1 ∨ output.1 = sign2 then some output.2 else none

theorem diff_answers {xs ys : List Nat} {start : Nat} {output : Int × Nat}
    (differ : output = ((diff xs ys).1, start + (diff xs ys).2)) :
      Answers xs ys start (some (decide (xs = ys)))
      (some (signed (-1) (-1) output)) (some (signed 1 1 output)) (some (signed (-1) 0 output))
      (some (signed 0 1 output)) (some (signed (-1) 1 output)) := by
  have first := diff_first xs ys
  rw [differ]
  rcases diff_order xs ys with ⟨order, holds⟩ | ⟨order, holds⟩ | ⟨order, holds⟩
  · exact ⟨.inl holds, _, first, rfl, by simp [signed, order, holds]⟩
  · obtain ⟨lt, rfl, gt⟩ := holds
    exact ⟨.inr (.inl ⟨lt, rfl, gt⟩), _, first, rfl, by simp [signed, order]⟩
  · exact ⟨.inr (.inr holds), _, first, rfl, by simp [signed, order, holds]⟩

section Claims

variable {a : Arguments} {s1 e1 s2 e2 : Nat}
  (bounds1 : getStringStartEnd a.string1 a.start1 a.end1 = some (s1, e1))
  (bounds2 : getStringStartEnd a.string2 a.start2 a.end2 = some (s2, e2))

include bounds1 bounds2

theorem stringEq_eq :
    stringEq a = some (decide (codes a.string1.self s1 e1 = codes a.string2.self s2 e2)) := by
  have valid1 := getStringStartEnd_valid bounds1
  have valid2 := getStringStartEnd_valid bounds2
  rw [stringEq, bounds1, bounds2]
  simp only [bind_eq_bind, bind_some]
  by_cases length : e1 - s1 = e2 - s2
  · rw [if_neg (not_not.mpr length), sameLoop_eq s1 s2 valid1.2 valid2.2 length]
  · rw [if_pos length, decide_eq_false]
    intro same
    apply length
    rw [← codes_length valid1.2, ← codes_length valid2.2, same]

variable (upcase : Nat → Nat)

theorem stringEqual_eq : stringEqual upcase a = some (decide
    (compared upcase false a.string1.self s1 e1 = compared upcase false a.string2.self s2 e2)) := by
  have valid1 := getStringStartEnd_valid bounds1
  have valid2 := getStringStartEnd_valid bounds2
  rw [stringEqual, bounds1, bounds2]
  simp only [bind_eq_bind, bind_some]
  by_cases length : e1 - s1 = e2 - s2
  · rw [if_neg (not_not.mpr length), compare_eq upcase false s1 s2 valid1.2 valid2.2]
    apply congrArg some
    exact decide_eq_decide.mpr (diff_eq_zero _ _)
  · rw [if_pos length, decide_eq_false]
    intro same
    apply length
    have lengths := congrArg List.length same
    rwa
      [compared, compared, length_map, length_map, codes_length valid1.2,
      codes_length valid2.2] at lengths

theorem stringCompare_eq (sign1 sign2 : Int) (caseSensitive : Bool) :
    stringCompare upcase a sign1 sign2 caseSensitive = some (signed sign1 sign2
      (outcome upcase caseSensitive a.string1.self s1 e1 a.string2.self s2 e2)) := by
  rw [stringCompare, bounds1, bounds2]
  simp only [bind_eq_bind, bind_some]
  rw [compare_eq upcase caseSensitive s1 s2 (getStringStartEnd_valid bounds1).2
    (getStringStartEnd_valid bounds2).2]
  rfl

/-- The predicates compare the codes in the lexicographic order, the case-insensitive ones those of
the upcased characters; string= is ecl_string_eq on whole strings. -/
theorem strings_compared :
    Answers (codes a.string1.self s1 e1) (codes a.string2.self s2 e2) s1 (stringEq a)
      (stringLt upcase a)
      (stringGt upcase a) (stringLe upcase a) (stringGe upcase a) (stringNe upcase a) ∧
    Answers ((codes a.string1.self s1 e1).map upcase) ((codes a.string2.self s2 e2).map upcase) s1
      (stringEqual upcase a) (stringLessp upcase a) (stringGreaterp upcase a)
        (stringNotGreaterp upcase a)
      (stringNotLessp upcase a) (stringNotEqual upcase a) ∧
    stringEq { string1 := a.string1, string2 := a.string2 } = eclStringEq a.string1 a.string2 := by
  have same (self : List Nat) (s e : Nat) : compared upcase true self s e = codes self s e :=
    map_id _
  have law := stringCompare_eq bounds1 bounds2 upcase
  have whole (x : LispString) : getStringStartEnd x (.fixnum 0) .nil = some (0, x.fillp) := by
    simp [getStringStartEnd]
  refine ⟨?_, ?_, ?_⟩
  · rw [stringEq_eq bounds1 bounds2, stringLt, stringGt, stringLe, stringGe, stringNe, law, law,
      law, law, law]
    exact diff_answers (by rw [outcome, same, same])
  · rw [stringEqual_eq bounds1 bounds2, stringLessp, stringGreaterp, stringNotGreaterp,
      stringNotLessp, stringNotEqual,
      law, law, law, law, law]
    exact diff_answers rfl
  · rw [stringEq_eq (whole _) (whole _), eclStringEq_eq]

end Claims

/-- Whole strings of either representation may be sorted by string< or string-lessp. -/
theorem stringCompare_order (upcase : Nat → Nat) (caseSensitive : Bool) :
    IsStrictWeakOrder LispString fun x y =>
    ∃ n, stringCompare upcase { string1 := x, string2 := y } (-1)
      (-1) caseSensitive = some (some n) := by
  let key (x : LispString) := compared upcase caseSensitive x.self 0 x.fillp
  have less (x y : LispString) : (∃ n, stringCompare upcase { string1 := x, string2 := y } (-1) (-1)
      caseSensitive = some (some n)) ↔ key x < key y := by
    have whole (z : LispString) : getStringStartEnd z (.fixnum 0) .nil = some (0, z.fillp) := by
      simp [getStringStartEnd]
    rw [stringCompare_eq (whole x) (whole y), signed, outcome]
    rcases diff_order (key x) (key y) with ⟨order, less, -⟩ | ⟨order, less, -⟩ | ⟨order, less, -⟩
    all_goals simp [key] at order less ⊢
    all_goals simp [order, less]
  simp only [less]
  refine
    { irrefl := fun x => lt_irrefl _, trans := fun x y z => lt_trans,
      incomp_trans := fun x y z => ?_ }
  simp only [not_lt]
  exact fun same same' => ⟨same'.1.trans same.1, same.2.trans same'.2⟩

/-- A base string ab, and an extended string xabc from its second character on. -/
def prefixed : Arguments where
  string1 := ⟨.t_base_string, [97, 98], 2, by decide⟩
  string2 := ⟨.t_string, [120, 97, 98, 99], 4, by decide⟩
  start2 := .fixnum 1

theorem strings_compared_prefixed :
    stringLt id prefixed = some (some 2) ∧ stringGe id prefixed = some none := by
  have bounds1 : getStringStartEnd prefixed.string1 prefixed.start1 prefixed.end1 = some (0, 2) :=
    rfl
  have bounds2 : getStringStartEnd prefixed.string2 prefixed.start2 prefixed.end2 = some (1, 4) :=
    rfl
  obtain ⟨⟨_, n, ⟨short, _, _, differ⟩, _, lt, _, _, ge, _⟩, _⟩ :=
    strings_compared bounds1 bounds2 id
  have two : n = 2 := by
    have bound : n ≤ 2 := short
    match n with
    | 0 => exact absurd rfl (differ 97 rfl)
    | 1 => exact absurd rfl (differ 98 rfl)
    | 2 => rfl
    | n + 3 => omega
  cases two
  exact ⟨lt.trans (congrArg some (if_pos (by decide))),
    ge.trans (congrArg some (if_neg (by decide)))⟩

end Ecl.Strings
