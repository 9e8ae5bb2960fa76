import Mathlib.Data.Nat.Digits.Lemmas
import Ecl.Lib.Except
import Ecl.Number.RationalLaw
import Ecl.Text.ParseNumber

/- The syntax of rational numbers in a base, and what ecl_parse_number makes of it. -/
namespace Ecl.Text

open Ecl.Number List

/-- A character stands for a digit, and letters do in both cases. -/
def Spells (c : Nat) (d : Nat) : Prop :=
  d < 10 ∧ c = d + 48 ∨ 10 ≤ d ∧ d < 36 ∧ (c = d + 55 ∨ c = d + 87)

/-- A text is a numeral for a number. -/
structure Numeral (base : Nat) (text : List Nat) (n : Nat) : Prop where
  spells : ∃ ds, List.Forall₂ Spells text ds ∧ (∀ d ∈ ds, d < base) ∧
    Nat.ofDigits base ds.reverse = n
  nonempty : text ≠ []

/-- A numeral after a sign that is not written for positive numbers. -/
inductive SignedNumeral (base : Nat) : List Nat → Int → Prop where
  | positive {text : List Nat} {n : Nat} (numeral : Numeral base text n) :
      SignedNumeral base text n
  | negative {text : List Nat} {n : Nat} (numeral : Numeral base text n) :
      SignedNumeral base ('-'.toNat :: text) (-n)

/-- The texts that stand for a canonical rational number: an integer in the base, one in base
ten that ends with a dot, and a ratio in the base. -/
inductive RationalSyntax (base : Nat) : List Nat → Rational → Prop where
  | whole {text : List Nat} {v : Int} {x : Integer} (numeral : SignedNumeral base text v)
      (is : x.Is v) : RationalSyntax base text (.integer x)
  | decimal {text : List Nat} {v : Int} {x : Integer} (numeral : SignedNumeral 10 text v)
      (is : x.Is v) : RationalSyntax base (text ++ ['.'.toNat]) (.integer x)
  | ratio {top bottom : List Nat} {n d : Int} {num den : Integer}
      (numerator : SignedNumeral base top n) (denominator : SignedNumeral base bottom d)
      (isNum : num.Is n) (isDen : den.Is d) (canonical : (Rational.ratio num den).Canonical) :
      RationalSyntax base (top ++ '/'.toNat :: bottom) (.ratio num den)

variable (ucd : Ucd)

theorem digitp_eq (i r : Nat) : ucd.digitp i r =
    if 48 ≤ i ∧ i ≤ 57 ∧ i < 48 + r then some (i - 48)
    else if 65 ≤ i ∧ 10 < r ∧ i < 65 + (r - 10) then some (i - 65 + 10)
    else if 97 ≤ i ∧ 10 < r ∧ i < 97 + (r - 10) then some (i - 97 + 10)
    else if 255 < i ∧ ucd.decimalDigit i < r then some (ucd.decimalDigit i)
    else none := rfl

variable {c d : Nat}

theorem Spells.digitp {r : Nat} (spells : Spells c d) (small : d < r) (_le : r ≤ 36) :
    ucd.digitp c r = some d := by
  rw [digitp_eq]
  unfold Spells at spells
  split
  · exact congrArg some (by omega)
  · split
    · exact congrArg some (by omega)
    · rw [if_pos (by omega)]
      exact congrArg some (by omega)

theorem Spells.range (spells : Spells c d) :
    48 ≤ c ∧ c ≤ 57 ∨ 65 ≤ c ∧ c ≤ 90 ∨ 97 ≤ c ∧ c ≤ 122 := by
  unfold Spells at spells
  omega

theorem charUpcase_of_ascii (ascii : c < 128) :
    ucd.charUpcase c = if 97 ≤ c ∧ c ≤ 122 then c - 32 else c := by
  have lower := ucd.lower c ascii
  have upcased := ucd.upcased c ascii
  unfold Ucd.charUpcase
  by_cases small : 97 ≤ c ∧ c ≤ 122
  · rw [if_pos (lower.mpr small), if_pos small]
    have := upcased (lower.mpr small)
    omega
  · rw [if_neg (mt lower.mp small), if_neg small]

theorem alphaCharP_of_ascii (ascii : c < 128) :
    ucd.alphaCharP c = true ↔ 65 ≤ c ∧ c ≤ 90 ∨ 97 ≤ c ∧ c ≤ 122 := by
  have upper := ucd.upper c ascii
  have lower := ucd.lower c ascii
  have letter := ucd.letter c ascii
  rw [Ucd.alphaCharP, Ucd.generalCategory, decide_eq_true_iff, letter]
  omega

theorem Spells.upcase (spells : Spells c d) : Spells (ucd.charUpcase c) d := by
  have range := spells.range
  rw [charUpcase_of_ascii ucd (show c < 128 by omega)]
  unfold Spells at spells ⊢
  split
  · omega
  · omega

variable {base : Nat} {text : List Nat}

theorem digits_spells (le : base ≤ 36) {ds : List Nat}
    (spells : List.Forall₂ Spells text ds) (small : ∀ d ∈ ds, d < base) :
    digits ucd base text = ds := by
  induction spells with
  | nil => rfl
  | cons first others ih =>
    rw [digits, first.digitp ucd (small _ mem_cons_self) le,
      ih fun d member => small d (mem_cons_of_mem _ member)]

theorem register_eq (base : Nat) (ds : List Nat) :
    ds.foldl (fun (part : Int) (d : Nat) => part * base + d) 0 =
      (Nat.ofDigits base ds.reverse : ℕ) := by
  rw [Nat.coe_ofDigits, Nat.ofDigits_eq_foldr, foldr_reverse]
  congr 1
  funext part d
  ring

variable {n : Nat}

theorem Numeral.head (numeral : Numeral base text n) :
    ∃ c rest d, text = c :: rest ∧ Spells c d ∧ d < base := by
  obtain ⟨ds, spells, small, _⟩ := numeral.spells
  cases spells with
  | nil => exact absurd rfl numeral.nonempty
  | cons first others => exact ⟨_, _, _, rfl, first, small _ mem_cons_self⟩

theorem spelled_of_mem {ds : List Nat} (spells : List.Forall₂ Spells text ds) :
    ∀ c ∈ text, ∃ d ∈ ds, Spells c d := by
  induction spells with
  | nil => exact fun c member => absurd member not_mem_nil
  | cons first others ih =>
    intro c member
    cases member with
    | head => exact ⟨_, mem_cons_self, first⟩
    | tail _ member =>
      have ⟨d, inside, spells⟩ := ih c member
      exact ⟨d, mem_cons_of_mem _ inside, spells⟩

theorem Numeral.spelled (numeral : Numeral base text n) :
    ∀ c ∈ text, ∃ d, Spells c d ∧ d < base := by
  obtain ⟨ds, spells, small, _⟩ := numeral.spells
  intro c member
  have ⟨d, inside, spells⟩ := spelled_of_mem spells c member
  exact ⟨d, spells, small d inside⟩

theorem Numeral.upcase (numeral : Numeral base text n) :
    Numeral base (text.map ucd.charUpcase) n := by
  obtain ⟨ds, spells, small, value⟩ := numeral.spells
  have upcased : List.Forall₂ Spells (text.map ucd.charUpcase) ds := by
    rw [forall₂_map_left_iff]
    exact spells.imp fun c d => Spells.upcase ucd
  exact ⟨⟨ds, upcased, small, value⟩, mt map_eq_nil_iff.mp numeral.nonempty⟩

variable {v : Int}

theorem parseInteger_signed (le : base ≤ 36) (numeral : SignedNumeral base text v) :
    parseInteger ucd base text = some (bigRegisterNormalize v, text.length) := by
  cases numeral with
  | @positive _ n numeral =>
    obtain ⟨ds, spells, small, value⟩ := numeral.spells
    obtain ⟨c, rest, d, rfl, first, _⟩ := numeral.head
    have range := first.range
    have unsigned : signCode c = false := by
      simp only [signCode, Char.reduceToNat, Bool.or_eq_false_iff, decide_eq_false_iff_not]
      omega
    have notMinus : c ≠ 45 := by omega
    have some_digit : ds ≠ [] := by
      intro none
      rw [none] at spells
      cases spells
    simp only [parseInteger, take_succ_cons, take_zero, countP_singleton, unsigned,
      drop_zero, digits_spells ucd le spells small, register_eq, value, List.head?_cons,
      Option.some.injEq, Char.reduceToNat, notMinus, reduceCtorEq, false_or, if_neg some_digit,
      Bool.false_eq_true, if_false, Nat.zero_add, spells.length_eq]
    exact if_neg (by omega)
  | @negative text n numeral =>
    obtain ⟨ds, spells, small, value⟩ := numeral.spells
    have some_digit : ds ≠ [] := by
      intro none
      rw [none] at spells
      exact numeral.nonempty (forall₂_nil_right_iff.mp spells)
    have sign : signCode 45 = true := by decide
    simp only [parseInteger, take_succ_cons, take_zero, countP_singleton, sign,
      drop_succ_cons, drop_zero, digits_spells ucd le spells small, register_eq, value,
      List.head?_cons, Char.reduceToNat, reduceCtorEq, false_or, if_neg some_digit, if_true,
      length_cons, spells.length_eq, Nat.add_comm]
    exact if_neg (by omega)

/-- A character that the loop of ecl_parse_number goes past. -/
structure Passes (radix c : Nat) : Prop where
  notSlash : c ≠ '/'.toNat
  notDot : c ≠ '.'.toNat
  accepted : ucd.digitp c radix ≠ none ∨ digitCode c = true ∨ signCode c = true

theorem not_marker (accepted : digitCode c = true ∨ signCode c = true) :
    exponentMarkerP c = false := by
  simp only [digitCode, signCode, Bool.and_eq_true, Bool.or_eq_true, decide_eq_true_iff,
    Char.reduceToNat] at accepted
  simp only [exponentMarkerP, any_cons, any_nil, Bool.or_eq_false_iff,
    decide_eq_false_iff_not, Char.reduceToNat, and_true]
  omega

theorem parseFrom_passes {str cs rest : List Nat} {radix : Nat} {isFloat : Bool}
    (passes : ∀ c ∈ cs, Passes ucd radix c) (i : Nat) :
    parseFrom ucd str (cs ++ rest) i radix isFloat =
      parseFrom ucd str rest (i + cs.length) radix isFloat := by
  induction cs generalizing i with
  | nil => rfl
  | cons c cs ih =>
    have first := passes c mem_cons_self
    have step : parseFrom ucd str (c :: cs ++ rest) i radix isFloat =
        parseFrom ucd str (cs ++ rest) (i + 1) radix isFloat := by
      rw [cons_append, parseFrom, if_neg first.notSlash, if_neg first.notDot]
      split
      · rename_i noDigit
        have accepted := first.accepted.resolve_left (not_not_intro (Option.isNone_iff_eq_none.mp
          noDigit))
        rw [if_neg (by rw [not_marker accepted]; exact Bool.false_ne_true), if_neg]
        intro refused
        rw [refused.1, refused.2] at accepted
        exact absurd accepted (by decide)
      · rfl
    rw [step, ih (fun c member => passes c (mem_cons_of_mem _ member)), length_cons,
      Nat.add_assoc, Nat.add_comm 1]

theorem Spells.passes {radix : Nat} (spells : Spells c d)
    (accepted : ucd.digitp c radix ≠ none ∨ digitCode c = true ∨ signCode c = true) :
    Passes ucd radix c := by
  have range := spells.range
  refine ⟨?_, ?_, accepted⟩
  · simp only [Char.reduceToNat]
    omega
  · simp only [Char.reduceToNat]
    omega

theorem minus_passes (radix : Nat) : Passes ucd radix '-'.toNat :=
  ⟨by decide, by decide, .inr (.inr (by decide))⟩

theorem SignedNumeral.passes {radix : Nat} (numeral : SignedNumeral base text v)
    (digit : ∀ c d, Spells c d → d < base → ucd.digitp c radix ≠ none ∨ digitCode c = true) :
    ∀ c ∈ text, Passes ucd radix c := by
  have unsigned {text : List Nat} {n : Nat} (numeral : Numeral base text n) (c : Nat)
      (member : c ∈ text) : Passes ucd radix c := by
    have ⟨d, spells, small⟩ := numeral.spelled c member
    exact spells.passes ucd ((digit c d spells small).imp_right .inl)
  cases numeral with
  | positive numeral => exact unsigned numeral
  | negative numeral =>
    intro c member
    cases member with
    | head => exact minus_passes ucd radix
    | tail _ member => exact unsigned numeral c member

theorem SignedNumeral.passes_base (le : base ≤ 36)
    (numeral : SignedNumeral base text v) : ∀ c ∈ text, Passes ucd base c :=
  numeral.passes ucd fun c d spells small => by
    rw [spells.digitp ucd small le]
    exact .inl (Option.some_ne_none d)

theorem SignedNumeral.passes_decimal
    (numeral : SignedNumeral 10 text v) (radix : Nat) : ∀ c ∈ text, Passes ucd radix c :=
  numeral.passes ucd fun c d spells small => by
    unfold Spells at spells
    simp only [digitCode, Char.reduceToNat, Bool.and_eq_true, decide_eq_true_iff]
    omega

theorem SignedNumeral.nonempty (numeral : SignedNumeral base text v) : text ≠ [] := by
  cases numeral with
  | positive numeral => exact numeral.nonempty
  | negative numeral => exact cons_ne_nil _ _

theorem makeRatio_canonical {num den : Integer} (canonical : (Rational.ratio num den).Canonical) :
    makeRatio num den = .ok (.ratio num den) := by
  obtain ⟨canonicalNum, canonicalDen, above, coprime⟩ := canonical
  have denominator (n : Int) (w : BitVec 64) (is : (makeFixnum w).Is n) (small : n ≤ 1) :
      den ≠ makeFixnum w := by
    intro same
    have value := is.value_eq
    rw [← same] at value
    omega
  have notZero := denominator 0 0 Integer.makeFixnum_zero (by decide)
  have notOne := denominator 1 1 Integer.makeFixnum_one (by decide)
  have notMinusOne := denominator (-1) (-1) ⟨trivial, by decide⟩ (by decide)
  have nonzero : num ≠ makeFixnum 0 := by
    intro zero
    rw [(Integer.eq_zero_iff canonicalNum).mp zero, Int.gcd_zero_left] at coprime
    omega
  have positive : den.minusp ≠ true := mt (Integer.minusp_iff den).mp (by omega)
  have unit : num.gcd den = makeFixnum 1 := by
    apply Integer.Is.unique (Integer.gcd_is num den)
    rw [coprime]
    exact Integer.makeFixnum_one
  simp only [makeRatio, reduce, if_neg notZero, nonzero, notOne, or_self, if_false, if_neg positive,
    unit, ne_eq, not_true, Ecl.Lib.ok_bind, if_neg notMinusOne]

theorem parseNumber_number (le : base ≤ 36) {x : Rational} (numeral : RationalSyntax base text x) :
    parseNumber ucd text base = .rational x text.length := by
  cases numeral with
  | @whole _ v x numeral is =>
    have scan := @parseFrom_passes ucd text text [] base false (numeral.passes_base ucd le) 0
    rw [append_nil] at scan
    rw [parseNumber, if_neg numeral.nonempty, scan, parseFrom, if_neg Bool.false_ne_true,
      parseWhole, parseInteger_signed ucd le numeral]
    rw [Integer.Is.unique is (bigRegisterNormalize_is v)]
  | @decimal text v x numeral is =>
    rw [parseNumber, if_neg (append_ne_nil_of_right_ne_nil _ (cons_ne_nil _ _)),
      parseFrom_passes ucd (numeral.passes_decimal ucd base) 0, parseFrom,
      if_neg (by decide), if_pos rfl, if_pos rfl, parseDecimal, Nat.zero_add,
      take_left, parseInteger_signed ucd (by decide) numeral]
    simp only [if_true]
    rw [Integer.Is.unique is (bigRegisterNormalize_is v)]
  | @ratio top bottom n d num den numerator denominator isNum isDen canonical =>
    have top_is := Integer.Is.unique isNum (bigRegisterNormalize_is n)
    have bottom_is := Integer.Is.unique isDen (bigRegisterNormalize_is d)
    rw [parseNumber, if_neg (append_ne_nil_of_right_ne_nil _ (cons_ne_nil _ _)),
      parseFrom_passes ucd (numerator.passes_base ucd le) 0, parseFrom, if_pos rfl, parseRatio,
      Nat.zero_add, take_left, parseInteger_signed ucd le numerator]
    have below : (top ++ '/'.toNat :: bottom).drop (top.length + 1) = bottom := by
      rw [drop_append, drop_eq_nil_of_le (Nat.le_succ _), Nat.add_sub_cancel_left]
      rfl
    have length : (top ++ '/'.toNat :: bottom).length = top.length + 1 + bottom.length := by
      rw [length_append, length_cons]
      omega
    have positive : den ≠ makeFixnum 0 := by
      intro zero
      have above : 1 < den.value := canonical.2.2.1
      rw [(Integer.eq_zero_iff canonical.2.1).mp zero] at above
      omega
    simp only [Nat.lt_irrefl, if_false, below, parseInteger_signed ucd le denominator, length,
      ← top_is, ← bottom_is, if_neg positive, makeRatio_canonical canonical]

end Ecl.Text
