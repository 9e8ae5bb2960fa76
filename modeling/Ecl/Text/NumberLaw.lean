import Ecl.Text.Numeral
import Ecl.Text.Write

/- Rational numbers are read back from the texts that they are written as. -/
namespace Ecl.Text

open Ecl.Number List
open Ecl.Lib (ok_bind)

variable {base : Nat}

theorem numeral_zero (two_le : 2 ≤ base) : Numeral base ['0'.toNat] 0 := by
  refine ⟨⟨[0], .cons (.inl ⟨by decide, rfl⟩) .nil, ?_, rfl⟩, cons_ne_nil _ _⟩
  simp only [mem_singleton, forall_eq]
  omega

theorem numeral_of_digits {n : Nat} (two_le : 2 ≤ base) (positive : 0 < n) {f : Nat → Nat}
    (spells : ∀ d < base, Spells (f d) d) :
    Numeral base ((Nat.digits base n).map f).reverse n := by
  have small (d : Nat) (member : d ∈ (Nat.digits base n).reverse) : d < base :=
    Nat.digits_lt_base (by omega) (mem_reverse.mp member)
  refine ⟨⟨(Nat.digits base n).reverse, ?_, small, ?_⟩, ?_⟩
  · rw [← map_reverse, forall₂_map_left_iff, forall₂_same]
    exact fun d member => spells d (small d member)
  · rw [reverse_reverse, Nat.ofDigits_digits]
  · rw [ne_eq, reverse_eq_nil_iff, map_eq_nil_iff, Nat.digits_eq_nil_iff_eq_zero]
    omega

/-- The digit that ecl_digit_char makes. -/
def upperDigit (d : Nat) : Nat := if d < 10 then d + 48 else d + 55

theorem upperDigit_spells {d : Nat} (small : d < 36) : Spells (upperDigit d) d := by
  unfold Spells upperDigit
  split
  · omega
  · omega

theorem mpzDigit_spells {d : Nat} (small : d < 36) : Spells (mpzDigit d) d := by
  unfold Spells mpzDigit
  simp only [Char.reduceToNat]
  split
  · omega
  · omega

theorem digitChar_eq {w r : Nat} (two_le : 2 ≤ r) (le : r ≤ 36) (small : w < r) :
    digitChar w r = some (upperDigit w) := by
  unfold digitChar upperDigit
  simp only [Char.reduceToNat]
  rw [if_neg (by omega)]
  split
  · rfl
  · exact congrArg some (by omega)

theorem fixnumDigits_eq (two_le : 2 ≤ base) (le : base ≤ 36) {room i : Nat}
    (positive : 0 < i) (fits : i < base ^ room) :
    fixnumDigits base room i = (Nat.digits base i).map upperDigit := by
  induction room generalizing i with
  | zero =>
    rw [Nat.pow_zero] at fits
    omega
  | succ room ih =>
    have below : i % base < base := Nat.mod_lt i (by omega)
    rw [fixnumDigits, digitChar_eq two_le le below, Nat.digits_def' (by omega) positive,
      map_cons, Option.toList_some, singleton_append]
    split
    · rename_i last
      rw [last, Nat.digits_zero, map_nil]
    · rename_i more
      rw [ih (Nat.pos_of_ne_zero more) ((Nat.div_lt_iff_lt_mul (by omega)).mpr fits)]

theorem writePositiveFixnum_numeral (base : Radix) (i : BitVec 64) :
    Numeral base.value (writePositiveFixnum i base.value 0) i.toNat := by
  have two_le := base.two_le
  have le := base.le_36
  rw [writePositiveFixnum, Nat.zero_sub, replicate_zero, nil_append]
  by_cases zero : i = 0
  · subst zero
    exact numeral_zero two_le
  · have positive : 0 < i.toNat :=
      Nat.pos_of_ne_zero fun none => zero (BitVec.eq_of_toNat_eq none)
    have fits : i.toNat < base.value ^ fixnumBits :=
      Nat.lt_of_lt_of_le i.isLt (Nat.pow_le_pow_left two_le _)
    rw [if_neg zero, fixnumDigits_eq two_le le positive fits]
    exact numeral_of_digits two_le positive fun d small =>
      upperDigit_spells (Nat.lt_of_lt_of_le small le)

variable {v : Int}

theorem SignedNumeral.of_eq {text : List Nat} {w : Int}
    (numeral : SignedNumeral base text v) (same : v = w) : SignedNumeral base text w :=
  same ▸ numeral

theorem writeFixnum_signed (base : Radix) (n : BitVec 62) :
    SignedNumeral base.value (writeFixnum base.value n) n.toInt := by
  have zero := Integer.eq_zero_iff (x := .fixnum n) trivial
  unfold writeFixnum
  split
  · rename_i none
    exact (SignedNumeral.positive (numeral_zero base.two_le)).of_eq (zero.mp none).symm
  · rw [toInt_fix]
    split
    · rename_i negative
      apply (SignedNumeral.negative (writePositiveFixnum_numeral base (-fix n))).of_eq
      rw [Integer.toNat_neg_of_neg (by rw [toInt_fix]; omega), toInt_fix]
      omega
    · rename_i positive
      apply (SignedNumeral.positive (writePositiveFixnum_numeral base (fix n))).of_eq
      rw [Integer.toNat_of_nonneg (by rw [toInt_fix]; omega), toInt_fix]

theorem mpzGetStr_signed (base : Radix) (v : Int) :
    SignedNumeral base.value (mpzGetStr base.value v) v := by
  unfold mpzGetStr
  split
  · rename_i zero
    exact (SignedNumeral.positive (numeral_zero base.two_le)).of_eq zero.symm
  · rename_i nonzero
    have numeral := numeral_of_digits base.two_le (show 0 < v.natAbs by omega)
      fun d small => mpzDigit_spells (Nat.lt_of_lt_of_le small base.le_36)
    split
    · exact (SignedNumeral.negative numeral).of_eq (by omega)
    · exact (SignedNumeral.positive numeral).of_eq (by omega)

theorem writeInteger_signed (base : Radix) (x : Integer) :
    SignedNumeral base.value (writeInteger ⟨base, false⟩ x) x.value := by
  simp only [writeInteger, Bool.false_eq_true, false_and, if_false, nil_append,
    append_nil]
  cases x with
  | fixnum n => exact writeFixnum_signed base n
  | bignum v => exact mpzGetStr_signed base v

variable {x : Rational}

theorem writeRational_form (base : Radix) (canonical : x.Canonical) :
    RationalSyntax base.value (writeRational ⟨base, false⟩ x) x := by
  cases x with
  | integer n => exact .whole (writeInteger_signed base n) (Integer.is_value canonical)
  | ratio num den =>
    exact .ratio (writeInteger_signed base num) (writeInteger_signed base den)
      (Integer.is_value canonical.1) (Integer.is_value canonical.2.1) canonical

theorem writeRational_radix (base : Radix) (canonical : x.Canonical) :
    writeRational ⟨base, true⟩ x = writeBase base.value ++ writeRational ⟨base, false⟩ x ∨
      ∀ radix, RationalSyntax radix (writeRational ⟨base, true⟩ x) x := by
  cases x with
  | integer n =>
    have signed := writeInteger_signed base n
    by_cases ten : base.value = 10
    · have dotted : writeInteger ⟨base, true⟩ n = writeInteger ⟨base, false⟩ n ++ ['.'.toNat] := by
        simp [writeInteger, ten]
      rw [ten] at signed
      refine .inr fun radix => ?_
      rw [writeRational, dotted]
      exact .decimal signed (Integer.is_value canonical)
    · refine .inl ?_
      simp [writeRational, writeInteger, ten]
  | ratio num den =>
    refine .inl ?_
    simp [writeRational]

theorem upcase_minus (ucd : Ucd) : ucd.charUpcase '-'.toNat = '-'.toNat := by
  rw [charUpcase_of_ascii ucd (by decide), if_neg (by decide)]

theorem SignedNumeral.upcase (ucd : Ucd) {text : List Nat} (numeral : SignedNumeral base text v) :
    SignedNumeral base (text.map ucd.charUpcase) v := by
  cases numeral with
  | positive numeral => exact .positive (numeral.upcase ucd)
  | negative numeral =>
    rw [map_cons, upcase_minus]
    exact .negative (numeral.upcase ucd)

theorem RationalSyntax.upcase (ucd : Ucd) {text : List Nat} (numeral : RationalSyntax base text x) :
    RationalSyntax base (text.map ucd.charUpcase) x := by
  cases numeral with
  | whole numeral is => exact .whole (numeral.upcase ucd) is
  | decimal numeral is =>
    rw [map_append, map_cons, charUpcase_of_ascii ucd (c := '.'.toNat) (by decide)]
    exact .decimal (numeral.upcase ucd) is
  | ratio numerator denominator isNum isDen canonical =>
    rw [map_append, map_cons, charUpcase_of_ascii ucd (c := '/'.toNat) (by decide)]
    exact .ratio (numerator.upcase ucd) (denominator.upcase ucd) isNum isDen canonical

theorem SignedNumeral.bare {text : List Nat} (numeral : SignedNumeral base text v) :
    ∀ c ∈ text, Bare c := by
  have unsigned {text : List Nat} {n : Nat} (numeral : Numeral base text n) (c : Nat)
      (member : c ∈ text) : Bare c := by
    have ⟨d, spells, _⟩ := numeral.spelled c member
    have range := spells.range
    exact bare_of_range (by omega)
  cases numeral with
  | positive numeral => exact unsigned numeral
  | negative numeral =>
    intro c member
    cases member with
    | head => exact bare_of_range (by decide)
    | tail _ member => exact unsigned numeral c member

theorem RationalSyntax.bare {text : List Nat}
    (numeral : RationalSyntax base text x) : ∀ c ∈ text, Bare c := by
  intro c member
  cases numeral with
  | whole numeral _ => exact numeral.bare c member
  | decimal numeral _ =>
    cases mem_append.mp member with
    | inl inside => exact numeral.bare c inside
    | inr dot =>
      rw [mem_singleton.mp dot]
      exact bare_of_range (by decide)
  | ratio numerator denominator _ _ _ =>
    cases mem_append.mp member with
    | inl inside => exact numerator.bare c inside
    | inr rest =>
      cases rest with
      | head => exact bare_of_range (by decide)
      | tail _ inside => exact denominator.bare c inside

theorem SignedNumeral.head {text : List Nat} (numeral : SignedNumeral base text v) :
    ∃ c rest, text = c :: rest ∧ (c = '-'.toNat ∨ ∃ d, Spells c d ∧ d < base) := by
  cases numeral with
  | positive numeral =>
    have ⟨c, rest, d, same, spells, small⟩ := numeral.head
    exact ⟨c, rest, same, .inr ⟨d, spells, small⟩⟩
  | negative numeral => exact ⟨_, _, rfl, .inl rfl⟩

theorem RationalSyntax.head {text : List Nat} (numeral : RationalSyntax base text x) :
    ∃ c rest, text = c :: rest ∧
      (c = '-'.toNat ∨ ∃ d, Spells c d ∧ (d < base ∨ d < 10)) := by
  cases numeral with
  | whole numeral _ =>
    have ⟨c, rest, same, first⟩ := numeral.head
    exact ⟨c, rest, same, first.imp_right fun ⟨d, spells, small⟩ => ⟨d, spells, .inl small⟩⟩
  | decimal numeral _ =>
    have ⟨c, rest, same, first⟩ := numeral.head
    rw [same, cons_append]
    exact ⟨c, _, rfl, first.imp_right fun ⟨d, spells, small⟩ => ⟨d, spells, .inr small⟩⟩
  | ratio numerator denominator _ _ _ =>
    have ⟨c, rest, same, first⟩ := numerator.head
    rw [same, cons_append]
    exact ⟨c, _, rfl, first.imp_right fun ⟨d, spells, small⟩ => ⟨d, spells, .inl small⟩⟩

variable {Symbol Package : Type} (env : Environment Symbol Package)

namespace Environment

variable {x : Rational}

theorem tokenObject_number {token : List Nat}
    (numeral : RationalSyntax env.readBase.value token x) :
    env.tokenObject { TokenState.initial with token } = .ok (.rational x) := by
  have ⟨c, rest, same, first⟩ := numeral.head
  have ascii : c < 128 ∧ c ≠ '.'.toNat := by
    cases first with
    | inl minus => rw [minus]; decide
    | inr digit =>
      have ⟨d, spells, _⟩ := digit
      have range := spells.range
      simp only [Char.reduceToNat]
      omega
  have number : ¬ (env.readBase.value ≤ 10 ∧ env.ucd.alphaCharP c = true) := by
    intro ⟨small, alpha⟩
    rw [alphaCharP_of_ascii env.ucd ascii.1] at alpha
    cases first with
    | inl minus => simp only [minus, Char.reduceToNat] at alpha; omega
    | inr digit =>
      have ⟨d, spells, below⟩ := digit
      unfold Spells at spells
      omega
  have notDots : ¬ token.all (· = '.'.toNat) := by
    simp only [same, all_cons, decide_eq_false ascii.2, Bool.false_and, Bool.false_eq_true,
      not_false_eq_true]
  have notDot : token ≠ ['.'.toNat] := by
    rintro rfl
    exact notDots (by decide)
  have nonempty : token ≠ [] := by
    rw [same]
    exact cons_ne_nil _ _
  have parsed := parseNumber_number env.ucd env.readBase.le_36 numeral
  rw [tokenObject]
  simp only [TokenState.initial, Option.isSome_none, Bool.false_eq_true, nonempty, or_self,
    if_false, notDot, notDots, maybeNumber, parsed, if_true]
  rw [if_neg]
  rw [same]
  exact number

theorem readObject_number {text : List Nat}
    (numeral : RationalSyntax env.readBase.value text x) {rest : List Nat}
    (delimited : Delimited rest) :
    env.readObject (text ++ rest) = .ok (some (.rational x), rest) := by
  have ⟨c, others, same, _⟩ := numeral.head
  rw [env.readObject_bare numeral.bare (by rw [same]; exact cons_ne_nil _ _) delimited,
    env.tokenObject_number (numeral.upcase env.ucd)]
  rfl

theorem readNumber_number {radix : Nat} (le : radix ≤ 36) {text : List Nat}
    (numeral : RationalSyntax radix text x) {rest : List Nat} (delimited : Delimited rest)
    (macroChar : Char) :
    env.readNumber radix macroChar (text ++ rest) = .ok (some (.rational x), rest) := by
  rw [readNumber, readConstituent_bare numeral.bare delimited]
  simp only [parseNumber_number env.ucd le numeral, if_true]

theorem dispatchFrom_digit {argument : Option Nat} {d : Nat} (small : d < 10) (rest : List Nat) :
    env.dispatchFrom argument ((d + '0'.toNat) :: rest) =
      env.dispatchFrom (some (10 * argument.getD 0 + d)) rest := by
  have digit : env.ucd.digitp (d + '0'.toNat) 10 = some d :=
    Spells.digitp env.ucd (.inl ⟨small, rfl⟩) small (by decide)
  rw [dispatchFrom, digit]

theorem dispatchFrom_letter (argument : Option Nat) {c : Nat} (letter : 97 ≤ c ∧ c ≤ 122)
    (rest : List Nat) :
    env.dispatchFrom argument (c :: rest) =
      env.dispatchSharp c (argument.map fun i => (BitVec.ofNat 62 i).toInt) rest := by
  have noDigit : env.ucd.digitp c 10 = none := by
    rw [digitp_eq, if_neg (by omega), if_neg (by omega), if_neg (by omega), if_neg (by omega)]
  rw [dispatchFrom, noDigit]

theorem sharpRReader_radix (base : Radix) (input : List Nat) :
    env.sharpRReader (some (BitVec.ofNat 62 base.value).toInt) input =
      env.readNumber base.value 'R' input := by
  have two_le := base.two_le
  have le := base.le_36
  have value : (BitVec.ofNat 62 base.value).toInt = base.value := by
    rw [BitVec.toInt_ofNat', Int.bmod_eq_of_le (by omega) (by omega)]
  simp only [sharpRReader, value, Int.toNat_natCast]
  exact if_neg (by omega)

theorem readObject_writeBase (base : Radix) (input : List Nat) :
    ∃ macroChar, env.readObject (writeBase base.value ++ input) =
      env.readNumber base.value macroChar input := by
  have le := base.le_36
  unfold writeBase
  split
  · rename_i two
    rw [two]
    exact ⟨'B', env.dispatchFrom_letter none (c := 'b'.toNat) (by decide) input⟩
  · split
    · rename_i eight
      rw [eight]
      exact ⟨'O', env.dispatchFrom_letter none (c := 'o'.toNat) (by decide) input⟩
    · split
      · rename_i sixteen
        rw [sixteen]
        exact ⟨'X', env.dispatchFrom_letter none (c := 'x'.toNat) (by decide) input⟩
      · refine ⟨'R', ?_⟩
        rw [← env.sharpRReader_radix]
        split
        · have tens : base.value / 10 < 10 := by omega
          have units : base.value % 10 < 10 := by omega
          have whole : 10 * (10 * 0 + base.value / 10) + base.value % 10 = base.value := by omega
          calc
            _ = env.dispatchFrom none ((base.value / 10 + '0'.toNat) ::
                (base.value % 10 + '0'.toNat) :: 'r'.toNat :: input) := rfl
            _ = env.dispatchFrom (some (10 * (10 * 0 + base.value / 10) + base.value % 10))
                ('r'.toNat :: input) := by
              rw [env.dispatchFrom_digit tens, env.dispatchFrom_digit units]
              rfl
            _ = _ := by
              rw [whole, env.dispatchFrom_letter _ (by decide)]
              rfl
        · have small : base.value < 10 := by omega
          calc
            _ = env.dispatchFrom none ((base.value + '0'.toNat) :: 'r'.toNat :: input) := rfl
            _ = env.dispatchFrom (some (10 * 0 + base.value)) ('r'.toNat :: input) := by
              rw [env.dispatchFrom_digit small]
              rfl
            _ = _ := by
              rw [Nat.mul_zero, Nat.zero_add, env.dispatchFrom_letter _ (by decide)]
              rfl

end Environment

/-- A rational number is read back from its digits in the base that they are in, and with
*print-radix* in any base, up to where its text ends. -/
theorem rational_round_trip {Symbol Package : Type} (x : Rational) (canonical : x.Canonical)
    (base : Radix) (rest : List Nat) (delimited : Delimited rest)
    (env : Environment Symbol Package) :
    (env.readBase = base →
      env.readObject (writeRational ⟨base, false⟩ x ++ rest) = .ok (some (.rational x), rest)) ∧
    env.readObject (writeRational ⟨base, true⟩ x ++ rest) = .ok (some (.rational x), rest) := by
  have syn := writeRational_form base canonical
  constructor
  · rintro rfl
    exact env.readObject_number syn delimited
  · cases writeRational_radix base canonical with
    | inl prefixed =>
      have ⟨macroChar, read⟩ := env.readObject_writeBase base
        (writeRational ⟨base, false⟩ x ++ rest)
      rw [prefixed, append_assoc, read]
      exact env.readNumber_number base.le_36 syn delimited macroChar
    | inr dotted => exact env.readObject_number (dotted env.readBase.value) delimited

/-- Minus seven over a bignum, before a space. -/
theorem rational_round_trip_bignum :
    let x := Rational.ratio (.fixnum (-7)) (.bignum (2 ^ 64))
    let base : Radix := ⟨16, by decide, by decide⟩
    let octal : Radix := ⟨8, by decide, by decide⟩
    (emptyEnvironment base).readObject (writeRational ⟨base, false⟩ x ++ text " a") =
        .ok (some (.rational x), text " a") ∧
      (emptyEnvironment octal).readObject (writeRational ⟨base, true⟩ x ++ text " a") =
        .ok (some (.rational x), text " a") := by
  intro x base octal
  have canonical : x.Canonical := by decide +kernel
  have delimited : Delimited (text " a") := by
    rintro c ⟨⟩
    exact .inl rfl
  exact ⟨(rational_round_trip x canonical base _ delimited (emptyEnvironment base)).1 rfl,
    (rational_round_trip x canonical base _ delimited (emptyEnvironment octal)).2⟩

end Ecl.Text
