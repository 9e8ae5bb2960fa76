import Ecl.Text.NumberToken

/- The function ecl_parse_number on a part of a text, from a start to an end. -/
namespace Ecl.Text

open Ecl.Number List Option Prod

variable (ucd : Ucd)

/-- The characters from start up to, but not including, end. -/
def range (str : List Nat) (start stop : Nat) : List Nat := (str.take stop).drop start

/-- The function ecl_parse_integer, with the index after the last character that it takes. -/
def parseIntegerIn (str : List Nat) (start stop radix : Nat) : Option (Integer × Nat) :=
  (parseInteger ucd radix (range str start stop)).map fun found => (found.1, start + found.2)

/-- A place in a part of a text, as a place in the text. -/
def Parsed.shift (start : Nat) : Parsed → Parsed
  | .rational x stop => .rational x (start + stop)
  | .float stop => .float (start + stop)
  | other => other

def parseRatioIn (str : List Nat) (start i stop radix : Nat) : Parsed :=
  match parseIntegerIn ucd str start i radix with
  | none => .objnull
  | some (num, ep) =>
    if ep < i then .objnull
    else
      match parseIntegerIn ucd str (i + 1) stop radix with
      | none => .objnull
      | some (den, ep) =>
        if ep < stop then .objnull
        else if den = makeFixnum 0 then .nil
        else
          match makeRatio num den with
          | .ok x => .rational x stop
          | .error e => .fault e

def parseWholeIn (str : List Nat) (start stop radix : Nat) : Parsed :=
  match parseIntegerIn ucd str start stop radix with
  | none => .objnull
  | some (x, ep) => .rational (.integer x) ep

/-- A trailing dot at index i. -/
def parseDecimalIn (str : List Nat) (i stop : Nat) : Parsed :=
  match parseIntegerIn ucd str 0 i 10 with
  | none => .objnull
  | some (x, ep) => .rational (.integer x) (if ep = i then stop else ep)

/-- A float, or nothing where what happens is not defined: the copy of a string that is not a
base string is made at the index that the characters have in the string, and not from the first
place of the buffer on, which has room for one character more than there are. -/
def parseFloatIn (base : Bool) (str : List Nat) (start stop marker radix : Nat) : Option Parsed :=
  if base ∨ start = 0 ∨ radix ≠ 10 then
    some ((parseFloat (range str start stop) marker radix).shift start)
  else
    let copied := (range str start stop).findIdx (255 < ·)
    if copied < stop - start ∧ (copied = 0 ∨ start + copied ≤ stop - start + 1) then some .objnull
    else none

/-- The loop of ecl_parse_number at index i, where the rest of the characters starts. -/
def parseRangeFrom (base : Bool) (str : List Nat) (start stop : Nat) :
    List Nat → Nat → Nat → Bool → Option Parsed
  | [], _, radix, isFloat =>
    if isFloat then parseFloatIn base str start stop 0 radix
    else some (parseWholeIn ucd str start stop radix)
  | c :: rest, i, radix, isFloat =>
    if c = '/'.toNat then some (parseRatioIn ucd str start i stop radix)
    else if c = '.'.toNat then
      if i = stop - 1 then some (parseDecimalIn ucd str i stop)
      else parseRangeFrom base str start stop rest (i + 1) 10 true
    else if (ucd.digitp c radix).isNone then
      if exponentMarkerP c then parseFloatIn base str start stop (i - start) radix
      else if digitCode c = false ∧ signCode c = false then some .objnull
      else parseRangeFrom base str start stop rest (i + 1) radix isFloat
    else parseRangeFrom base str start stop rest (i + 1) radix isFloat

/-- The function ecl_parse_number on a base string or another string. -/
def parseNumberIn (base : Bool) (str : List Nat) (start stop radix : Nat) : Option Parsed :=
  if stop ≤ start then some .objnull
  else parseRangeFrom ucd base str start stop (range str start stop) start radix false

/-- Digits of the radix, with the number that they are written for. -/
structure DigitText (radix : Nat) (text : List Nat) (n : Nat) : Prop where
  weights : ∃ ds, List.Forall₂ (fun c d => ucd.digitp c radix = some d) text ds ∧
    Nat.ofDigits radix ds.reverse = n
  nonempty : text ≠ []

inductive IntegerText (radix : Nat) : List Nat → Int → Prop where
  | unsigned {text : List Nat} {n : Nat} (digits : DigitText ucd radix text n) :
      IntegerText radix text n
  | plus {text : List Nat} {n : Nat} (digits : DigitText ucd radix text n) :
      IntegerText radix ('+'.toNat :: text) n
  | minus {text : List Nat} {n : Nat} (digits : DigitText ucd radix text n) :
      IntegerText radix ('-'.toNat :: text) (-n)

/-- A ratio, which has no sign but before its numerator. -/
inductive RatioText (radix : Nat) : List Nat → Int → Nat → Prop where
  | mk {top bottom : List Nat} {n : Int} {d : Nat} (numerator : IntegerText ucd radix top n)
      (denominator : DigitText ucd radix bottom d) :
      RatioText radix (top ++ '/'.toNat :: bottom) n d

inductive RationalText (radix : Nat) : List Nat → ℚ → Prop where
  | integer {text : List Nat} {v : Int} (integer : IntegerText ucd radix text v) :
      RationalText radix text v
  | ratio {text : List Nat} {n : Int} {d : Nat} (ratio : RatioText ucd radix text n d)
      (nonzero : d ≠ 0) : RationalText radix text (n / d)

/-- Up to its end the text is a number exactly if it has the syntax of one, and then the
canonical one that is written. -/
structure Reads (result : Option Parsed) (stop : Nat) (written : ℚ → Prop) : Prop where
  sound : ∀ x, result = some (.rational x stop) → x.Canonical ∧ written x.value
  complete : ∀ q, written q →
    ∃ x, result = some (.rational x stop) ∧ x.Canonical ∧ x.value = q

/-- The function ecl_parse_number on the characters from start to end: without dots and without
exponent markers, unless these are digits, it reads rational numbers, and nothing else with NIL
for a denominator of zero, and with no dot but the last character it reads integers in base
ten. -/
structure RangeLaw (base : Bool) (str : List Nat) (start stop radix : Nat) : Prop where
  rational : '.'.toNat ∉ range str start stop →
    (∀ c ∈ range str start stop, exponentMarkerP c = true → ucd.digitp c radix ≠ none) →
    Reads (parseNumberIn ucd base str start stop radix) stop
        (RationalText ucd radix (range str start stop)) ∧
      (parseNumberIn ucd base str start stop radix = some .nil ↔
        ∃ n, RatioText ucd radix (range str start stop) n 0)
  decimal : ∀ body, range str start stop = body ++ ['.'.toNat] → '.'.toNat ∉ body →
    Reads (parseNumberIn ucd base str start stop radix) stop
      fun q => ∃ v : Int, IntegerText ucd 10 body v ∧ q = v

variable {radix n : Nat} {text : List Nat}

theorem digitText_iff :
    DigitText ucd radix text n ↔ text ≠ [] ∧ (∀ c ∈ text, ucd.digitp c radix ≠ none) ∧
        Nat.ofDigits radix (digits ucd radix text).reverse = n := by
  have known {ds : List Nat} (text : List Nat) :
      List.Forall₂ (fun c d => ucd.digitp c radix = some d) text ds ↔
        (∀ c ∈ text, ucd.digitp c radix ≠ none) ∧ digits ucd radix text = ds := by
    induction text generalizing ds with
    | nil => simp [digits, eq_comm]
    | cons c text ih =>
      rw [forall₂_cons_left_iff, digits, forall_mem_cons]
      constructor
      · rintro ⟨d, rest, weight, others, rfl⟩
        have both := ih.mp others
        rw [weight]
        exact ⟨⟨some_ne_none d, both.1⟩, congrArg (d :: ·) both.2⟩
      · rintro ⟨⟨digit, others⟩, same⟩
        obtain ⟨d, weight⟩ := ne_none_iff_exists'.mp digit
        rw [weight] at same
        exact ⟨d, _, weight, ih.mpr ⟨others, rfl⟩, same.symm⟩
  constructor
  · rintro ⟨⟨ds, weights, value⟩, nonempty⟩
    have both := (known text).mp weights
    exact ⟨nonempty, both.1, by rw [both.2, value]⟩
  · rintro ⟨nonempty, digit, value⟩
    exact ⟨⟨_, (known text).mpr ⟨digit, rfl⟩, value⟩, nonempty⟩

theorem DigitText.digit (written : DigitText ucd radix text n) :
    ∀ c ∈ text, ucd.digitp c radix ≠ none :=
  ((digitText_iff ucd).mp written).2.1

theorem digitText_of_digits (nonempty : text ≠ []) (digit : ∀ c ∈ text, ucd.digitp c radix ≠ none) :
    DigitText ucd radix text (Nat.ofDigits radix (digits ucd radix text).reverse) :=
  (digitText_iff ucd).mpr ⟨nonempty, digit, rfl⟩

theorem signedDigits_iff : SignedDigits ucd radix text ↔ ∃ v, IntegerText ucd radix text v := by
  constructor
  · intro signed
    cases signed with
    | unsigned digit nonempty => exact ⟨_, .unsigned (digitText_of_digits ucd nonempty digit)⟩
    | @signed sign _ sign_is digit nonempty =>
      simp only [signCode, Bool.or_eq_true, decide_eq_true_iff] at sign_is
      obtain rfl | rfl := sign_is
      · exact ⟨_, .plus (digitText_of_digits ucd nonempty digit)⟩
      · exact ⟨_, .minus (digitText_of_digits ucd nonempty digit)⟩
  · rintro ⟨v, integer⟩
    cases integer with
    | unsigned written => exact .unsigned written.digit written.nonempty
    | plus written => exact .signed (by decide) written.digit written.nonempty
    | minus written => exact .signed (by decide) written.digit written.nonempty

variable {v : Int}

theorem IntegerText.signedDigits (integer : IntegerText ucd radix text v) :
    SignedDigits ucd radix text :=
  (signedDigits_iff ucd).mpr ⟨v, integer⟩

variable {c : Nat}

theorem digit_no_sign (digit : ucd.digitp c radix ≠ none) : signCode c = false :=
  Bool.eq_false_iff.mpr fun sign => digit (sign_no_digit ucd sign)

theorem DigitText.all_digits (written : DigitText ucd radix text n) :
    (digits ucd radix text).length = text.length ∧ digits ucd radix text ≠ [] := by
  have all := (digits_length_eq_iff ucd radix text).mpr written.digit
  refine ⟨all, ?_⟩
  rw [← length_pos_iff, all]
  exact length_pos_of_ne_nil written.nonempty

theorem DigitText.parse (le : radix ≤ 36) (written : DigitText ucd radix text n) :
    parseInteger ucd radix text = some (bigRegisterNormalize n, text.length) := by
  obtain ⟨all, found⟩ := written.all_digits
  obtain ⟨nonempty, digit, value⟩ := (digitText_iff ucd).mp written
  obtain ⟨c, rest, rfl⟩ := exists_cons_of_ne_nil nonempty
  have unsigned := digit_no_sign ucd (digit c mem_cons_self)
  have notMinus : c ≠ '-'.toNat := by
    rintro rfl
    exact absurd unsigned (by decide)
  rw [parseInteger, if_neg (by simp only [reduceCtorEq, false_or]; omega)]
  simp only [take_succ_cons, take_zero, countP_singleton, unsigned,
    Bool.false_eq_true, if_false, drop_zero, register_eq, value, List.head?_cons,
    some.injEq, notMinus, if_neg found, all, Nat.zero_add]

theorem DigitText.parse_sign (le : radix ≤ 36)
    (sign : signCode c = true) (written : DigitText ucd radix text n) :
    parseInteger ucd radix (c :: text) =
      some (bigRegisterNormalize (if c = '-'.toNat then -n else n), (c :: text).length) := by
  obtain ⟨all, found⟩ := written.all_digits
  have value := ((digitText_iff ucd).mp written).2.2
  rw [parseInteger, if_neg (by simp only [reduceCtorEq, false_or]; omega)]
  simp only [take_succ_cons, take_zero, countP_singleton, sign, if_true,
    drop_succ_cons, drop_zero, register_eq, value, List.head?_cons, some.injEq,
    if_neg found, all, length_cons, Nat.add_comm]

theorem parseInteger_integer (le : radix ≤ 36) (integer : IntegerText ucd radix text v) :
    parseInteger ucd radix text = some (bigRegisterNormalize v, text.length) := by
  cases integer with
  | unsigned written => exact written.parse ucd le
  | plus written => exact written.parse_sign ucd le (by decide)
  | minus written => exact written.parse_sign ucd le (by decide)

theorem IntegerText.unique (le : radix ≤ 36) {w : Int}
    (first : IntegerText ucd radix text v) (second : IntegerText ucd radix text w) : v = w := by
  have same := (parseInteger_integer ucd le first).symm.trans (parseInteger_integer ucd le second)
  simp only [some.injEq, mk.injEq, and_true] at same
  rw [← (bigRegisterNormalize_is v).value_eq, same, (bigRegisterNormalize_is w).value_eq]

theorem parseInteger_whole (le : radix ≤ 36) {x : Integer}
    (parsed : parseInteger ucd radix text = some (x, text.length)) :
    ∃ v, IntegerText ucd radix text v ∧ x = bigRegisterNormalize v := by
  obtain ⟨v, integer⟩ :=
    (signedDigits_iff ucd).mp ((parseInteger_whole_iff ucd le text).mp ⟨x, parsed⟩)
  rw [parseInteger_integer ucd le integer] at parsed
  simp only [some.injEq, mk.injEq, and_true] at parsed
  exact ⟨v, integer, parsed.symm⟩

variable {front rest : List Nat}

theorem range_front {str : List Nat} {start stop : Nat}
    (split : range str start stop = front ++ rest) :
    range str start (start + front.length) = front := by
  rw [range, drop_take] at split ⊢
  have short := congrArg List.length split
  rw [length_take, length_append] at short
  have front_eq := congrArg (List.take front.length) split
  rwa [take_left, take_take, Nat.min_eq_left (by omega),
    ← Nat.add_sub_cancel_left start front.length] at front_eq

theorem range_rest {str : List Nat} {start stop : Nat}
    (split : range str start stop = front ++ c :: rest) :
    range str (start + front.length + 1) stop = rest := by
  have rest_eq := congrArg (List.drop (front.length + 1)) split
  rw [range, drop_drop] at rest_eq
  rw [range, Nat.add_assoc, rest_eq, drop_append, drop_eq_nil_of_le (Nat.le_succ _),
    Nat.add_sub_cancel_left]
  rfl

theorem length_range {str : List Nat} {start stop : Nat} (inside : stop ≤ str.length) :
    (range str start stop).length = stop - start := by
  rw [range, length_drop, length_take, Nat.min_eq_left inside]

/-- The function ecl_parse_integer takes a part of a text as a whole exactly if it is an
integer. -/
theorem parseIntegerIn_iff (le : radix ≤ 36) {str : List Nat} {start stop : Nat}
    (ordered : start ≤ stop) (inside : stop ≤ str.length) {x : Integer} :
    parseIntegerIn ucd str start stop radix = some (x, stop) ↔
      ∃ v, IntegerText ucd radix (range str start stop) v ∧ x = bigRegisterNormalize v := by
  have length := @length_range str start stop inside
  rw [parseIntegerIn, map_eq_some_iff]
  constructor
  · rintro ⟨⟨y, taken⟩, parsed, same⟩
    simp only [mk.injEq] at same
    obtain ⟨rfl, whole⟩ := same
    rw [show taken = (range str start stop).length by omega] at parsed
    exact parseInteger_whole ucd le parsed
  · rintro ⟨v, integer, rfl⟩
    refine ⟨_, parseInteger_integer ucd le integer, ?_⟩
    rw [length, Nat.add_sub_of_le ordered]

theorem parseIntegerIn_le (le : radix ≤ 36) {str : List Nat} {start stop ep : Nat}
    (ordered : start ≤ stop) (inside : stop ≤ str.length) {x : Integer}
    (parsed : parseIntegerIn ucd str start stop radix = some (x, ep)) : ep ≤ stop := by
  rw [parseIntegerIn, map_eq_some_iff] at parsed
  obtain ⟨⟨y, taken⟩, parsed, same⟩ := parsed
  have short := parseInteger_stop_le ucd le parsed
  rw [length_range inside] at short
  simp only [mk.injEq] at same
  omega

theorem parseWholeIn_iff (le : radix ≤ 36) {str : List Nat} {start stop : Nat}
    (ordered : start ≤ stop) (inside : stop ≤ str.length) {x : Rational} :
    parseWholeIn ucd str start stop radix = .rational x stop ↔
      ∃ v, IntegerText ucd radix (range str start stop) v ∧
        x = .integer (bigRegisterNormalize v) := by
  have found (y : Integer) := @parseIntegerIn_iff ucd radix le str start stop ordered inside y
  rw [parseWholeIn]
  cases parsed : parseIntegerIn ucd str start stop radix with
  | none =>
    simp only [reduceCtorEq, false_iff, not_exists, not_and]
    intro v integer
    rw [(found _).mpr ⟨v, integer, rfl⟩] at parsed
    cases parsed
  | some pair =>
    obtain ⟨y, ep⟩ := pair
    simp only [Parsed.rational.injEq]
    constructor
    · rintro ⟨rfl, rfl⟩
      obtain ⟨v, integer, rfl⟩ := (found y).mp parsed
      exact ⟨v, integer, rfl⟩
    · rintro ⟨v, integer, rfl⟩
      rw [(found _).mpr ⟨v, integer, rfl⟩, some.injEq, mk.injEq] at parsed
      exact ⟨congrArg Rational.integer parsed.1.symm, parsed.2.symm⟩

theorem parseRatioIn_integers (le : radix ≤ 36) {str : List Nat}
    {start i stop : Nat} (ordered : start ≤ i) (before : i < stop) (inside : stop ≤ str.length)
    {w : Int} (numerator : IntegerText ucd radix (range str start i) v)
    (denominator : IntegerText ucd radix (range str (i + 1) stop) w) :
    if w = 0 then parseRatioIn ucd str start i stop radix = .nil
    else ∃ x, parseRatioIn ucd str start i stop radix = .rational x stop ∧ x.Canonical ∧
      x.value = v / w := by
  have top := (parseIntegerIn_iff ucd le ordered (by omega)).mpr ⟨v, numerator, rfl⟩
  have bottom := (parseIntegerIn_iff ucd le before inside).mpr ⟨w, denominator, rfl⟩
  have is := bigRegisterNormalize_is w
  have zero : bigRegisterNormalize w = makeFixnum 0 ↔ w = 0 := by
    rw [Integer.eq_zero_iff is.canonical, is.value_eq]
  rw [parseRatioIn, top]
  simp only [Nat.lt_irrefl, if_false, bottom, zero]
  split
  · rfl
  · rename_i nonzero
    obtain ⟨x, made, canonical, value⟩ :=
      Rational.makeRatio_of_is (bigRegisterNormalize_is v) is nonzero
    rw [made]
    exact ⟨x, rfl, canonical, value⟩

theorem integers_of_parseRatioIn (le : radix ≤ 36) {str : List Nat}
    {start i stop : Nat} (ordered : start ≤ i) (before : i < stop) (inside : stop ≤ str.length)
    (taken : parseRatioIn ucd str start i stop radix ≠ .objnull) :
    (∃ v, IntegerText ucd radix (range str start i) v) ∧
      ∃ w, IntegerText ucd radix (range str (i + 1) stop) w := by
  rw [parseRatioIn] at taken
  split at taken
  · exact absurd rfl taken
  · rename_i num ep parsed
    split at taken
    · exact absurd rfl taken
    · rename_i whole
      have reached := parseIntegerIn_le ucd le ordered (by omega) parsed
      rw [show ep = i by omega, parseIntegerIn_iff ucd le ordered (by omega)] at parsed
      split at taken
      · exact absurd rfl taken
      · rename_i den ep parsedDen
        split at taken
        · exact absurd rfl taken
        · rename_i whole
          have reached := parseIntegerIn_le ucd le before inside parsedDen
          rw [show ep = stop by omega, parseIntegerIn_iff ucd le before inside] at parsedDen
          obtain ⟨v, numerator, _⟩ := parsed
          obtain ⟨w, denominator, _⟩ := parsedDen
          exact ⟨⟨v, numerator⟩, w, denominator⟩

theorem parseFloatIn_not_rational (base : Bool) (str : List Nat) (start stop marker radix : Nat)
    (x : Rational) (ep : Nat) :
    parseFloatIn base str start stop marker radix ≠ some (.rational x ep) := by
  have float : (parseFloat (range str start stop) marker radix).shift start ≠ .rational x ep := by
    rw [parseFloat]
    repeat' split
    all_goals simp only [Parsed.shift, ne_eq, reduceCtorEq, not_false_eq_true]
  rw [parseFloatIn]
  split
  · simpa only [ne_eq, some.injEq] using float
  · dsimp only
    split
    · simp only [ne_eq, some.injEq, reduceCtorEq, not_false_eq_true]
    · simp only [ne_eq, reduceCtorEq, not_false_eq_true]

variable {base : Bool}

theorem parseRangeFrom_pass {str : List Nat} {start stop : Nat}
    (passes : Passes ucd radix c) (i : Nat) (isFloat : Bool) :
    parseRangeFrom ucd base str start stop (c :: rest) i radix isFloat =
      parseRangeFrom ucd base str start stop rest (i + 1) radix isFloat := by
  rw [parseRangeFrom, if_neg passes.notSlash, if_neg passes.notDot]
  split
  · rename_i noDigit
    have accepted := passes.accepted.resolve_left (not_not_intro (isNone_iff_eq_none.mp
      noDigit))
    rw [if_neg (by rw [not_marker accepted]; exact Bool.false_ne_true), if_neg]
    intro refused
    rw [refused.1, refused.2] at accepted
    exact absurd accepted (by decide)
  · rfl

theorem parseRangeFrom_passes {str : List Nat} {start stop : Nat}
    (passes : ∀ c ∈ front, Passes ucd radix c) (i : Nat) (isFloat : Bool) :
    parseRangeFrom ucd base str start stop (front ++ rest) i radix isFloat =
      parseRangeFrom ucd base str start stop rest (i + front.length) radix isFloat := by
  induction front generalizing i with
  | nil => rfl
  | cons c front ih =>
    rw [cons_append, parseRangeFrom_pass ucd (passes c mem_cons_self),
      ih fun c member => passes c (mem_cons_of_mem _ member), length_cons,
      Nat.add_assoc, Nat.add_comm 1]

theorem parseRangeFrom_stops {str : List Nat} {start stop : Nat}
    (stops : ¬ Passes ucd radix c) (notSlash : c ≠ '/'.toNat) (notDot : c ≠ '.'.toNat) (i : Nat)
    (isFloat : Bool) :
    ucd.digitp c radix = none ∧
      parseRangeFrom ucd base str start stop (c :: rest) i radix isFloat =
        if exponentMarkerP c then parseFloatIn base str start stop (i - start) radix
        else some .objnull := by
  have refused : ¬ (ucd.digitp c radix ≠ none ∨ digitCode c = true ∨ signCode c = true) :=
    fun accepted => stops ⟨notSlash, notDot, accepted⟩
  rw [not_or, not_or, not_not, Bool.not_eq_true, Bool.not_eq_true] at refused
  refine ⟨refused.1, ?_⟩
  rw [parseRangeFrom, if_neg notSlash, if_neg notDot, refused.1, if_pos isNone_none,
    if_pos refused.2]

theorem parseNumberIn_front {str : List Nat} {start stop : Nat}
    (before : start < stop) (split : range str start stop = front ++ rest)
    (passes : ∀ c ∈ front, Passes ucd radix c) :
    parseNumberIn ucd base str start stop radix =
      parseRangeFrom ucd base str start stop rest (start + front.length) radix false := by
  rw [parseNumberIn, if_neg (by omega), split, parseRangeFrom_passes ucd passes]

end Ecl.Text
