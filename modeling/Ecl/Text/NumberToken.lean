import Ecl.Text.Numeral

/- The tokens that ecl_parse_number takes as a whole for numbers. -/
namespace Ecl.Text

open Ecl.Number List Prod

variable (ucd : Ucd)

/-- Digits of the radix after at most one sign. -/
inductive SignedDigits (radix : Nat) : List Nat → Prop where
  | unsigned {ds : List Nat} (digit : ∀ c ∈ ds, ucd.digitp c radix ≠ none) (nonempty : ds ≠ []) :
      SignedDigits radix ds
  | signed {sign : Nat} {ds : List Nat} (sign_is : signCode sign = true)
      (digit : ∀ c ∈ ds, ucd.digitp c radix ≠ none) (nonempty : ds ≠ []) :
      SignedDigits radix (sign :: ds)

/-- A float as the C library reads it, but for the exponent marker, which is at the given place
unless that is zero. -/
structure FloatText (token : List Nat) (marker : Nat) : Prop where
  narrow : ∀ c ∈ token, c ≤ 255
  nonempty : token ≠ []
  strtod_eq : strtod (floatBuffer token marker) = token.length
  known : marker = 0 ∨ isLetter 'b' (token.getD marker 0) = false

/-- What follows the first dot of a float, at the given index of the token: digits of radix ten,
signs and dots up to an exponent marker or the end of the token, which is no dot. -/
inductive FloatRest (token : List Nat) : List Nat → Nat → Prop where
  | stop {i : Nat} (last : token.getLast? ≠ some '.'.toNat) (float : FloatText token 0) :
      FloatRest token [] i
  | next {c i : Nat} {rest : List Nat} (goes : Passes ucd 10 c ∨ c = '.'.toNat)
      (others : FloatRest token rest (i + 1)) : FloatRest token (c :: rest) i
  | marker {c i : Nat} {rest : List Nat} (marks : exponentMarkerP c = true)
      (float : FloatText token i) : FloatRest token (c :: rest) i

/-- The syntax of numbers in a base: integers and ratios in the base, integers in base ten with
a dot at the end, and floats, which have a dot or are in base ten. What is before the first dot
of a float are digits of the base. -/
inductive NumberToken (base : Nat) : List Nat → Prop where
  | integer {token : List Nat} (digits : SignedDigits ucd base token) : NumberToken base token
  | ratio {num den : List Nat} (numerator : SignedDigits ucd base num)
      (denominator : SignedDigits ucd base den) : NumberToken base (num ++ '/'.toNat :: den)
  | decimal {token : List Nat} (digits : SignedDigits ucd 10 token)
      (passes : ∀ c ∈ token, Passes ucd base c) : NumberToken base (token ++ ['.'.toNat])
  | point {whole rest : List Nat} (passes : ∀ c ∈ whole, Passes ucd base c)
      (float : FloatRest ucd (whole ++ '.'.toNat :: rest) rest (whole.length + 1)) :
      NumberToken base (whole ++ '.'.toNat :: rest)
  | marker {whole rest : List Nat} {c : Nat} (ten : base = 10)
      (passes : ∀ c ∈ whole, Passes ucd base c) (marks : exponentMarkerP c = true)
      (float : FloatText (whole ++ c :: rest) whole.length) :
      NumberToken base (whole ++ c :: rest)

/-- A token of the given length is no symbol. -/
def Parsed.isNumber (length : Nat) : Parsed → Bool
  | .objnull => false
  | .nil => true
  | .rational _ stop => stop = length
  | .float stop => stop = length
  | .fault _ => true

theorem digits_length_le (radix : Nat) (t : List Nat) : (digits ucd radix t).length ≤ t.length := by
  induction t with
  | nil => exact Nat.le_refl 0
  | cons c t ih =>
    rw [digits]
    cases ucd.digitp c radix with
    | none => exact Nat.zero_le _
    | some d => exact Nat.succ_le_succ ih

theorem digits_length_eq_iff (radix : Nat) (t : List Nat) :
    (digits ucd radix t).length = t.length ↔ ∀ c ∈ t, ucd.digitp c radix ≠ none := by
  induction t with
  | nil => exact ⟨fun _ c member => absurd member not_mem_nil, fun _ => rfl⟩
  | cons c t ih =>
    rw [digits, forall_mem_cons, ← ih]
    cases ucd.digitp c radix with
    | none => simp
    | some d => simp

variable {c : Nat}

theorem sign_no_digit (sign : signCode c = true) {radix : Nat} : ucd.digitp c radix = none := by
  simp only [signCode, Bool.or_eq_true, decide_eq_true_iff, Char.reduceToNat] at sign
  rw [digitp_eq, if_neg (by omega), if_neg (by omega), if_neg (by omega), if_neg (by omega)]

theorem parseInteger_sign (sign : signCode c = true) {radix : Nat} (le : radix ≤ 36)
    (t : List Nat) : ∃ v, parseInteger ucd radix (c :: t) =
      if digits ucd radix t = [] then none else some (v, 1 + (digits ucd radix t).length) := by
  rw [parseInteger, if_neg (by simp only [reduceCtorEq, false_or]; omega)]
  simp only [take_succ_cons, take_zero, countP_singleton, sign, if_true,
    drop_succ_cons, drop_zero]
  exact ⟨_, rfl⟩

variable {t : List Nat}

theorem parseInteger_unsigned (unsigned : ∀ c ∈ t.head?, signCode c = false)
    {radix : Nat} (le : radix ≤ 36) : ∃ v, parseInteger ucd radix t =
      if digits ucd radix t = [] then none else some (v, (digits ucd radix t).length) := by
  cases t with
  | nil => exact ⟨.fixnum 0, rfl⟩
  | cons c t =>
    rw [parseInteger, if_neg (by simp only [reduceCtorEq, false_or]; omega)]
    simp only [take_succ_cons, take_zero, countP_singleton, unsigned c rfl,
      Bool.false_eq_true, if_false, drop_zero, Nat.zero_add]
    exact ⟨_, rfl⟩

theorem parseInteger_stop_le {radix : Nat} (le : radix ≤ 36) {v : Integer}
    {stop : Nat} (parsed : parseInteger ucd radix t = some (v, stop)) : stop ≤ t.length := by
  cases t with
  | nil => cases parsed
  | cons c t =>
    have first := digits_length_le ucd radix (c :: t)
    have others := digits_length_le ucd radix t
    rw [length_cons] at first ⊢
    cases sign : signCode c with
    | true =>
      have ⟨w, whole⟩ := parseInteger_sign ucd sign le t
      rw [whole] at parsed
      split at parsed
      · cases parsed
      · cases parsed
        omega
    | false =>
      have ⟨w, whole⟩ := @parseInteger_unsigned ucd (c :: t) (by simpa using sign) radix le
      rw [whole] at parsed
      split at parsed
      · cases parsed
      · cases parsed
        exact first

theorem parseInteger_whole_iff {radix : Nat} (le : radix ≤ 36) (t : List Nat) :
    (∃ v, parseInteger ucd radix t = some (v, t.length)) ↔ SignedDigits ucd radix t := by
  cases t with
  | nil =>
    constructor
    · rintro ⟨v, parsed⟩
      cases parsed
    · intro signed
      cases signed with
      | unsigned _ nonempty => exact absurd rfl nonempty
  | cons c t =>
    cases sign : signCode c with
    | true =>
      have ⟨w, whole⟩ := parseInteger_sign ucd sign le t
      rw [whole, length_cons]
      constructor
      · rintro ⟨v, parsed⟩
        split at parsed
        · cases parsed
        · rename_i some_digit
          simp only [Option.some.injEq, mk.injEq] at parsed
          have all := (digits_length_eq_iff ucd radix t).mp (by omega)
          refine .signed sign all fun none => some_digit ?_
          rw [none]
          rfl
      · intro signed
        cases signed with
        | unsigned digit _ => exact absurd (sign_no_digit ucd sign) (digit c mem_cons_self)
        | signed _ digit nonempty =>
          have all := (digits_length_eq_iff ucd radix t).mpr digit
          have some_digit : digits ucd radix t ≠ [] := by
            rw [← length_pos_iff, all]
            exact length_pos_of_ne_nil nonempty
          exact ⟨w, by rw [if_neg some_digit, all, Nat.add_comm]⟩
    | false =>
      have ⟨w, whole⟩ := @parseInteger_unsigned ucd (c :: t) (by simpa using sign) radix le
      rw [whole]
      constructor
      · rintro ⟨v, parsed⟩
        split at parsed
        · cases parsed
        · simp only [Option.some.injEq, mk.injEq] at parsed
          exact .unsigned ((digits_length_eq_iff ucd radix _).mp parsed.2) (cons_ne_nil _ _)
      · intro signed
        cases signed with
        | unsigned digit _ =>
          have all := (digits_length_eq_iff ucd radix _).mpr digit
          have some_digit : digits ucd radix (c :: t) ≠ [] := by
            rw [← length_pos_iff, all]
            exact Nat.succ_pos _
          exact ⟨w, by rw [if_neg some_digit, all]⟩
        | signed sign_is _ _ => exact absurd sign_is (by rw [sign]; exact Bool.false_ne_true)

theorem SignedDigits.passes {radix : Nat} (signed : SignedDigits ucd radix t) :
    ∀ c ∈ t, Passes ucd radix c := by
  have digit {c : Nat} (digit : ucd.digitp c radix ≠ none) : Passes ucd radix c := by
    refine ⟨?_, ?_, .inl digit⟩
    · rintro rfl
      exact digit rfl
    · rintro rfl
      exact digit rfl
  cases signed with
  | unsigned digits _ => exact fun c member => digit (digits c member)
  | signed sign_is digits _ =>
    intro c member
    cases member with
    | head =>
      refine ⟨?_, ?_, .inr (.inr sign_is)⟩
      · rintro rfl
        exact absurd sign_is (by decide)
      · rintro rfl
        exact absurd sign_is (by decide)
    | tail _ member => exact digit (digits c member)

theorem SignedDigits.nonempty {radix : Nat} (signed : SignedDigits ucd radix t) : t ≠ [] := by
  cases signed with
  | unsigned _ nonempty => exact nonempty
  | signed _ _ _ => exact cons_ne_nil _ _

theorem parseWhole_iff {radix : Nat} (le : radix ≤ 36) (str : List Nat) :
    (parseWhole ucd str radix).isNumber str.length = true ↔ SignedDigits ucd radix str := by
  rw [← parseInteger_whole_iff ucd le, parseWhole]
  cases parseInteger ucd radix str with
  | none => simp [Parsed.isNumber]
  | some found =>
    simp only [Parsed.isNumber, decide_eq_true_iff, Option.some.injEq]
    constructor
    · intro same
      exact ⟨found.1, Prod.ext rfl same⟩
    · rintro ⟨v, same⟩
      exact congrArg snd same

theorem parseDecimal_iff (t : List Nat) :
    (parseDecimal ucd (t ++ ['.'.toNat]) t.length).isNumber (t.length + 1) = true ↔
      SignedDigits ucd 10 t := by
  rw [← parseInteger_whole_iff ucd (by decide), parseDecimal, take_left]
  cases parsed : parseInteger ucd 10 t with
  | none => simp [Parsed.isNumber]
  | some found =>
    have le := parseInteger_stop_le ucd (by decide) parsed
    simp only [Parsed.isNumber, decide_eq_true_iff, Option.some.injEq, length_append,
      length_singleton]
    constructor
    · intro same
      refine ⟨found.1, Prod.ext rfl ?_⟩
      split at same
      · assumption
      · omega
    · rintro ⟨v, same⟩
      rw [if_pos (congrArg snd same)]

theorem parseRatio_iff {radix : Nat} (le : radix ≤ 36) (num den : List Nat) :
    (parseRatio ucd (num ++ '/'.toNat :: den) num.length radix).isNumber
        (num ++ '/'.toNat :: den).length = true ↔
      SignedDigits ucd radix num ∧ SignedDigits ucd radix den := by
  have below : (num ++ '/'.toNat :: den).drop (num.length + 1) = den := by
    rw [drop_append, drop_eq_nil_of_le (Nat.le_succ _), Nat.add_sub_cancel_left]
    rfl
  rw [← parseInteger_whole_iff ucd le, ← parseInteger_whole_iff ucd le, parseRatio, take_left,
    below]
  cases parsedNum : parseInteger ucd radix num with
  | none => simp [Parsed.isNumber]
  | some foundNum =>
    have leNum := parseInteger_stop_le ucd le parsedNum
    by_cases partNum : foundNum.2 < num.length
    · simp only [partNum, if_true, Parsed.isNumber, Bool.false_eq_true, false_iff, not_and]
      rintro ⟨v, same⟩
      rw [Option.some.injEq] at same
      rw [same] at partNum
      omega
    · have wholeNum : ∃ v, some foundNum = some (v, num.length) :=
        ⟨foundNum.1, congrArg some (Prod.ext rfl (by show foundNum.2 = num.length; omega))⟩
      simp only [partNum, if_false, wholeNum, true_and]
      cases parsedDen : parseInteger ucd radix den with
      | none => simp [Parsed.isNumber]
      | some foundDen =>
        have leDen := parseInteger_stop_le ucd le parsedDen
        have length : (num ++ '/'.toNat :: den).length = num.length + 1 + den.length := by
          rw [length_append, length_cons]
          omega
        rw [length]
        by_cases partDen : foundDen.2 < den.length
        · simp only [Parsed.isNumber, if_pos (show num.length + 1 + foundDen.2 <
            num.length + 1 + den.length by omega), Bool.false_eq_true, false_iff]
          rintro ⟨v, same⟩
          rw [Option.some.injEq] at same
          rw [same] at partDen
          omega
        · have wholeDen : ∃ v, some foundDen = some (v, den.length) :=
            ⟨foundDen.1, congrArg some (Prod.ext rfl (by show foundDen.2 = den.length; omega))⟩
          simp only [wholeDen, iff_true, if_neg (show ¬ num.length + 1 + foundDen.2 <
            num.length + 1 + den.length by omega)]
          split
          · rfl
          · split
            · exact decide_eq_true rfl
            · rfl

theorem parseFloat_iff {str : List Nat} (nonempty : str ≠ []) (marker radix : Nat) :
    (parseFloat str marker radix).isNumber str.length = true ↔
      radix = 10 ∧ FloatText str marker := by
  have positive := length_pos_iff.mpr nonempty
  have narrow : str.any (255 < ·) = true ↔ ¬ ∀ c ∈ str, c ≤ 255 := by
    simp only [any_eq_true, decide_eq_true_iff, not_forall, not_le, exists_prop]
  rw [parseFloat]
  by_cases ten : radix = 10
  · rw [if_neg (not_not_intro ten)]
    by_cases wide : str.any (255 < ·) = true
    · rw [if_pos wide]
      simp only [Parsed.isNumber, Bool.false_eq_true, false_iff]
      exact fun both => narrow.mp wide both.2.narrow
    · rw [if_neg wide]
      have narrow := not_not.mp (mt narrow.mpr wide)
      split
      · rename_i none
        simp only [Parsed.isNumber, Bool.false_eq_true, false_iff]
        intro both
        rw [both.2.strtod_eq] at none
        omega
      · split
        · rename_i unknown
          simp only [Parsed.isNumber, Bool.false_eq_true, false_iff]
          intro both
          cases both.2.known with
          | inl zero => exact unknown.1 zero
          | inr other => exact absurd unknown.2 (by rw [other]; exact Bool.false_ne_true)
        · rename_i known
          simp only [Parsed.isNumber, decide_eq_true_iff]
          constructor
          · intro whole
            refine ⟨ten, narrow, nonempty, whole, ?_⟩
            by_cases zero : marker = 0
            · exact .inl zero
            · exact .inr (Bool.eq_false_iff.mpr fun letter => known ⟨zero, letter⟩)
          · exact fun both => both.2.strtod_eq
  · rw [if_pos ten]
    simp only [Parsed.isNumber, Bool.false_eq_true, false_iff]
    exact fun both => ten both.1

/-- A character that the loop does not go past, and that is no slash or dot, is an exponent
marker or ends the number. -/
theorem parseFrom_stops {str rest : List Nat} {radix : Nat} (stops : ¬ Passes ucd radix c)
    (notSlash : c ≠ '/'.toNat) (notDot : c ≠ '.'.toNat) (i : Nat) (isFloat : Bool) :
    parseFrom ucd str (c :: rest) i radix isFloat =
      if exponentMarkerP c then parseFloat str i radix else .objnull := by
  have refused : ¬ (ucd.digitp c radix ≠ none ∨ digitCode c = true ∨ signCode c = true) :=
    fun accepted => stops ⟨notSlash, notDot, accepted⟩
  rw [not_or, not_or, not_not, Bool.not_eq_true, Bool.not_eq_true] at refused
  rw [parseFrom, if_neg notSlash, if_neg notDot, refused.1, if_pos Option.isNone_none,
    if_pos refused.2]

theorem parseFrom_pass {str rest : List Nat} {radix : Nat} (passes : Passes ucd radix c) (i : Nat)
    (isFloat : Bool) :
    parseFrom ucd str (c :: rest) i radix isFloat =
      parseFrom ucd str rest (i + 1) radix isFloat :=
  @parseFrom_passes ucd str [c] rest radix isFloat
    (fun _ member => mem_singleton.mp member ▸ passes) i

theorem not_marker_of_passes (passes : Passes ucd 10 c ∨ c = '.'.toNat) :
    exponentMarkerP c = false := by
  cases passes with
  | inl passes =>
    cases passes.accepted with
    | inl digit =>
      cases marker : exponentMarkerP c with
      | false => rfl
      | true =>
        have letter : 65 ≤ c ∧ c ≤ 122 := by
          simp only [exponentMarkerP, any_cons, any_nil, Bool.or_eq_true,
            decide_eq_true_iff, Char.reduceToNat, Bool.false_eq_true, or_false] at marker
          omega
        apply absurd _ digit
        rw [digitp_eq, if_neg (by omega), if_neg (by omega), if_neg (by omega),
          if_neg (by omega)]
    | inr accepted => exact not_marker accepted
  | inr dot =>
    rw [dot]
    decide

theorem not_slash_of_passes (passes : Passes ucd 10 c ∨ c = '.'.toNat) : c ≠ '/'.toNat := by
  cases passes with
  | inl passes => exact passes.notSlash
  | inr dot =>
    rw [dot]
    decide

theorem dot_not_signed {radix : Nat} (dot : '.'.toNat ∈ t) : ¬ SignedDigits ucd radix t :=
  fun signed => (signed.passes ucd _ dot).notDot rfl

theorem parseFrom_point_iff {front rest : List Nat} (dot : '.'.toNat ∈ front)
    (more : rest = [] → front.getLast? ≠ some '.'.toNat) :
    (parseFrom ucd (front ++ rest) rest front.length 10 true).isNumber (front ++ rest).length
        = true ↔
      FloatRest ucd (front ++ rest) rest front.length := by
  induction rest generalizing front with
  | nil =>
    rw [append_nil, parseFrom, if_pos rfl,
      parseFloat_iff (ne_nil_of_mem dot)]
    constructor
    · exact fun float => .stop (more rfl) float.2
    · intro float
      cases float with
      | stop _ float => exact ⟨rfl, float⟩
  | cons c rest ih =>
    have nonempty : front ++ c :: rest ≠ [] :=
      append_ne_nil_of_right_ne_nil _ (cons_ne_nil _ _)
    have shift : front ++ c :: rest = front ++ [c] ++ rest := by
      rw [append_assoc, singleton_append]
    have length : (front ++ [c]).length = front.length + 1 := length_append
    have advance (goes : Passes ucd 10 c ∨ c = '.'.toNat) :
        FloatRest ucd (front ++ c :: rest) (c :: rest) front.length ↔
          FloatRest ucd (front ++ [c] ++ rest) rest (front ++ [c]).length := by
      rw [shift, length]
      constructor
      · intro float
        cases float with
        | next _ others => exact others
        | marker marks _ =>
          exact absurd marks (by rw [not_marker_of_passes ucd goes]; exact Bool.false_ne_true)
      · exact .next goes
    by_cases slash : c = '/'.toNat
    · subst slash
      rw [parseFrom, if_pos rfl, parseRatio_iff ucd (by decide)]
      constructor
      · exact fun both => absurd both.1 (dot_not_signed ucd dot)
      · intro float
        cases float with
        | next goes _ => exact absurd rfl (not_slash_of_passes ucd goes)
        | marker marks _ => exact absurd marks (by decide)
    · by_cases isDot : c = '.'.toNat
      · rw [advance (.inr isDot), parseFrom, if_neg slash, if_pos isDot]
        split
        · rename_i last
          subst last isDot
          rw [length_append, length_singleton, parseDecimal_iff]
          constructor
          · exact fun signed => absurd signed (dot_not_signed ucd dot)
          · intro float
            cases float with
            | stop last _ => simp at last
        · rename_i others
          rw [shift, ← length]
          exact ih (mem_append_left _ dot) fun none => absurd none others
      · by_cases passes : Passes ucd 10 c
        · rw [advance (.inl passes), parseFrom_pass ucd passes, shift, ← length]
          exact ih (mem_append_left _ dot) fun _ => by simpa using isDot
        · rw [parseFrom_stops ucd passes slash isDot]
          split
          · rename_i marks
            rw [parseFloat_iff nonempty]
            constructor
            · exact fun float => .marker marks float.2
            · intro float
              cases float with
              | next goes _ => exact absurd goes (not_or.mpr ⟨passes, isDot⟩)
              | marker _ float => exact ⟨rfl, float⟩
          · rename_i noMarker
            simp only [Parsed.isNumber, Bool.false_eq_true, false_iff]
            intro float
            cases float with
            | next goes _ => exact absurd goes (not_or.mpr ⟨passes, isDot⟩)
            | marker marks _ => exact noMarker marks

theorem split_passes (radix : Nat) (str : List Nat) :
    ∃ front rest, str = front ++ rest ∧ (∀ c ∈ front, Passes ucd radix c) ∧
      ∀ c ∈ rest.head?, ¬ Passes ucd radix c := by
  induction str with
  | nil => exact ⟨[], [], rfl, fun c member => absurd member not_mem_nil, by simp⟩
  | cons c str ih =>
    by_cases passes : Passes ucd radix c
    · have ⟨front, rest, same, inside, stops⟩ := ih
      exact ⟨c :: front, rest, congrArg (c :: ·) same, forall_mem_cons.mpr ⟨passes, inside⟩,
        stops⟩
    · exact ⟨[], c :: str, rfl, fun c member => absurd member not_mem_nil, by simpa⟩

theorem parseNumber_front {base : Nat} {front rest : List Nat} (nonempty : front ++ rest ≠ [])
    (passes : ∀ c ∈ front, Passes ucd base c) :
    parseNumber ucd (front ++ rest) base =
      parseFrom ucd (front ++ rest) rest front.length base false := by
  rw [parseNumber, if_neg nonempty, parseFrom_passes ucd passes, Nat.zero_add]

theorem parseFrom_dot_iff (front rest : List Nat) (radix : Nat) :
    (parseFrom ucd (front ++ '.'.toNat :: rest) ('.'.toNat :: rest) front.length radix
        false).isNumber (front ++ '.'.toNat :: rest).length = true ↔
      rest = [] ∧ SignedDigits ucd 10 front ∨
        FloatRest ucd (front ++ '.'.toNat :: rest) rest (front.length + 1) := by
  rw [parseFrom, if_neg (by decide), if_pos rfl]
  split
  · rename_i last
    subst last
    rw [length_append, length_singleton, parseDecimal_iff]
    constructor
    · exact fun signed => .inl ⟨rfl, signed⟩
    · intro either
      cases either with
      | inl signed => exact signed.2
      | inr float =>
        cases float with
        | stop last _ => simp at last
  · rename_i others
    have shift : front ++ '.'.toNat :: rest = front ++ ['.'.toNat] ++ rest := by
      rw [append_assoc, singleton_append]
    have length : (front ++ ['.'.toNat]).length = front.length + 1 := length_append
    have inside : '.'.toNat ∈ front ++ ['.'.toNat] :=
      mem_append_right _ (mem_singleton_self _)
    rw [shift, ← length, parseFrom_point_iff ucd inside fun none => absurd none others]
    constructor
    · exact .inr
    · intro either
      exact either.resolve_left fun both => others both.1

theorem parseNumber_iff {base : Nat} (le : base ≤ 36) (str : List Nat) :
    (parseNumber ucd str base).isNumber str.length = true ↔ NumberToken ucd base str := by
  constructor
  · intro number
    have nonempty : str ≠ [] := by
      rintro rfl
      exact Bool.false_ne_true number
    obtain ⟨front, rest, rfl, passes, stops⟩ := split_passes ucd base str
    rw [parseNumber_front ucd nonempty passes] at number
    cases rest with
    | nil =>
      rw [append_nil] at number ⊢
      exact .integer ((parseWhole_iff ucd le front).mp number)
    | cons c rest =>
      have stops := stops c rfl
      by_cases slash : c = '/'.toNat
      · subst slash
        rw [parseFrom, if_pos rfl, parseRatio_iff ucd le] at number
        exact .ratio number.1 number.2
      · by_cases dot : c = '.'.toNat
        · subst dot
          rw [parseFrom_dot_iff] at number
          cases number with
          | inl decimal =>
            obtain ⟨rfl, signed⟩ := decimal
            exact .decimal signed passes
          | inr float => exact .point passes float
        · rw [parseFrom_stops ucd stops slash dot] at number
          split at number
          · rename_i marks
            obtain ⟨ten, float⟩ := (parseFloat_iff nonempty _ _).mp number
            exact .marker ten passes marks float
          · exact absurd number Bool.false_ne_true
  · intro number
    cases number with
    | integer signed =>
      have front := @parseNumber_front ucd base str [] (by simpa using signed.nonempty)
        signed.passes
      rw [append_nil] at front
      rw [front, parseFrom, if_neg Bool.false_ne_true, parseWhole_iff ucd le]
      exact signed
    | @ratio num den numerator denominator =>
      rw [parseNumber_front ucd (by simp) numerator.passes, parseFrom, if_pos rfl,
        parseRatio_iff ucd le]
      exact ⟨numerator, denominator⟩
    | decimal signed passes =>
      rw [parseNumber_front ucd (by simp) passes, parseFrom_dot_iff]
      exact .inl ⟨rfl, signed⟩
    | point passes float =>
      rw [parseNumber_front ucd (by simp) passes, parseFrom_dot_iff]
      exact .inr float
    | @marker whole rest c ten passes marks float =>
      have stops : ¬ (Passes ucd 10 c ∨ c = '.'.toNat) := by
        intro goes
        rw [not_marker_of_passes ucd goes] at marks
        exact Bool.false_ne_true marks
      have notSlash : c ≠ '/'.toNat := by
        rintro rfl
        exact absurd marks (by decide)
      subst ten
      rw [parseNumber_front ucd (by simp) passes,
        parseFrom_stops ucd (not_or.mp stops).1 notSlash (not_or.mp stops).2, if_pos marks,
        parseFloat_iff (by simp)]
      exact ⟨rfl, float⟩

end Ecl.Text
