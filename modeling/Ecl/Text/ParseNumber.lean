import Ecl.Number.Ratio

/- Characters and the standard readtable: character.d, char_ctype.d and the table that init_read
makes. A character is its code, and a text the list of its characters. -/
namespace Ecl.Text

/-- The tables of ucd.dat, and what they hold: in ASCII the letters and their cases, and
everywhere the character of the other case of an upper case character. -/
structure Ucd where
  value0 : Nat → Nat
  value1 : Nat → Nat
  misc : Nat → Nat
  upper : ∀ c < 128, value0 c = 0 ↔ 65 ≤ c ∧ c ≤ 90
  lower : ∀ c < 128, value0 c = 1 ↔ 97 ≤ c ∧ c ≤ 122
  letter : ∀ c < 128, misc (8 * value0 c) < 5 ↔ value0 c < 2
  upcased : ∀ c < 128, value0 c = 1 → value1 c + 32 = c
  inverse : ∀ c, value0 c = 0 → value0 (value1 c) = 1 ∧ value1 (value1 c) = c

namespace Ucd

variable (ucd : Ucd)

def generalCategory (code : Nat) : Nat := ucd.misc (8 * ucd.value0 code)

def decimalDigit (code : Nat) : Nat := ucd.misc (3 + 8 * ucd.value0 code)

def alphaCharP (code : Nat) : Bool := ucd.generalCategory code < 5

def upperCaseP (code : Nat) : Bool := ucd.value0 code = 0

def lowerCaseP (code : Nat) : Bool := ucd.value0 code = 1

def alphanumericp (i : Nat) : Bool := ucd.generalCategory i < 5 || ucd.generalCategory i = 12

def charUpcase (code : Nat) : Nat := if ucd.value0 code = 1 then ucd.value1 code else code

def charDowncase (code : Nat) : Nat := if ucd.value0 code = 0 then ucd.value1 code else code

/-- The weight of a character as a digit. -/
def digitp (i : Nat) (r : Nat) : Option Nat :=
  if '0'.toNat ≤ i ∧ i ≤ '9'.toNat ∧ i < '0'.toNat + r then some (i - '0'.toNat)
  else if 'A'.toNat ≤ i ∧ 10 < r ∧ i < 'A'.toNat + (r - 10) then some (i - 'A'.toNat + 10)
  else if 'a'.toNat ≤ i ∧ 10 < r ∧ i < 'a'.toNat + (r - 10) then some (i - 'a'.toNat + 10)
  else if 255 < i ∧ ucd.decimalDigit i < r then some (ucd.decimalDigit i)
  else none

end Ucd

/-- Upper case, lower case and no letter, in ASCII. -/
def asciiCase (c : Nat) : Nat :=
  if 65 ≤ c ∧ c ≤ 90 then 0 else if 97 ≤ c ∧ c ≤ 122 then 1 else 2

/-- Tables that know no character outside of ASCII. -/
def asciiUcd : Ucd where
  value0 := asciiCase
  value1 c := if asciiCase c = 0 then c + 32 else c - 32
  misc i := if i < 16 then 0 else 255
  upper c _ := by grind [asciiCase]
  lower c _ := by grind [asciiCase]
  letter c _ := by grind [asciiCase]
  upcased c _ := by grind [asciiCase]
  inverse c := by grind [asciiCase]

/-- The value -1 is a character that no text holds. -/
def digitChar (w r : Nat) : Option Nat :=
  if r < 2 ∨ 36 < r ∨ r ≤ w then none
  else if w < 10 then some (w + '0'.toNat) else some (w - 10 + 'A'.toNat)

/-- A value that *print-base* and *read-base* can have. -/
structure Radix where
  value : Nat
  two_le : 2 ≤ value
  le_36 : value ≤ 36

inductive Chattrib where
  | whitespace
  | terminating
  | nonTerminating
  | singleEscape
  | multipleEscape
  | constituent
  deriving DecidableEq

/-- The syntax of a character in the standard readtable. The terminating macro characters are
the quotes, the parentheses, the comma, the semicolon and the backquote. -/
def readtableGet (c : Nat) : Chattrib :=
  if c ∈ [9, 10, 12, 13, 32] then .whitespace
  else if c ∈ [34, 39, 40, 41, 44, 59, 96] then .terminating
  else if c = 92 then .singleEscape
  else if c = 124 then .multipleEscape
  else if c = '#'.toNat then .nonTerminating
  else .constituent

def invalidCharacterP (c : Nat) : Bool := c ≤ 32 || c = 127

/- The functions ecl_parse_integer and ecl_parse_number of read.d. -/

open Ecl.Number (Integer Rational ArithmeticError bigRegisterNormalize makeFixnum makeRatio)

def digitCode (c : Nat) : Bool := '0'.toNat ≤ c && c ≤ '9'.toNat

def hexCode (c : Nat) : Bool :=
  digitCode c || 'A'.toNat ≤ c && c ≤ 'F'.toNat || 'a'.toNat ≤ c && c ≤ 'f'.toNat

def signCode (c : Nat) : Bool := c = '+'.toNat || c = '-'.toNat

/-- The letter, in either case. -/
def isLetter (lower : Char) (c : Nat) : Bool := c = lower.toNat || c + 32 = lower.toNat

/-- The characters of a word without regard to case. -/
def startsWith : List Char → List Nat → Bool
  | [], _ => true
  | _ :: _, [] => false
  | l :: word, c :: cs => isLetter l c && startsWith word cs

/-- The length of an exponent, that needs digits after its letter and sign. -/
def exponentLength (letter : Char) : List Nat → Nat
  | [] => 0
  | c :: cs =>
    if isLetter letter c then
      let signs := (cs.take 1).countP signCode
      let digits := ((cs.drop signs).takeWhile digitCode).length
      if digits = 0 then 0 else 1 + signs + digits
    else 0

/-- The length of a number that has digits before or after the point, or zero. -/
def pointLength (digit : Nat → Bool) (letter : Char) (cs : List Nat) : Nat :=
  let whole := (cs.takeWhile digit).length
  let rest := cs.drop whole
  let fraction := if rest.head? = some '.'.toNat then (rest.tail.takeWhile digit).length else 0
  if whole + fraction = 0 then 0
  else
    let mantissa := if rest.head? = some '.'.toNat then whole + 1 + fraction else whole
    mantissa + exponentLength letter (cs.drop mantissa)

/-- The length of a number without its sign: infinities and NaNs, and hexadecimal and decimal
numbers. -/
def unsignedLength (cs : List Nat) : Nat :=
  if startsWith ['i', 'n', 'f', 'i', 'n', 'i', 't', 'y'] cs then 8
  else if startsWith ['i', 'n', 'f'] cs then 3
  else if startsWith ['n', 'a', 'n'] cs then 3
  else if cs.head? = some '0'.toNat ∧ startsWith ['x'] cs.tail ∧
      0 < pointLength hexCode 'p' (cs.drop 2) then
    2 + pointLength hexCode 'p' (cs.drop 2)
  else pointLength digitCode 'e' cs

/-- How many characters of the buffer strtod reads: the longest start that is a number. No
white space gets into the buffer, nor a parenthesis after a NaN. -/
def strtod (buffer : List Nat) : Nat :=
  let signs := (buffer.take 1).countP signCode
  if unsignedLength (buffer.drop signs) = 0 then 0
  else signs + unsignedLength (buffer.drop signs)

def exponentMarkerP (i : Nat) : Bool :=
  ['e', 'E', 's', 'S', 'f', 'F', 'd', 'D', 'l', 'L', 'b', 'B'].any fun c => i = c.toNat

/-- The objects OBJNULL and NIL, and numbers with the place after their last character. The
value of a float is left out. -/
inductive Parsed where
  | objnull
  | nil
  | rational (x : Rational) (stop : Nat)
  | float (stop : Nat)
  | fault (e : ArithmeticError)
  deriving DecidableEq

variable (ucd : Ucd)

/-- The digits that a text starts with. -/
def digits (radix : Nat) : List Nat → List Nat
  | [] => []
  | c :: cs =>
    match ucd.digitp c radix with
    | none => []
    | some d => d :: digits radix cs

/-- The function ecl_parse_integer on the characters from start to end: the number and how many
of them it takes. -/
def parseInteger (radix : Nat) (chars : List Nat) : Option (Integer × Nat) :=
  if chars = [] ∨ 36 < radix then none
  else
    let signs := (chars.take 1).countP signCode
    let ds := digits ucd radix (chars.drop signs)
    let register := ds.foldl (fun (part : Int) (d : Nat) => part * radix + d) 0
    let signed := if chars.head? = some '-'.toNat then -register else register
    if ds = [] then none else some (bigRegisterNormalize signed, signs + ds.length)

/-- A ratio with the slash at index i. -/
def parseRatio (str : List Nat) (i radix : Nat) : Parsed :=
  match parseInteger ucd radix (str.take i) with
  | none => .objnull
  | some (num, ep) =>
    if ep < i then .objnull
    else
      match parseInteger ucd radix (str.drop (i + 1)) with
      | none => .objnull
      | some (den, ep) =>
        if i + 1 + ep < str.length then .objnull
        else if den = makeFixnum 0 then .nil
        else
          match makeRatio num den with
          | .ok x => .rational x str.length
          | .error e => .fault e

/-- The copy of the text that strtod gets, with the exponent marker that it knows. -/
def floatBuffer (str : List Nat) (marker : Nat) : List Nat :=
  if marker = 0 then str else str.set marker 'e'.toNat

/-- The end of the loop for a float, with the place of its exponent marker or zero. -/
def parseFloat (str : List Nat) (marker radix : Nat) : Parsed :=
  if radix ≠ 10 then .objnull
  else if str.any (255 < ·) then .objnull
  else if strtod (floatBuffer str marker) = 0 then .objnull
  else if marker ≠ 0 ∧ isLetter 'b' (str.getD marker 0) then .objnull
  else .float (strtod (floatBuffer str marker))

/-- The end of the loop for an integer. -/
def parseWhole (str : List Nat) (radix : Nat) : Parsed :=
  match parseInteger ucd radix str with
  | none => .objnull
  | some (x, stop) => .rational (.integer x) stop

/-- A trailing dot at index i. -/
def parseDecimal (str : List Nat) (i : Nat) : Parsed :=
  match parseInteger ucd 10 (str.take i) with
  | none => .objnull
  | some (x, stop) => .rational (.integer x) (if stop = i then str.length else stop)

/-- The loop of ecl_parse_number at index i, where the rest of the text starts. -/
def parseFrom (str : List Nat) : List Nat → Nat → Nat → Bool → Parsed
  | [], _, radix, isFloat =>
    if isFloat then parseFloat str 0 radix else parseWhole ucd str radix
  | c :: rest, i, radix, isFloat =>
    if c = '/'.toNat then parseRatio ucd str i radix
    else if c = '.'.toNat then
      if rest = [] then parseDecimal ucd str i else parseFrom str rest (i + 1) 10 true
    else if (ucd.digitp c radix).isNone then
      if exponentMarkerP c then parseFloat str i radix
      else if digitCode c = false ∧ signCode c = false then .objnull
      else parseFrom str rest (i + 1) radix isFloat
    else parseFrom str rest (i + 1) radix isFloat

def parseNumber (str : List Nat) (radix : Nat) : Parsed :=
  if str = [] then .objnull else parseFrom ucd str str 0 radix false

end Ecl.Text
