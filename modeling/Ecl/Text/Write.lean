import Mathlib.Data.Nat.Digits.Defs
import Ecl.Text.Read

/- How print.d writes integers and ratios. -/
namespace Ecl.Text

open Ecl.Number (Integer Rational fix makeFixnum)

def text (s : String) : List Nat := s.toList.map Char.toNat

/-- The array that write_positive_fixnum has for digits. -/
def fixnumBits : Nat := 64

/-- The digits of a number from the lowest on, in an array with the given room. -/
def fixnumDigits (base : Nat) : Nat → Nat → List Nat
  | 0, _ => []
  | room + 1, i =>
    (digitChar (i % base) base).toList ++
      if i / base = 0 then [] else fixnumDigits base room (i / base)

def writePositiveFixnum (i : BitVec 64) (base len : Nat) : List Nat :=
  let digits := if i = 0 then ['0'.toNat] else fixnumDigits base fixnumBits i.toNat
  List.replicate (len - digits.length) '0'.toNat ++ digits.reverse

def writeBase (base : Nat) : List Nat :=
  if base = 2 then text "#b"
  else if base = 8 then text "#o"
  else if base = 16 then text "#x"
  else if 10 ≤ base then
    ['#'.toNat, base / 10 + '0'.toNat, base % 10 + '0'.toNat, 'r'.toNat]
  else ['#'.toNat, base + '0'.toNat, 'r'.toNat]

/-- The digits that GMP writes. -/
def mpzDigit (d : Nat) : Nat := if d < 10 then d + '0'.toNat else d - 10 + 'a'.toNat

/-- The function mpz_get_str of GMP. -/
def mpzGetStr (base : Nat) (v : Int) : List Nat :=
  if v = 0 then ['0'.toNat]
  else
    (if v < 0 then ['-'.toNat] else []) ++ ((Nat.digits base v.natAbs).map mpzDigit).reverse

/-- The values of *print-base* and *print-radix*. -/
structure PrintNumbers where
  base : Radix
  radix : Bool

def writeFixnum (base : Nat) (n : BitVec 62) : List Nat :=
  if Integer.fixnum n = makeFixnum 0 then ['0'.toNat]
  else if (fix n).toInt < 0 then '-'.toNat :: writePositiveFixnum (-fix n) base 0
  else writePositiveFixnum (fix n) base 0

/-- The cases of si_write_ugly_object for fixnums and bignums. -/
def writeInteger (env : PrintNumbers) (x : Integer) : List Nat :=
  (if env.radix ∧ env.base.value ≠ 10 then writeBase env.base.value else []) ++
    (match x with
      | .fixnum n => writeFixnum env.base.value n
      | .bignum v => mpzGetStr env.base.value v) ++
    (if env.radix ∧ env.base.value = 10 then ['.'.toNat] else [])

/-- The case of a ratio binds *print-radix* to NIL. -/
def writeRational (env : PrintNumbers) : Rational → List Nat
  | .integer n => writeInteger env n
  | .ratio num den =>
    (if env.radix then writeBase env.base.value else []) ++
      writeInteger { env with radix := false } num ++ '/'.toNat ::
        writeInteger { env with radix := false } den

/- How print.d writes symbols with *print-escape* and the standard readtable. -/

open Ecl.Packages.World (Flag)

variable (ucd : Ucd)

/-- A base string has a byte for each character and a zero at its end; the characters of
other strings are words of four bytes with the lowest one first. -/
def nameBytes (s : List Nat) : List Nat :=
  if s.all (· ≤ 255) then s ++ [0]
  else s.flatMap fun c => [c % 256, c / 256 % 256, c / 65536 % 256, c / 16777216 % 256]

/-- The test of the loop of potential_number_p on the byte c at index i of l and the byte after
it. A char above 127 is a negative code, for which ucd_char_data finds the page of the codes up
to 255, and which is no digit either way. -/
def potentialAt (base i l c next : Nat) : Bool :=
  (ucd.digitp c base).isSome ||
    (c = '+'.toNat && c = '-'.toNat && c = '/'.toNat && c = '.'.toNat && c = '^'.toNat &&
      c = '_'.toNat) ||
    (ucd.alphaCharP c && l ≤ i + 1 || !ucd.alphaCharP next)

/-- The function potential_number_p, that looks at as many bytes as there are characters. -/
def potentialNumberP (s : List Nat) (base : Nat) : Bool :=
  let bytes := nameBytes s
  let byte (i : Nat) := bytes.getD i 0
  if s.length = 0 then false
  else if (ucd.digitp (byte 0) base).isNone ∧
      byte 0 ∉ ['+'.toNat, '-'.toNat, '^'.toNat, '_'.toNat] then false
  else if byte (s.length - 1) ∈ ['+'.toNat, '-'.toNat] then false
  else (List.range (s.length - 1)).all fun i =>
    potentialAt ucd base (i + 1) s.length (byte (i + 1)) (byte (i + 2))

def allDots (s : List Nat) : Bool := s.all (· = '.'.toNat)

def needsToBeEscaped (s : List Nat) (base : Nat) : Bool :=
  potentialNumberP ucd s base ||
    s.any fun c =>
      readtableGet c ≠ .constituent || invalidCharacterP c || c = ':'.toNat || ucd.lowerCaseP c

inductive PrintCase where
  | upcase
  | downcase
  | capitalize
  deriving DecidableEq

/-- The characters of a name without escapes, and if the next letter is the first of a word. -/
def writeCased (printCase : PrintCase) : Bool → List Nat → List Nat
  | _, [] => []
  | capitalize, c :: rest =>
    if ucd.upperCaseP c then
      (if printCase = .downcase ∨ printCase = .capitalize ∧ capitalize = false then
          ucd.charDowncase c
        else c) :: writeCased printCase false rest
    else if ucd.lowerCaseP c then c :: writeCased printCase false rest
    else c :: writeCased printCase (!ucd.alphanumericp c) rest

/-- The characters between bars. -/
def writeEscaped : List Nat → List Nat
  | [] => []
  | c :: rest =>
    if c = '|'.toNat ∨ c = '\\'.toNat then '\\'.toNat :: c :: writeEscaped rest
    else c :: writeEscaped rest

def writeSymbolString (s : List Nat) (printCase : PrintCase) (escape : Bool) : List Nat :=
  if escape then '|'.toNat :: writeEscaped s ++ ['|'.toNat] else writeCased ucd printCase true s

inductive WriteError where
  | cannotPrint
  | pathological
  deriving DecidableEq

/-- The symbols and packages, and the variables of the printer: *print-package*, *print-case*
and if *print-gensym* or *print-readably* is true. The base is the one of the reader. -/
structure PrintSymbols (Symbol Package : Type) where
  name : Symbol → List Nat
  hpack : Symbol → Option Package
  packName : Package → List Nat
  printPackage : Option Package
  printCase : PrintCase
  printGensym : Bool

namespace PrintSymbols

variable {Symbol Package : Type} [DecidableEq Symbol] [DecidableEq Package]
variable (pr : PrintSymbols Symbol Package) (env : Environment Symbol Package)

def otherPackage (package : Package) : Bool :=
  match pr.printPackage with
  | none => false
  | some p => package ≠ p

/-- The symbol is written with its package. -/
def prefixed (x : Symbol) (package : Package) : Bool :=
  pr.otherPackage package ||
    match env.findSymbol (pr.name x) env.currentPackage with
    | none => true
    | some (found, _) => found ≠ x

/-- The name of the package and the colons. -/
def writePackage (x : Symbol) (package : Package) : Except WriteError (List Nat) :=
  let name := pr.packName package
  let written := writeSymbolString env.ucd name pr.printCase
    (needsToBeEscaped env.ucd name env.readBase.value)
  match env.findSymbol (pr.name x) package with
  | none => .error .cannotPrint
  | some (found, flag) =>
    if found ≠ x then .error .cannotPrint
    else if pr.otherPackage package ∨ flag = .internal then .ok (written ++ text "::")
    else if flag = .external then .ok (written ++ text ":")
    else .error .pathological

def writePrefix (x : Symbol) : Except WriteError (List Nat) :=
  match pr.hpack x with
  | none => .ok (if pr.printGensym then text "#:" else [])
  | some package =>
    if package = env.keywordPackage then .ok (text ":")
    else if pr.prefixed env x package then pr.writePackage env x package
    else .ok []

def writeSymbol (x : Symbol) : Except WriteError (List Nat) := do
  let start ← pr.writePrefix env x
  .ok (start ++ writeSymbolString env.ucd (pr.name x) pr.printCase
    (needsToBeEscaped env.ucd (pr.name x) env.readBase.value || allDots (pr.name x)))

end PrintSymbols

end Ecl.Text
