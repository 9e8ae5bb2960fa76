import Ecl.Lib.Except
import Ecl.Packages.State
import Ecl.Text.ParseNumber

/- The reader of read.d with the standard readtable: tokens, and the numbers after #b, #o, #x
and #r. -/
namespace Ecl.Text

open Ecl.Number (Rational ArithmeticError)
open Ecl.Packages.World (Flag)

inductive ReadError (Package : Type) where
  | endOfFile
  | invalidCharacter (c : Nat)
  | noPackage (name : List Nat)
  | dots
  | numberSyntax (token : List Nat)
  | notExternal (token : List Nat) (p : Package)
  | extraArgument (c : Char) (argument : Int)
  | illegalRadix (radix : Int)
  | noRadix
  | cannotParse (c : Char)
  | floatAfter (c : Char)
  | arithmetic (e : ArithmeticError)

/-- What READ returns. A new symbol is given by its name and its package; the dot is the symbol
that the readers of lists look for. -/
inductive Datum (Symbol Package : Type) where
  | rational (x : Rational)
  | float
  | symbol (s : Symbol)
  | created (name : List Nat) (p : Package)
  | dot

section Types

variable (Symbol Package : Type)

/-- The result of a reader: what it read, unless the text has ended, and the rest of the
text. -/
abbrev Outcome : Type := Except (ReadError Package) (Option (Datum Symbol Package) × List Nat)

/-- What the reader depends on. Macro characters other than #, and the characters after # that
stand for no number, have their functions as parameters. -/
structure Environment where
  ucd : Ucd
  readBase : Radix
  currentPackage : Package
  keywordPackage : Package
  findPackage : List Nat → Option Package
  findSymbol : List Nat → Package → Option (Symbol × Flag)
  macroFunction : Nat → List Nat → Outcome Symbol Package
  dispatchFunction : Nat → Option Int → List Nat → Outcome Symbol Package

/-- The reader where there are no symbols yet, and no package but the current one and the one
of keywords. -/
def emptyEnvironment (readBase : Radix) : Environment Nat Nat where
  ucd := asciiUcd
  readBase := readBase
  currentPackage := 0
  keywordPackage := 1
  findPackage _ := none
  findSymbol _ _ := none
  macroFunction _ _ := .error .endOfFile
  dispatchFunction _ _ _ := .error .endOfFile

/-- The variables of ecl_read_object_with_delimiter. -/
structure TokenState where
  token : List Nat
  colon : Int
  package : Option Package
  external : Bool
  escaped : Bool

end Types

variable {Symbol Package : Type}

/-- The variables at the label LOOP. -/
def TokenState.initial : TokenState Package where
  token := []
  colon := 0
  package := none
  external := false
  escaped := false

def TokenState.push (st : TokenState Package) (c : Nat) : TokenState Package :=
  { st with token := st.token ++ [c] }

/-- Where the loop is: outside of escapes, after a single escape, between multiple escapes, or
after a single escape there. -/
inductive Escape where
  | outside
  | single
  | multiple
  | singleInside
  deriving DecidableEq

namespace Environment

variable (env : Environment Symbol Package)

/-- The colons before a character that is none. More than two of them are part of the token,
and leave the counter at -1. -/
def endColons (st : TokenState Package) : Except (ReadError Package) (TokenState Package) :=
  if 2 < st.colon then
    .ok { st with token := st.token ++ List.replicate st.colon.toNat ':'.toNat, colon := -1 }
  else if st.colon = 0 then .ok st
  else if st.token = [] then
    .ok { st with
      package := some env.keywordPackage
      external := false
      token := []
      colon := 0
      escaped := false }
  else
    match env.findPackage st.token with
    | none => .error (.noPackage st.token)
    | some p =>
      .ok { st with
        package := some p
        external := st.colon = 1
        token := []
        colon := 0
        escaped := false }

def tokenLoop : List Nat → Escape → TokenState Package →
    Except (ReadError Package) (TokenState Package × List Nat)
  | [], .outside, st => .ok (st, [])
  | [], _, _ => .error .endOfFile
  | c :: rest, .single, st => tokenLoop rest .outside (st.push c)
  | c :: rest, .singleInside, st => tokenLoop rest .multiple (st.push c)
  | c :: rest, .multiple, st =>
    match readtableGet c with
    | .singleEscape => tokenLoop rest .singleInside st
    | .multipleEscape => tokenLoop rest .outside { st with escaped := true }
    | _ => tokenLoop rest .multiple (st.push c)
  | c :: rest, .outside, st =>
    if c = ':'.toNat then tokenLoop rest .outside { st with colon := st.colon + 1 }
    else do
      let st ← env.endColons st
      match readtableGet c with
      | .singleEscape => tokenLoop rest .single { st with escaped := true }
      | .multipleEscape => tokenLoop rest .multiple st
      | .whitespace | .terminating => .ok (st, c :: rest)
      | _ =>
        if invalidCharacterP c then .error (.invalidCharacter c)
        else tokenLoop rest .outside (st.push (env.ucd.charUpcase c))

/-- The label SYMBOL. -/
def readSymbol (st : TokenState Package) : Except (ReadError Package) (Datum Symbol Package) :=
  let p := st.package.getD env.currentPackage
  match env.findSymbol st.token p with
  | some (s, flag) =>
    if st.external ∧ flag ≠ .external then .error (.notExternal st.token p) else .ok (.symbol s)
  | none =>
    if st.external then .error (.notExternal st.token p) else .ok (.created st.token p)

/-- The label MAYBE_NUMBER. -/
def maybeNumber (st : TokenState Package) : Except (ReadError Package) (Datum Symbol Package) :=
  if env.readBase.value ≤ 10 ∧ env.ucd.alphaCharP (st.token.headD 0) then env.readSymbol st
  else
    match parseNumber env.ucd st.token env.readBase.value with
    | .nil => .error (.numberSyntax st.token)
    | .fault e => .error (.arithmetic e)
    | .rational x stop =>
      if stop = st.token.length then .ok (.rational x) else env.readSymbol st
    | .float stop => if stop = st.token.length then .ok .float else env.readSymbol st
    | .objnull => env.readSymbol st

def tokenObject (st : TokenState Package) : Except (ReadError Package) (Datum Symbol Package) :=
  if st.package.isSome ∨ st.escaped ∨ st.token = [] then env.readSymbol st
  else if st.token = ['.'.toNat] then .ok .dot
  else if st.token.all (· = '.'.toNat) then .error .dots
  else env.maybeNumber st

/-- The function read_constituent, and if it is past the first character. -/
def readConstituent : Bool → List Nat → List Nat × List Nat
  | _, [] => ([], [])
  | notFirst, c :: rest =>
    if readtableGet c = .constituent ∨ (readtableGet c = .nonTerminating ∧ notFirst) then
      let (token, rest) := readConstituent true rest
      (c :: token, rest)
    else ([], c :: rest)

def readNumber (radix : Nat) (macroChar : Char) (input : List Nat) : Outcome Symbol Package :=
  let (token, rest) := readConstituent false input
  match parseNumber env.ucd token radix with
  | .rational x stop =>
    if stop = token.length then .ok (some (.rational x), rest)
    else .error (.cannotParse macroChar)
  | .float stop =>
    if stop = token.length then .error (.floatAfter macroChar)
    else .error (.cannotParse macroChar)
  | .fault e => .error (.arithmetic e)
  | _ => .error (.cannotParse macroChar)

/-- The readers for #B, #O and #X. -/
def sharpReader (radix : Nat) (macroChar : Char) (d : Option Int) (input : List Nat) :
    Outcome Symbol Package :=
  match d with
  | some argument => .error (.extraArgument macroChar argument)
  | none => env.readNumber radix macroChar input

def sharpRReader (d : Option Int) (input : List Nat) : Outcome Symbol Package :=
  match d with
  | none => .error .noRadix
  | some radix =>
    if 36 < radix ∨ radix < 2 then .error (.illegalRadix radix)
    else env.readNumber radix.toNat 'R' input

/-- The function that is called for the character after # and its argument. -/
def dispatchSharp (c : Nat) (d : Option Int) (rest : List Nat) : Outcome Symbol Package :=
  if isLetter 'b' c then env.sharpReader 2 'B' d rest
  else if isLetter 'o' c then env.sharpReader 8 'O' d rest
  else if isLetter 'x' c then env.sharpReader 16 'X' d rest
  else if isLetter 'r' c then env.sharpRReader d rest
  else env.dispatchFunction c d rest

/-- The digits after # give the argument, which has to be a fixnum. -/
def dispatchFrom : Option Nat → List Nat → Outcome Symbol Package
  | _, [] => .error .endOfFile
  | argument, c :: rest =>
    match env.ucd.digitp c 10 with
    | some d => dispatchFrom (some (10 * argument.getD 0 + d)) rest
    | none => env.dispatchSharp c (argument.map fun i => (BitVec.ofNat 62 i).toInt) rest

/-- The function ecl_read_object. -/
def readObject :
    List Nat → Except (ReadError Package) (Option (Datum Symbol Package) × List Nat)
  | [] => .ok (none, [])
  | c :: rest =>
    match readtableGet c with
    | .whitespace => readObject rest
    | .terminating => env.macroFunction c rest
    | .nonTerminating => env.dispatchFrom none rest
    | _ => do
        let (st, rest) ← env.tokenLoop (c :: rest) .outside .initial
        let x ← env.tokenObject st
        .ok (some x, rest)

end Environment

/- How the reader splits a text into tokens. -/

open List

open Ecl.Lib (ok_bind)

/-- A character that is part of a token as it is, but for its case. -/
structure Bare (c : Nat) : Prop where
  constituent : readtableGet c = .constituent
  valid : invalidCharacterP c = false
  notColon : c ≠ ':'.toNat

/-- A token ends where the rest of the text starts. -/
def Delimited (rest : List Nat) : Prop :=
  ∀ c ∈ rest.head?, readtableGet c = .whitespace ∨ readtableGet c = .terminating

/-- The characters that are no constituents. -/
def special : List Nat := [9, 10, 12, 13, 32, 34, 35, 39, 40, 41, 44, 59, 92, 96, 124]

theorem constituent_iff (c : Nat) : readtableGet c = .constituent ↔ c ∉ special := by
  constructor
  · intro constituent member
    have others : ∀ c ∈ special, readtableGet c ≠ .constituent := by decide
    exact others c member constituent
  · intro others
    simp only [special, mem_cons, not_mem_nil, or_false, not_or] at others
    simp only [readtableGet, mem_cons, not_mem_nil, others, or_self, if_false,
      Char.reduceToNat]

theorem not_escape {c : Nat} (notBar : c ≠ '|'.toNat) (notBackslash : c ≠ '\\'.toNat) :
    readtableGet c ≠ .singleEscape ∧ readtableGet c ≠ .multipleEscape := by
  constructor
  · grind [readtableGet]
  · grind [readtableGet]

theorem bare_of_range {c : Nat} (range : 42 ≤ c ∧ c ≤ 57 ∧ c ≠ 44 ∨ 65 ≤ c ∧ c ≤ 90 ∨
    97 ≤ c ∧ c ≤ 122) : Bare c := by
  refine ⟨(constituent_iff c).mpr ?_, ?_, ?_⟩
  · simp only [special, mem_cons, not_mem_nil, or_false]
    omega
  · simp only [invalidCharacterP, Bool.or_eq_false_iff, decide_eq_false_iff_not]
    omega
  · simp only [Char.reduceToNat]
    omega

namespace Environment

variable {Symbol Package : Type} (env : Environment Symbol Package)

theorem endColons_zero {st : TokenState Package} (none : st.colon = 0) :
    env.endColons st = .ok st := by
  rw [endColons, if_neg (by omega), if_pos none]

variable {c : Nat}

theorem tokenLoop_push (bare : Bare c) (rest : List Nat) {st : TokenState Package}
    (none : st.colon = 0) :
    env.tokenLoop (c :: rest) .outside st =
      env.tokenLoop rest .outside (st.push (env.ucd.charUpcase c)) := by
  rw [tokenLoop, if_neg bare.notColon, env.endColons_zero none, ok_bind]
  simp only [bare.constituent, bare.valid, Bool.false_eq_true, if_false]

variable {rest : List Nat}

theorem tokenLoop_delimited (delimited : Delimited rest) {st : TokenState Package}
    (none : st.colon = 0) :
    env.tokenLoop rest .outside st = .ok (st, rest) := by
  cases rest with
  | nil => rfl
  | cons c rest =>
    have ends := delimited c rfl
    have notColon : c ≠ ':'.toNat := by
      rintro rfl
      exact absurd ends (by decide)
    rw [tokenLoop, if_neg notColon, env.endColons_zero none, ok_bind]
    cases ends with
    | inl white => simp only [white]
    | inr terminating => simp only [terminating]

theorem tokenLoop_append {token : List Nat} (bare : ∀ c ∈ token, Bare c) (rest : List Nat)
    {st : TokenState Package} (none : st.colon = 0) :
    env.tokenLoop (token ++ rest) .outside st =
      env.tokenLoop rest .outside { st with
        token := st.token ++ token.map env.ucd.charUpcase } := by
  induction token generalizing st with
  | nil => rw [nil_append, map_nil, append_nil]
  | cons c token ih =>
    rw [cons_append, env.tokenLoop_push (bare c mem_cons_self) _ none,
      @ih (fun c member => bare c (mem_cons_of_mem _ member)) (st.push _) none]
    simp only [TokenState.push, append_assoc, singleton_append, map_cons]

theorem tokenLoop_bare {token : List Nat} (bare : ∀ c ∈ token, Bare c)
    (delimited : Delimited rest) {st : TokenState Package} (none : st.colon = 0) :
    env.tokenLoop (token ++ rest) .outside st =
      .ok ({ st with token := st.token ++ token.map env.ucd.charUpcase }, rest) := by
  rw [env.tokenLoop_append bare rest none]
  exact env.tokenLoop_delimited delimited none

theorem tokenLoop_endColons (notColon : c ≠ ':'.toNat) (rest : List Nat)
    {st st' : TokenState Package} (ends : env.endColons st = .ok st') (none : st'.colon = 0) :
    env.tokenLoop (c :: rest) .outside st = env.tokenLoop (c :: rest) .outside st' := by
  rw [tokenLoop, tokenLoop, if_neg notColon, if_neg notColon, ends, env.endColons_zero none]

theorem readObject_token
    (starts : readtableGet c = .constituent ∨ readtableGet c = .multipleEscape) (rest : List Nat) :
    env.readObject (c :: rest) = env.tokenLoop (c :: rest) .outside .initial >>= fun found =>
      env.tokenObject found.1 >>= fun x => .ok (some x, found.2) := by
  cases starts with
  | inl constituent => simp only [readObject, constituent]
  | inr escape => simp only [readObject, escape]

theorem readObject_bare {token : List Nat} (bare : ∀ c ∈ token, Bare c) (nonempty : token ≠ [])
    (delimited : Delimited rest) :
    env.readObject (token ++ rest) =
      env.tokenObject { TokenState.initial with token := token.map env.ucd.charUpcase } >>=
        fun x => .ok (some x, rest) := by
  cases token with
  | nil => exact absurd rfl nonempty
  | cons c token =>
    rw [cons_append, env.readObject_token (.inl (bare c mem_cons_self).constituent),
      ← cons_append, env.tokenLoop_bare bare delimited rfl, ok_bind]
    rfl

theorem readConstituent_bare {token : List Nat} (bare : ∀ c ∈ token, Bare c)
    (delimited : Delimited rest) (notFirst : Bool) :
    readConstituent notFirst (token ++ rest) = (token, rest) := by
  induction token generalizing notFirst with
  | nil =>
    cases rest with
    | nil => rfl
    | cons c rest =>
      rw [nil_append, readConstituent, if_neg]
      cases delimited c rfl with
      | inl white => simp only [white, reduceCtorEq, false_and, or_self, not_false_eq_true]
      | inr terminating =>
        simp only [terminating, reduceCtorEq, false_and, or_self, not_false_eq_true]
  | cons c token ih =>
    rw [cons_append, readConstituent, if_pos (.inl (bare c mem_cons_self).constituent),
      ih fun c member => bare c (mem_cons_of_mem _ member)]

end Environment

end Ecl.Text
