import Ecl.Text.Read

/- The function ecl_read_object_with_delimiter from the label LOOP on, with any syntax of the
characters and any readtable case: tokens and the names of symbols and packages in them. -/
namespace Ecl.Text.Case

open Ecl.Lib (ok_bind)

inductive ReadtableCase where
  | upcase
  | downcase
  | invert
  | preserve
  deriving DecidableEq

/-- The current readtable, *read-base* and the packages that there are. -/
structure Reader where
  ucd : Ucd
  syntaxType : Nat → Chattrib
  readCase : ReadtableCase
  readBase : Radix
  packageExists : List Nat → Bool

inductive PackageName where
  | keyword
  | named (name : List Nat)
  deriving DecidableEq

/-- The objects NIL and T, and a list of intervals. -/
inductive EscapeList where
  | nil
  | t
  | cons (low high : Int) (rest : EscapeList)
  deriving DecidableEq

/-- The variables of ecl_read_object_with_delimiter. -/
structure State where
  token : List Nat
  colon : Int
  package : Option PackageName
  external : Bool
  escapeList : EscapeList
  upcase : Int
  count : Int

/-- The variables at the label LOOP. -/
def State.initial : State where
  token := []
  colon := 0
  package := none
  external := false
  escapeList := .nil
  upcase := 0
  count := 0

/-- The variables after the name of a package. -/
def State.inPackage (package : PackageName) (external : Bool) : State :=
  { State.initial with package := some package, external := external }

section Invert

variable (ucd : Ucd)

def convert (sign : Int) (c : Nat) : Nat :=
  if ucd.upperCaseP c ∧ sign < 0 then ucd.charDowncase c
  else if ucd.lowerCaseP c ∧ 0 < sign then ucd.charUpcase c
  else c

/-- The first inner loop, where i is one less than the given number: the characters down to the
limit are converted. There is no character at the index that is the length. -/
def convertLoop (sign high : Int) : Nat → List Nat → Nat × List Nat
  | 0, x => (0, x)
  | i + 1, x =>
    if high < i then convertLoop sign high i (x.modify i (convert ucd sign)) else (i + 1, x)

/-- The second inner loop. -/
def skipLoop (low : Int) : Nat → Nat
  | 0 => 0
  | i + 1 => if low < i then skipLoop low i else i + 1

/-- The outer loop. The limits are taken from an interval in the order of its CAR and CDR. -/
def invertLoop (sign : Int) : EscapeList → Nat → List Nat → List Nat
  | .cons car cdr rest, i, x =>
    let (i, x) := convertLoop ucd sign car i x
    let i := skipLoop cdr i
    if i = 0 then x else invertLoop sign rest i x
  | _, i, x => (convertLoop ucd sign (-1) i x).2

def invertBufferCase (x : List Nat) (escapeList : EscapeList) (sign : Int) : List Nat :=
  invertLoop ucd sign escapeList (x.length + 1) x

end Invert

namespace State

def push (st : State) (c : Nat) : State := { st with token := st.token ++ [c] }

def escape (r : Reader) (st : State) (low high : Int) : State :=
  { st with
    escapeList := if r.readCase = .invert then .cons low high st.escapeList else .t }

/-- A character outside of escapes, counted and in the case of the readtable. -/
def constituent (r : Reader) (st : State) (c : Nat) : State :=
  if r.readCase = .preserve then st.push c
  else if r.ucd.upperCaseP c then
    let c' := if r.readCase = .downcase then r.ucd.charDowncase c else c
    { st with token := st.token ++ [c'], upcase := st.upcase + 1, count := st.count + 1 }
  else if r.ucd.lowerCaseP c then
    let c' := if r.readCase = .upcase then r.ucd.charUpcase c else c
    { st with token := st.token ++ [c'], upcase := st.upcase - 1, count := st.count + 1 }
  else st.push c

end State

/-- Where the loop is: outside of escapes, after a single escape, between multiple escapes that
began at a length of the token, or after a single escape there. -/
inductive Place where
  | outside
  | single
  | multiple (start : Nat)
  | singleInside (start : Nat)
  deriving DecidableEq

/-- What a token stands for: a number, a dot, or a symbol with its name, its package unless that
is the current one, and if it has to be external. -/
inductive TokenObject where
  | number
  | dot
  | symbol (name : List Nat) (package : Option PackageName) (external : Bool)
  deriving DecidableEq

namespace Reader

variable (r : Reader)

/-- The name in the buffer, before a package marker and at the label SYMBOL. -/
def tokenName (st : State) : List Nat :=
  if r.readCase = .invert then
    if st.upcase = st.count then invertBufferCase r.ucd st.token st.escapeList (-1)
    else if st.upcase = -st.count then invertBufferCase r.ucd st.token st.escapeList 1
    else st.token
  else st.token

/-- The colons before a character that is none. More than two of them are part of the token,
and leave the counter at -1. -/
def endColons (st : State) : Except (ReadError PackageName) State :=
  if 2 < st.colon then
    .ok { st with token := st.token ++ List.replicate st.colon.toNat ':'.toNat, colon := -1 }
  else if st.colon = 0 then .ok st
  else if st.token = [] then .ok (.inPackage .keyword false)
  else if r.packageExists (r.tokenName st) then
    .ok (.inPackage (.named (r.tokenName st)) (st.colon = 1))
  else .error (.noPackage (r.tokenName st))

def tokenLoop : List Nat → Place → State → Except (ReadError PackageName) (State × List Nat)
  | [], .outside, st => .ok (st, [])
  | [], _, _ => .error .endOfFile
  | c :: rest, .single, st =>
    tokenLoop rest .outside ((st.escape r st.token.length st.token.length).push c)
  | c :: rest, .singleInside start, st => tokenLoop rest (.multiple start) (st.push c)
  | c :: rest, .multiple start, st =>
    match r.syntaxType c with
    | .singleEscape => tokenLoop rest (.singleInside start) st
    | .multipleEscape => tokenLoop rest .outside (st.escape r start (st.token.length - 1))
    | _ => tokenLoop rest (.multiple start) (st.push c)
  | c :: rest, .outside, st =>
    if c = ':'.toNat ∧ r.syntaxType c = .constituent then
      tokenLoop rest .outside { st with colon := st.colon + 1 }
    else do
      let st ← r.endColons st
      match r.syntaxType c with
      | .singleEscape => tokenLoop rest .single st
      | .multipleEscape => tokenLoop rest (.multiple st.token.length) st
      | .whitespace | .terminating => .ok (st, c :: rest)
      | _ =>
        if invalidCharacterP c then .error (.invalidCharacter c)
        else tokenLoop rest .outside (st.constituent r c)

/-- The label SYMBOL. -/
def symbol (st : State) : TokenObject := .symbol (r.tokenName st) st.package st.external

/-- The label MAYBE_NUMBER. -/
def maybeNumber (st : State) : Except (ReadError PackageName) TokenObject :=
  if r.readBase.value ≤ 10 ∧ r.ucd.alphaCharP (st.token.headD 0) then .ok (r.symbol st)
  else
    match parseNumber r.ucd st.token r.readBase.value with
    | .nil => .error (.numberSyntax st.token)
    | .fault e => .error (.arithmetic e)
    | .rational _ stop => if stop = st.token.length then .ok .number else .ok (r.symbol st)
    | .float stop => if stop = st.token.length then .ok .number else .ok (r.symbol st)
    | .objnull => .ok (r.symbol st)

def tokenObject (st : State) : Except (ReadError PackageName) TokenObject :=
  if st.package.isSome ∨ st.escapeList ≠ .nil ∨ st.token = [] then .ok (r.symbol st)
  else if st.token = ['.'.toNat] then .ok .dot
  else if st.token.all (· = '.'.toNat) then .error .dots
  else r.maybeNumber st

def readToken (input : List Nat) : Except (ReadError PackageName) (TokenObject × List Nat) := do
  let (st, rest) ← r.tokenLoop input .outside .initial
  let x ← r.tokenObject st
  .ok (x, rest)

end Reader

/-- A character between multiple escapes, maybe after a single escape. -/
inductive Inner where
  | plain (c : Nat)
  | single (mark c : Nat)

def Inner.char : Inner → Nat
  | .plain c => c
  | .single _ c => c

def Inner.spelling : Inner → List Nat
  | .plain c => [c]
  | .single mark c => [mark, c]

/-- A part of a token: a character outside of escapes, one after a single escape, and what is
between two multiple escapes. -/
inductive Piece where
  | bare (c : Nat)
  | single (mark c : Nat)
  | multiple (first : Nat) (inners : List Inner) (last : Nat)

def Piece.spelling : Piece → List Nat
  | .bare c => [c]
  | .single mark c => [mark, c]
  | .multiple first inners last => first :: inners.flatMap Inner.spelling ++ [last]

def Inner.Valid (r : Reader) : Inner → Prop
  | .plain c => r.syntaxType c ≠ .singleEscape ∧ r.syntaxType c ≠ .multipleEscape
  | .single mark _ => r.syntaxType mark = .singleEscape

def Piece.Valid (r : Reader) : Piece → Prop
  | .bare c => r.syntaxType c = .constituent ∧ invalidCharacterP c = false ∧ c ≠ ':'.toNat
  | .single mark _ => r.syntaxType mark = .singleEscape
  | .multiple first inners last =>
    r.syntaxType first = .multipleEscape ∧ (∀ i ∈ inners, i.Valid r) ∧
      r.syntaxType last = .multipleEscape

/-- A character of a name: if it is escaped, and if it is the first one after multiple escapes
with nothing between them. -/
structure Mark where
  char : Nat
  escaped : Bool
  afterEmpty : Bool

def marks : Bool → List Piece → List Mark
  | _, [] => []
  | after, .bare c :: pieces => ⟨c, false, after⟩ :: marks false pieces
  | after, .single _ c :: pieces => ⟨c, true, after⟩ :: marks false pieces
  | _, .multiple _ [] _ :: pieces => marks true pieces
  | after, .multiple _ (i :: inners) _ :: pieces =>
    ⟨i.char, true, after⟩ :: inners.map (⟨·.char, true, false⟩) ++ marks false pieces

/-- The characters outside of escapes. -/
def bareChars (pieces : List Piece) : List Nat :=
  ((marks false pieces).filter (!·.escaped)).map Mark.char

/-- What the readtable case does with the characters of a name that are not escaped. -/
def Reader.caseOf (r : Reader) (pieces : List Piece) (c : Nat) : Nat :=
  match r.readCase with
  | .upcase => r.ucd.charUpcase c
  | .downcase => r.ucd.charDowncase c
  | .preserve => c
  | .invert =>
    if ∀ b ∈ bareChars pieces, ¬ r.ucd.lowerCaseP b then r.ucd.charDowncase c
    else if ∀ b ∈ bareChars pieces, ¬ r.ucd.upperCaseP b then r.ucd.charUpcase c
    else c

def Reader.nameOf (r : Reader) (pieces : List Piece) : List Nat :=
  (marks false pieces).map fun m => if m.escaped then m.char else r.caseOf pieces m.char

/-- The text of a symbol: the name of a package with one or two package markers, and the name
of the symbol, up to a character that ends it. -/
structure Token (r : Reader) where
  package : Option (List Piece × Bool)
  name : List Piece
  rest : List Nat
  nonempty : name ≠ []
  packageValid : ∀ part ∈ package, ∀ p ∈ part.1, p.Valid r
  nameValid : ∀ p ∈ name, p.Valid r
  marker : package.isSome → r.syntaxType ':'.toNat = .constituent
  delimited : ∀ c ∈ rest.head?, r.syntaxType c = .whitespace ∨ r.syntaxType c = .terminating

namespace Token

variable {r : Reader} (token : Token r)

/-- How many package markers there are. -/
def markers (double : Bool) : Nat := if double then 2 else 1

def packageSpelling : List Nat :=
  match token.package with
  | none => []
  | some (pieces, double) =>
    pieces.flatMap Piece.spelling ++ List.replicate (markers double) ':'.toNat

def spelling : List Nat :=
  token.packageSpelling ++ token.name.flatMap Piece.spelling ++ token.rest

/-- The package that is written. A name with no characters is the one of keywords. -/
def packageName : Option PackageName :=
  token.package.map fun part =>
    if r.nameOf part.1 = [] then .keyword else .named (r.nameOf part.1)

def HasEscape (pieces : List Piece) : Prop := ∃ p ∈ pieces, ∀ c, p ≠ .bare c

/-- The names that are written are read, where what is written is read as a symbol at all, which
it is with an escape or a package marker. A package that does not exist is an error. -/
structure CaseLaw (token : Token r) : Prop where
  missing : ∀ name, token.packageName = some (.named name) → r.packageExists name = false →
    r.readToken token.spelling = .error (.noPackage name)
  names : (∀ name, token.packageName = some (.named name) → r.packageExists name = true) →
    ∀ name package external rest,
      r.readToken token.spelling = .ok (.symbol name package external, rest) →
      name = r.nameOf token.name ∧ package = token.packageName ∧ rest = token.rest
  symbol : (∀ name, token.packageName = some (.named name) → r.packageExists name = true) →
    token.package.isSome ∨ HasEscape token.name →
    ∃ name package external,
      r.readToken token.spelling = .ok (.symbol name package external, token.rest)

end Token

end Ecl.Text.Case
