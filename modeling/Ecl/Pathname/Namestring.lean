import Ecl.Pathname.CheckDirectory
import Mathlib.Data.Nat.Digits.Defs

/- Pathnames, their parsing from namestrings and their printing, of pathname.d. -/
namespace Ecl

/-- A pathname; the directory is the empty list where it is NIL. -/
structure Pathname where
  logical : Bool
  host : Pathname.Component
  device : Pathname.Component
  directory : List Pathname.Component
  name : Pathname.Component
  type : Pathname.Component
  version : Pathname.Component
  deriving DecidableEq

namespace Pathname

inductive Field where
  | device
  | name
  | type
  | version
  deriving DecidableEq

/-- Why there is no pathname or no namestring. -/
inductive Failure where
  /-- Cnil of ecl_parse_namestring. -/
  | unparsed
  /-- ~s is not a valid pathname-~a component. -/
  | invalid (x : Component) (field : Field)
  /-- The same for a host, where the directory is named. -/
  | invalidHost (directory : List Component)
  | fileError
  /-- The check of the directory does not end. -/
  | diverges
  /-- The check of the directory wrote the CDR of NIL. -/
  | nilWritten
  /-- Cnil of ecl_namestring. -/
  | unreadable
  /-- A symbol was written as a sequence or as a number. -/
  | notText
  /-- No failure: the directory is (:absolute . :error), which is no list of components. -/
  | dotted (left : List Char)
  deriving DecidableEq

/-- char-upcase, of which only the standard characters are known. -/
structure Casing where
  upcase : Char → Char
  standard : ∀ c : Char, c.toNat < 128 → upcase c = c.toUpper

/-- What is read outside of pathnames: the names of logical hosts, the home directories of
users, the whitespace of the readtable and the largest fixnum. -/
structure Session where
  casing : Casing
  logicalHosts : List (List Char)
  homedir : List Char → Except Failure Pathname
  whitespace : Char → Bool
  mostPositiveFixnum : Nat

def Casing.stringEqual (casing : Casing) (a b : List Char) : Bool :=
  a.map casing.upcase = b.map casing.upcase

/-- ecl_logical_hostname_p. -/
def Session.logicalHostname (session : Session) (host : Component) : Bool :=
  host.isString && session.logicalHosts.any (session.casing.stringEqual host.characters)

structure WordFlags where
  includeDelim : Bool := false
  allowAsterisk : Bool := false
  emptyIsNil : Bool := false
  logical : Bool := false
  searchLastDot : Bool := false
  allowLeadingDot : Bool := false
  disallowSlash : Bool := false
  disallowSemicolon : Bool := false

/-- A character that may stand in a word. -/
def validChar (flags : WordFlags) (c : Char) : Bool :=
  if c = '*' then flags.allowAsterisk
  else if c = ';' && flags.disallowSemicolon then false
  else if c = '/' && flags.disallowSlash then false
  else c ≠ '\x00'

/-- The loop of parse_word at character `i`, behind `previous`: the place of the last delimiter,
and whether the last asterisk follows another one. -/
def wordLoop (delim : Char → Bool) (flags : WordFlags) (previous : Option Char) (i : Nat)
    (lastDelim : Option Nat) (wildInferiors : Bool) : List Char → Option (Option Nat × Bool)
  | [] => some (lastDelim, wildInferiors)
  | c :: rest =>
    if delim c && i = 0 && flags.allowLeadingDot then
      wordLoop delim flags c (i + 1) lastDelim wildInferiors rest
    else if delim c && !flags.searchLastDot then some (i, wildInferiors)
    else if validChar flags c then
      wordLoop delim flags c (i + 1) (if delim c then some i else lastDelim)
        (if c = '*' then previous = some '*' else wildInferiors) rest
    else none

/-- What a word of valid characters stands for. -/
def wordComponent (flags : WordFlags) (wildInferiors : Bool) : List Char → Component
  | [] => if flags.emptyIsNil then .null else .string []
  | [c] => if c = '*' then .wild else .string [c]
  | [c0, c1] =>
    if c0 = '*' ∧ c1 = '*' then .wildInferiors
    else if flags.logical = false ∧ c0 = '.' ∧ c1 = '.' then .up
    else .string [c0, c1]
  | word => if wildInferiors then .error else .string word

/-- parse_word, with the number of characters that were taken. -/
def parseWord (delim : Char → Bool) (flags : WordFlags) (rest : List Char) : Component × Nat :=
  match wordLoop delim flags none 0 none false rest with
  | none => (.error, 0)
  | some (some i, wildInferiors) => (wordComponent flags wildInferiors (rest.take i), i + 1)
  | some (none, wildInferiors) =>
    if flags.includeDelim then (.null, 0)
    else (wordComponent flags wildInferiors rest, rest.length)

theorem parseWord_taken (delim : Char → Bool) (flags : WordFlags) (rest : List Char)
    (included : flags.includeDelim = true) :
    (parseWord delim flags rest).1 = .error ∨ (parseWord delim flags rest).1 = .null ∨
      0 < (parseWord delim flags rest).2 := by
  rw [parseWord]
  split
  · exact .inl rfl
  · exact .inr (.inr (Nat.succ_pos _))
  · rw [if_pos included]
    exact .inr (.inl rfl)

def isColon (c : Char) : Bool := c = ':'
def isSlash (c : Char) : Bool := c = '/'
def isSemicolon (c : Char) : Bool := c = ';'
def isDot (c : Char) : Bool := c = '.'
def isNull (c : Char) : Bool := c = '\x00'

def parseDirectory (logical : Bool) (rest : List Char) : Component × Nat :=
  parseWord (if logical then isSemicolon else isSlash)
    { logical := logical, includeDelim := true, allowAsterisk := true } rest

/-- The loop of parse_directories: the parts, and what is left; for :ERROR only what is left.
`first` tells that nothing was taken yet. -/
def directoriesLoop (logical first : Bool) (rest : List Char) :
    Except (List Char) (List Component × List Char) :=
  if rest = [] then .ok ([], rest)
  else
    match _taken : parseDirectory logical rest with
    | (part, n) =>
      if _failed : part = .error ∨ part = .null then .ok ([], rest)
      else if part = .string [] ∧ first = false then
        if logical then .error rest else directoriesLoop logical false (rest.drop n)
      else
        (directoriesLoop logical false (rest.drop n)).map fun (parts, left) =>
          ((if part = .string [] then if logical then .relative else .absolute else part) ::
            parts, left)
termination_by rest.length
decreasing_by
  all_goals
    have step := parseWord_taken (if logical then isSemicolon else isSlash)
      { logical := logical, includeDelim := true, allowAsterisk := true } rest rfl
    have bound : 0 < rest.length := List.length_pos_iff.mpr ‹_›
    rw [← parseDirectory, _taken] at step
    simp only [List.length_drop]
    grind

/-- What destructively_check_directory leaves, where NIL as its result changes nothing. -/
def checkedDirectory (directory : List Component) (logical : Bool) :
    Except Failure (List Component) :=
  match destructivelyCheckDirectory directory logical with
  | .directory l => .ok l
  | .invalid | .empty => .ok directory
  | .error => .error .fileError
  | .circular | .restarts => .error .diverges
  | .nilWritten => .error .nilWritten

/-- FIXNUMP. -/
def Session.isFixnum (session : Session) : Component → Bool
  | .integer n => -session.mostPositiveFixnum - 1 ≤ n && n ≤ session.mostPositiveFixnum
  | _ => false

/-- ecl_make_pathname, of a directory that is a list. -/
def Session.makePathname (session : Session) (host device : Component) (directory : List Component)
    (name type version : Component) : Except Failure Pathname :=
  let logical := session.logicalHostname host
  if !host.isString && host ≠ .null then .error (.invalidHost directory)
  else if device ≠ .null && device ≠ .unspecific && !(!logical && device.isString) then
    .error (.invalid device .device)
  else if name ≠ .null && name ≠ .wild && !name.isString then .error (.invalid name .name)
  else if type ≠ .null && type ≠ .unspecific && type ≠ .wild && !type.isString then
    .error (.invalid type .type)
  else if version ≠ .unspecific && version ≠ .newest && version ≠ .wild && version ≠ .null &&
      !session.isFixnum version then
    .error (.invalid version .version)
  else
    (checkedDirectory directory logical).map fun directory =>
      { logical, host, device, directory, name, type, version }

/-- The first of two components that is not NIL. -/
def Component.or (x y : Component) : Component := if x = .null then y else x

/-- The device of ecl_merge_pathnames. `sameHost` tells that the hosts are the same object. -/
def mergedDevice (sameHost : Bool) (path defaults : Pathname) : Component :=
  if path.device = .null then
    if path.host = .null then defaults.device
    else if sameHost then defaults.device
    else .null
  else path.device

/-- The directory of ecl_merge_pathnames. -/
def mergedDirectory : List Component → List Component → List Component
  | [], defaults => defaults
  | front :: rest, defaults =>
    if front = .absolute then front :: rest
    else if defaults = [] then front :: rest
    else defaults ++ rest

/-- The version of ecl_merge_pathnames. -/
def mergedVersion (path defaults : Pathname) (defaultVersion : Component) : Component :=
  (if path.name = .null then path.version.or defaults.version else path.version).or defaultVersion

/-- ecl_merge_pathnames of two pathnames. -/
def Session.mergePathnames (session : Session) (sameHost : Bool) (path defaults : Pathname)
    (defaultVersion : Component) : Except Failure Pathname :=
  session.makePathname (path.host.or defaults.host) (mergedDevice sameHost path defaults)
    (mergedDirectory path.directory defaults.directory) (path.name.or defaults.name)
    (path.type.or defaults.type) (mergedVersion path defaults defaultVersion)

def Session.tildeExpand (session : Session) (pathname : Pathname) : Except Failure Pathname :=
  if pathname.logical || pathname.host ≠ .null || pathname.device ≠ .null then .ok pathname
  else
    match pathname.directory with
    | .relative :: .string ('~' :: user) :: rest => do
        let home ← session.homedir ('~' :: user)
        session.mergePathnames false { pathname with directory := .relative :: rest } home .newest
    | _ => .ok pathname

/-- parse_directories, and the check of its result. -/
def parseDirectories (logical : Bool) (rest : List Char) :
    Except Failure (List Component × List Char) :=
  match directoriesLoop logical true rest with
  | .error left => .error (.dotted left)
  | .ok (path, rest) =>
    match path with
    | [] => .ok (if logical then [.absolute] else [], rest)
    | front :: parts =>
      let path :=
        if front ≠ .relative ∧ front ≠ .absolute then
          (if logical then .absolute else .relative) :: front :: parts
        else front :: parts
      match checkedDirectory path logical with
      | .error .fileError => .error .unparsed
      | .error failure => .error failure
      | .ok path => .ok (path, rest)

/-- A word that is not :ERROR, and what follows it. -/
def validWord (delim : Char → Bool) (flags : WordFlags) (rest : List Char) :
    Except Failure (Component × Nat) :=
  let (word, n) := parseWord delim flags rest
  if word = .error then .error .unparsed else .ok (word, n)

/-- The integer that is all of a string but whitespace before it. -/
def Session.wholeInteger (session : Session) (text : List Char) : Option Int :=
  let digits (sign : Int) (l : List Char) : Option Int :=
    if l ≠ [] ∧ l.all Char.isDigit then
      some (sign * l.foldl (fun n c => 10 * n + (c.toNat - '0'.toNat)) 0)
    else none
  match text.dropWhile session.whitespace with
  | '+' :: l => digits 1 l
  | '-' :: l => digits (-1) l
  | l => digits 1 l

/-- The version that a word of a logical namestring stands for. -/
def Session.parseVersion (session : Session) : Component → Except Failure Component
  | .string text =>
    match session.wholeInteger text with
    | some n => if 0 < n then .ok (.integer n) else .error .unparsed
    | none =>
      if session.casing.stringEqual text "NEWEST".toList then .ok .newest else .error .unparsed
  | aux => .ok aux

/-- Whether the character in front of what follows `n` more characters is a dot. -/
def behindDot (before : Option Char) (rest : List Char) (n : Nat) : Bool :=
  if n = 0 then before = some '.' else rest[n - 1]? = some '.'

/-- The name, the type and the version in a logical namestring, behind the character `before`. -/
def Session.parseLogicalFile (session : Session) (before : Option Char) (rest : List Char) :
    Except Failure (Component × Component × Component × List Char) := do
  let flags : WordFlags := { logical := true, allowAsterisk := true, emptyIsNil := true }
  let (name, n) ← validWord isDot flags rest
  if !behindDot before rest n then return (name, .null, .null, rest.drop n)
  let before := if n = 0 then before else rest[n - 1]?
  let rest := rest.drop n
  let (type, n) ← validWord isDot flags rest
  if !behindDot before rest n then return (name, type, .null, rest.drop n)
  let rest := rest.drop n
  let (aux, n) ← validWord isNull flags rest
  return (name, type, ← session.parseVersion aux, rest.drop n)

def nameFlags : WordFlags :=
  { allowLeadingDot := true, searchLastDot := true, allowAsterisk := true, emptyIsNil := true }

/-- The name and the type in a physical namestring. -/
def parsePhysicalFile (rest : List Char) : Except Failure (Component × Component × List Char) := do
  let (name, n) ← validWord isDot nameFlags rest
  if n ≤ 1 ∨ rest[n - 1]? ≠ some '.' then return (name, .null, rest.drop n)
  let rest := rest.drop n
  let (type, n) ← validWord isNull { allowAsterisk := true } rest
  return (name, type, rest.drop n)

/-- The host behind two slashes. -/
def parseHost (rest : List Char) : Except Failure (Component × List Char) :=
  match parseWord isSlash { emptyIsNil := true } rest with
  | (.error, n) => .ok (.null, rest.drop n)
  | (.null, n) => .ok (.null, rest.drop n)
  | (.string host, n) =>
      .ok (.string host, rest.drop (if rest[n - 1]? = some '/' then n - 1 else n))
  | _ => .error .unparsed

def deviceFlags : WordFlags := { includeDelim := true, emptyIsNil := true, disallowSlash := true }

def Session.parseDeviceAndHost (session : Session) (rest : List Char) :
    Except Failure (Component × Component × List Char) :=
  match parseWord isColon deviceFlags rest with
  | (.error, n) => .ok (.null, .null, rest.drop n)
  | (.null, n) => .ok (.null, .null, rest.drop n)
  | (.string word, n) =>
    let device := if session.casing.stringEqual word "FILE".toList then .null else .string word
    match rest.drop n with
    | '/' :: '/' :: rest => (parseHost rest).map fun (host, rest) => (device, host, rest)
    | rest => .ok (device, .null, rest)
  | _ => .error .unparsed

/-- The version that a physical namestring stands for. -/
def impliedVersion (name type : Component) : Component :=
  if name ≠ .null ∨ type ≠ .null then .newest else .null

/-- The physical part of ecl_parse_namestring. -/
def Session.parsePhysical (session : Session) (s : List Char) :
    Except Failure (Pathname × List Char) := do
  let (device, host, rest) ← session.parseDeviceAndHost s
  let (path, rest) ← parseDirectories false rest
  let (name, type, rest) ← parsePhysicalFile rest
  let path ← session.makePathname host device path name type (impliedVersion name type)
  return (← session.tildeExpand { path with logical := false }, rest)

/-- The logical part of ecl_parse_namestring, behind the host. -/
def Session.parseLogical (session : Session) (host : Component) (before : Option Char)
    (rest : List Char) : Except Failure (Pathname × List Char) := do
  match parseDirectories true rest with
  | .error (.dotted left) =>
    -- :ERROR is not a CONS, so it becomes the CDR of (:absolute) and the rest is parsed
    let (name, type, version, _) ← session.parseLogicalFile (some ';') left
    let _ ← session.makePathname host .unspecific [.absolute] name type version
    .error (.dotted left)
  | .error failure => .error failure
  | .ok (path, left) =>
    let before := if left = rest then before else some ';'
    let (name, type, version, rest) ← session.parseLogicalFile before left
    let path ← session.makePathname host .unspecific path name type version
    return (← session.tildeExpand { path with logical := true }, rest)

def hostFlags : WordFlags := { logical := true, includeDelim := true, disallowSemicolon := true }

/-- The host that tells logical namestrings from physical ones, and the characters it took. -/
def namestringHost (s : List Char) (defaultHost : Component) : Component × Nat :=
  let (host, n) := parseWord isColon hostFlags s
  (if defaultHost ≠ .null ∧ (host = .null ∨ host = .error) then defaultHost else host, n)

/-- ecl_parse_namestring: the pathname and what is left of the string. -/
def Session.parseNamestring (session : Session) (s : List Char) (defaultHost : Component) :
    Except Failure (Pathname × List Char) :=
  if s = [] then
    .ok ({ logical := false, host := .null, device := .null, directory := [], name := .null,
           type := .null, version := .null }, [])
  else
    let (host, n) := namestringHost s defaultHost
    if session.logicalHostname host then
      session.parseLogical host (if n = 0 then none else some ':') (s.drop n)
    else session.parsePhysical s

/-- parse-namestring of a string that is parsed completely. -/
def Session.parse (session : Session) (s : List Char) (defaultHost : Component) :
    Except Failure Pathname :=
  match session.parseNamestring s defaultHost with
  | .error failure => .error failure
  | .ok (path, rest) => if rest = [] then .ok path else .error .unparsed

def writeSequence : Component → Except Failure (List Char)
  | .string text => .ok text
  | .null => .ok []
  | _ => .error .notText

def writeItem : Component → Except Failure (List Char)
  | .up => .ok ['.', '.']
  | .wild => .ok ['*']
  | .wildInferiors => .ok ['*', '*']
  | .back => .error .unreadable
  | item => writeSequence item

/-- The items of a directory, each with its separator. -/
def writeItems (separator : Char) : List Component → Except Failure (List Char)
  | [] => .ok []
  | item :: l => do return (← writeItem item) ++ separator :: (← writeItems separator l)

def writeDirectory (logical : Bool) : List Component → Except Failure (List Char)
  | [] => .ok []
  | front :: l => do
      let items ← writeItems (if logical then ';' else '/') l
      return (if front = .relative then if logical then [';'] else []
        else if logical then [] else ['/']) ++ items

def writeHost (x : Pathname) (truncate : Bool) : Except Failure (List Char) :=
  if x.logical then
    if x.device ≠ .unspecific ∧ truncate then .error .unreadable
    else if x.host = .null then .ok []
    else (writeSequence x.host).map (· ++ [':'])
  else do
    let device ← if x.device = .null then .ok [] else (writeSequence x.device).map (· ++ [':'])
    if x.host = .null then return device
    let file := if x.device = .null then "file:".toList else []
    return device ++ file ++ "//".toList ++ (← writeSequence x.host)

/-- The digits of a fixnum that is stored in an int; those of a negative number are below '0'. -/
def writeInt (fixnum : Int) : List Char :=
  let n := fixnum.bmod (2 ^ 32)
  if n = 0 then ['0']
  else (Nat.digits 10 n.natAbs).reverse.map fun d => Char.ofNat (if n < 0 then 48 - d else 48 + d)

/-- The version of a logical pathname. -/
def writeVersion : Component → Except Failure (List Char)
  | .null => .ok []
  | .wild => .ok ".*".toList
  | .newest => .ok ".NEWEST".toList
  | .integer n => .ok ('.' :: writeInt n)
  | _ => .error .notText

/-- Whether the version agrees with what a physical namestring says about it. -/
def implicitVersion (x : Pathname) : Bool :=
  if x.name = .null ∧ x.type = .null then x.version = .null else x.version = .newest

/-- The name and the type. -/
def writeFile (x : Pathname) : Except Failure (List Char) := do
  let name ← if x.name = .wild then .ok ['*'] else writeSequence x.name
  if x.type = .null ∨ x.type = .unspecific then return name
  let type ← if x.type = .wild then .ok ['*'] else writeSequence x.type
  return name ++ '.' :: type

/-- ecl_namestring; `truncate` is ECL_NAMESTRING_TRUNCATE_IF_ERROR. -/
def namestring (x : Pathname) (truncate : Bool) : Except Failure (List Char) := do
  let host ← writeHost x truncate
  let directory ← writeDirectory x.logical x.directory
  let colon := if host ++ directory = [] ∧ (':' ∈ x.name.characters ∨ ':' ∈ x.type.characters) then
    [':'] else []
  let file ← writeFile x
  if x.logical then return host ++ directory ++ colon ++ file ++ (← writeVersion x.version)
  if !truncate && !implicitVersion x then .error .unreadable
  return host ++ directory ++ colon ++ file

end Pathname

end Ecl
