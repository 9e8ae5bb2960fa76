import Ecl.Pathname.Namestring
import Ecl.Lib.Except

/- Words without special characters: how they are read and written. -/
namespace Ecl.Pathname

open List

/-- The characters that mean something in a namestring. -/
def special : List Char := [':', '/', '.', '*', ';', '~', '\x00']

/-- A text without special characters. -/
def Plain (text : List Char) : Prop := ∀ c ∈ text, c ∉ special

instance (text : List Char) : Decidable (Plain text) := List.decidableBAll (· ∉ special) text

theorem Plain.ne {text : List Char} (plain : Plain text) {c : Char} (member : c ∈ text) {d : Char}
    (isSpecial : d ∈ special) : c ≠ d := by
  intro same
  subst same
  exact plain c member isSpecial

section Words

variable {delim : Char → Bool} {flags : WordFlags} {word : List Char}

theorem wordLoop_skip (inside : ∀ c ∈ word, delim c = false ∧ validChar flags c = true ∧ c ≠ '*')
    (rest : List Char) : ∀ (previous : Option Char) (i : Nat) (last : Option Nat) (wild : Bool),
      wordLoop delim flags previous i last wild (word ++ rest) =
        wordLoop delim flags (word.getLast?.or previous) (i + word.length) last wild rest := by
  induction word with
  | nil => exact fun _ _ _ _ => rfl
  | cons c word next =>
    intro previous i last wild
    obtain ⟨apart, valid, literal⟩ := inside c mem_cons_self
    rw [cons_append, wordLoop]
    simp only [apart, Bool.false_and, Bool.false_eq_true, if_false, valid, if_true, literal]
    rw [next fun c member => inside c (mem_cons_of_mem _ member), List.getLast?_cons,
      length_cons, Nat.add_right_comm, Nat.add_assoc]
    cases word.getLast? <;> rfl

theorem wordLoop_noDelim (apart : ∀ c ∈ word, delim c = false) :
    ∀ (previous : Option Char) (i : Nat) (last : Option Nat) (wild : Bool),
      wordLoop delim flags previous i last wild word = none ∨
        ∃ wild', wordLoop delim flags previous i last wild word = some (last, wild') := by
  induction word with
  | nil => exact fun _ _ _ wild => .inr ⟨wild, rfl⟩
  | cons c word next =>
    intro previous i last wild
    have notDelim := apart c mem_cons_self
    rw [wordLoop]
    simp only [notDelim, Bool.false_and, Bool.false_eq_true, if_false]
    by_cases valid : validChar flags c = true
    · rw [if_pos valid]
      exact next (fun c member => apart c (mem_cons_of_mem _ member)) _ _ _ _
    · rw [if_neg valid]
      exact .inl rfl

theorem parseWord_noDelim (apart : ∀ c ∈ word, delim c = false)
    (included : flags.includeDelim = true) :
    parseWord delim flags word = (.error, 0) ∨ parseWord delim flags word = (.null, 0) := by
  rw [parseWord]
  obtain failed | ⟨wild', ended⟩ := @wordLoop_noDelim delim flags word apart none 0 none false
  · rw [failed]
    exact .inl rfl
  · rw [ended]
    dsimp only
    rw [if_pos included]
    exact .inr rfl

theorem parseWord_delimited
    (inside : ∀ c ∈ word, delim c = false ∧ validChar flags c = true ∧ c ≠ '*')
    {d : Char} (isDelim : delim d = true) (first : flags.searchLastDot = false)
    (kept : word ≠ [] ∨ flags.allowLeadingDot = false) (rest : List Char) :
    parseWord delim flags (word ++ d :: rest) =
      (wordComponent flags false word, word.length + 1) := by
  rw [parseWord, wordLoop_skip inside, wordLoop, if_neg, if_pos (by rw [isDelim, first]; rfl)]
  · dsimp only
    rw [Nat.zero_add, take_left' rfl]
  · obtain filled | closed := kept
    · have bound := length_pos_iff.mpr filled
      simp only [Bool.and_eq_true, decide_eq_true_eq]
      omega
    · rw [closed, Bool.and_false]
      exact Bool.false_ne_true

theorem parseWord_end (inside : ∀ c ∈ word, delim c = false ∧ validChar flags c = true ∧ c ≠ '*')
    (open' : flags.includeDelim = false) :
    parseWord delim flags word = (wordComponent flags false word, word.length) := by
  have run := wordLoop_skip inside [] none 0 none false
  rw [append_nil] at run
  rw [parseWord, run, wordLoop]
  dsimp only
  rw [open', if_neg Bool.false_ne_true]

theorem wordComponent_literal (filled : word ≠ []) (star : '*' ∉ word) (notUp : word ≠ ['.', '.']) :
    wordComponent flags false word = .string word := by
  have literal {c : Char} (member : c ∈ word) : c ≠ '*' := fun same => star (same ▸ member)
  cases word with
  | nil => exact absurd rfl filled
  | cons c word =>
    cases word with
    | nil => exact if_neg (literal mem_cons_self)
    | cons d word =>
      cases word with
      | nil =>
        rw [wordComponent, if_neg fun both => literal mem_cons_self both.1,
          if_neg fun up => notUp (by rw [up.2.1, up.2.2])]
      | cons e word => rfl

theorem wordComponent_plain (filled : word ≠ []) (plain : Plain word) :
    wordComponent flags false word = .string word := by
  refine wordComponent_literal filled (fun member => plain _ member (by decide)) fun same => ?_
  rw [same] at plain
  exact plain '.' mem_cons_self (by decide)

theorem Plain.inside (plain : Plain word) (apart : ∀ c, c ∉ special → delim c = false) :
    ∀ c ∈ word, delim c = false ∧ validChar flags c = true ∧ c ≠ '*' := by
  intro c member
  have ne {d : Char} (isSpecial : d ∈ special) : c ≠ d := plain.ne member isSpecial
  refine ⟨apart c (plain c member), ?_, ne (by decide)⟩
  rw [validChar, if_neg (ne (by decide))]
  simp [ne (d := ';') (by decide), ne (d := '/') (by decide), ne (d := '\x00') (by decide)]

end Words

/-- A component that is a text without special characters. -/
def Component.IsWord (c : Component) :
    Prop := c.isString = true ∧ c ≠ .string [] ∧ Plain c.characters

instance (c : Component) : Decidable c.IsWord := inferInstanceAs (Decidable (_ ∧ _ ∧ _))

theorem Component.IsWord.exists {c : Component} (word : c.IsWord) :
    ∃ text, c = .string text ∧ text ≠ [] ∧ Plain text := by
  cases c with
  | string text =>
      exact ⟨text, rfl, fun none => word.2.1 (congrArg Component.string none), word.2.2⟩
  | _ => cases word.1

/-- NIL, or a front with words behind it. -/
def PlainDirectory : List Component → Prop
  | [] => True
  | front :: items => (front = .absolute ∨ front = .relative) ∧ ∀ c ∈ items, c.IsWord

/-- The items as they are written. -/
def itemsText (items : List Component) : List Char := items.flatMap fun c => c.characters ++ ['/']

def directoryText : List Component → List Char
  | [] => []
  | front :: items => (if front = .relative then [] else ['/']) ++ itemsText items

section Directories

variable {items : List Component}

theorem isSlash_plain (c : Char) (plain : c ∉ special) : isSlash c = false :=
  decide_eq_false fun same => plain (by rw [same]; decide)

theorem writeItems_words (words : ∀ c ∈ items, c.IsWord) :
    writeItems '/' items = .ok (itemsText items) := by
  induction items with
  | nil => rfl
  | cons item items next =>
    obtain ⟨text, rfl, filled, plain⟩ := (words item mem_cons_self).exists
    rw [writeItems, next fun c member => words c (mem_cons_of_mem _ member)]
    simp [writeItem, writeSequence, itemsText, Component.characters, bind, Except.bind,
      pure, Except.pure]

variable {directory : List Component}

theorem writeDirectory_plain (plain : PlainDirectory directory) :
    writeDirectory false directory = .ok (directoryText directory) := by
  cases directory with
  | nil => rfl
  | cons front items =>
    simp only [writeDirectory, directoryText, Bool.false_eq_true, if_false,
      writeItems_words plain.2]
    rfl

theorem parseDirectory_word {text : List Char} (filled : text ≠ []) (plain : Plain text)
    (rest : List Char) :
    parseDirectory false (text ++ '/' :: rest) = (.string text, text.length + 1) := by
  rw [parseDirectory, if_neg Bool.false_ne_true,
    parseWord_delimited (plain.inside isSlash_plain) rfl rfl
    (.inl filled), wordComponent_plain filled plain]

variable {file : List Char}

theorem directoriesLoop_file (first : Bool) (noSlash : '/' ∉ file) :
    directoriesLoop false first file = .ok ([], file) := by
  have apart : ∀ c ∈ file, isSlash c = false := fun c member =>
    decide_eq_false fun same => noSlash (same ▸ member)
  rw [directoriesLoop]
  by_cases none : file = []
  · rw [if_pos none]
  · rw [if_neg none]
    obtain ended | ended : parseDirectory false file = _ ∨ parseDirectory false file = _ :=
      parseWord_noDelim apart rfl
    all_goals
      rw [ended]
      rfl

theorem directoriesLoop_words (words : ∀ c ∈ items, c.IsWord) (noSlash : '/' ∉ file) :
    ∀ first, directoriesLoop false first (itemsText items ++ file) = .ok (items, file) := by
  induction items with
  | nil => exact fun first => directoriesLoop_file first noSlash
  | cons item items next =>
    intro first
    obtain ⟨text, rfl, filled, plain⟩ := (words item mem_cons_self).exists
    have whole : itemsText (.string text :: items) ++ file = text ++ '/' ::
      (itemsText items ++ file) := by
      simp [itemsText, Component.characters]
    have step := parseDirectory_word filled plain (itemsText items ++ file)
    rw [whole, directoriesLoop, if_neg (by simp), step]
    have rest : (text ++ '/' :: (itemsText items ++ file)).drop (text.length + 1) =
        itemsText items ++ file := by simp
    have notEmpty : Component.string text ≠ .string [] :=
      fun same => filled (Component.string.inj same)
    simp only [reduceCtorEq, or_self, dite_false, notEmpty, false_and, if_false, rest]
    rw [next fun c member => words c (mem_cons_of_mem _ member)]
    rfl

theorem directoriesLoop_absolute (words : ∀ c ∈ items, c.IsWord) (noSlash : '/' ∉ file) :
    directoriesLoop false true ('/' :: (itemsText items ++ file)) =
      .ok (.absolute :: items, file) := by
  have step : parseDirectory false ('/' :: (itemsText items ++ file)) = (.string [], 1) := rfl
  rw [directoriesLoop, if_neg nofun, step]
  simp only [reduceCtorEq, or_self, dite_false, Bool.true_eq_false, and_false, if_false, drop_one,
    tail_cons, if_true, Bool.false_eq_true]
  rw [directoriesLoop_words words noSlash]
  rfl

theorem Component.IsWord.isPlain {c : Component} (word : c.IsWord) : c.isPlain = true := by
  obtain ⟨text, rfl, -, plain⟩ := word.exists
  have dotted {l : List Char} (has : '.' ∈ l) : text ≠ l := by
    intro same
    rw [same] at plain
    exact plain _ has (by decide)
  simp [Component.isPlain, Component.isString, dot, dotDot, dotted (l := ['.']) (by decide),
    dotted (l := ['.', '.']) (by decide)]

theorem checkFrom_words (logical : Bool) (words : ∀ c ∈ items, c.IsWord) :
    ∀ (done : List Component) (i : Nat),
      checkFrom logical none done items i = .finished (done ++ items) := by
  induction items with
  | nil => exact fun done _ => by rw [append_nil, checkFrom]
  | cons item items next =>
    intro done i
    have word := words item mem_cons_self
    have push : checkFrom logical none done (item :: items) i =
        checkFrom logical none (done ++ [item]) items (i + 1) := by
      cases logical with
      | false => exact checkFrom_plain word.isPlain
      | true =>
        obtain ⟨text, rfl, -, -⟩ := word.exists
        simp only [checkFrom, reduceCtorEq, or_self, if_false, Component.isString, if_true]
    rw [push, next fun c member => words c (mem_cons_of_mem _ member), append_assoc]
    rfl

theorem checkedDirectory_plain (plain : PlainDirectory directory)
    (logical : Bool) : checkedDirectory directory logical = .ok directory := by
  cases directory with
  | nil => rfl
  | cons front items =>
    obtain ⟨isFront, words⟩ := plain
    have first : checkFrom logical none [] (front :: items) 0 =
        checkFrom logical none [front] items 1 := by
      obtain rfl | rfl := isFront <;> rfl
    have check :
      destructivelyCheckDirectory (front :: items) logical = .directory (front :: items) := by
      rw [destructivelyCheckDirectory, if_neg (by tauto), passes, first,
        checkFrom_words logical words]
      rfl
    rw [checkedDirectory, check]

/-- A directory that says nothing is read as NIL. -/
def readDirectory (directory : List Component) : List Component :=
  if directory = [.relative] then [] else directory

theorem parseDirectories_plain (plain : PlainDirectory directory) (noSlash : '/' ∉ file) :
    parseDirectories false (directoryText directory ++ file) =
      .ok (readDirectory directory, file) := by
  cases directory with
  | nil =>
    rw [directoryText, nil_append, parseDirectories, directoriesLoop_file true noSlash]
    rfl
  | cons front items =>
    have kept := checkedDirectory_plain plain false
    obtain ⟨rfl | rfl, words⟩ := plain
    · have loop := directoriesLoop_absolute words noSlash
      change parseDirectories false ('/' :: (itemsText items ++ file)) = _
      rw [parseDirectories, loop]
      dsimp only
      rw [if_neg (fun both => both.2 rfl), kept, readDirectory, if_neg nofun]
    · cases items with
      | nil =>
        change parseDirectories false file = _
        rw [parseDirectories, directoriesLoop_file true noSlash]
        rfl
      | cons item items =>
        have loop := directoriesLoop_words words noSlash true
        obtain ⟨text, rfl, -, -⟩ := (words item mem_cons_self).exists
        change parseDirectories false (itemsText (.string text :: items) ++ file) = _
        rw [parseDirectories, loop]
        dsimp only
        rw [if_pos ⟨nofun, nofun⟩, if_neg Bool.false_ne_true, kept, readDirectory, if_neg nofun]

end Directories

structure PlainFile (name type : Component) : Prop where
  nameWord : name = .null ∨ name.IsWord
  typeText : type = .null ∨ type.isString = true ∧ Plain type.characters
  named : name = .null → type = .null

def fileText (name type : Component) : List Char :=
  name.characters ++ if type = .null then [] else '.' :: type.characters

section Files

variable {name type : Component}

theorem PlainFile.cases (plain : PlainFile name type) : (name = .null ∧ type = .null) ∨
    ∃ text, name = .string text ∧ text ≠ [] ∧ Plain text ∧
      (type = .null ∨ ∃ extension, type = .string extension ∧ Plain extension) := by
  obtain empty | word := plain.nameWord
  · exact .inl ⟨empty, plain.named empty⟩
  · obtain ⟨text, rfl, filled, plainName⟩ := word.exists
    refine .inr ⟨text, rfl, filled, plainName, ?_⟩
    obtain none | ⟨string, plainType⟩ := plain.typeText
    · exact .inl none
    · exact .inr ⟨_, Component.isString_iff.mp string, plainType⟩

theorem fileText_noSlash (plain : PlainFile name type) : '/' ∉ fileText name type := by
  have apart {text : List Char} (plain : Plain text) : '/' ∉ text := fun member =>
    plain _ member (by decide)
  obtain ⟨rfl, rfl⟩ | ⟨text, rfl, -, plainName, rfl | ⟨extension, rfl, plainType⟩⟩ := plain.cases
  · exact not_mem_nil
  · simp [fileText, Component.characters, apart plainName]
  · simp [fileText, Component.characters, apart plainName, apart plainType]

theorem writeFile_plain {x : Pathname} (plain : PlainFile x.name x.type) :
    writeFile x = .ok (fileText x.name x.type) := by
  rw [writeFile, fileText]
  obtain ⟨name, type⟩ | ⟨text, name, -, -, type | ⟨extension, type, -⟩⟩ := plain.cases <;>
    rw [name, type] <;>
      simp [writeSequence, Component.characters, bind, Except.bind, pure, Except.pure]

theorem isDot_plain (c : Char) (plain : c ∉ special) : isDot c = false :=
  decide_eq_false fun same => plain (by rw [same]; decide)

theorem isNull_plain (c : Char) (plain : c ∉ special) : isNull c = false :=
  decide_eq_false fun same => plain (by rw [same]; decide)

theorem parseWord_name {text : List Char} (filled : text ≠ []) (plain : Plain text) :
    parseWord isDot nameFlags text = (.string text, text.length) := by
  rw [parseWord_end (plain.inside isDot_plain) rfl, wordComponent_plain filled plain]

theorem parseWord_name_type {text extension : List Char} (filled : text ≠ [])
    (plainName : Plain text)
    (plainType : Plain extension) :
    parseWord isDot nameFlags (text ++ '.' :: extension) = (.string text, text.length + 1) := by
  have bound := length_pos_iff.mpr filled
  have loop : wordLoop isDot nameFlags none 0 none false (text ++ '.' :: extension) =
      some (some text.length, false) := by
    have skip := @wordLoop_skip isDot nameFlags extension (plainType.inside isDot_plain) []
    rw [append_nil] at skip
    rw [wordLoop_skip (plainName.inside isDot_plain), wordLoop, if_neg, if_neg (by decide),
      if_pos (by decide), if_pos (by decide), if_neg (by decide), skip, wordLoop, Nat.zero_add]
    simp only [Bool.and_eq_true, decide_eq_true_eq]
    omega
  rw [parseWord, loop]
  dsimp only
  rw [take_left' rfl, wordComponent_plain filled plainName]

theorem parseWord_type {extension : List Char} (plain : Plain extension) :
    parseWord isNull { allowAsterisk :=
      true } extension = (.string extension, extension.length) := by
  rw [parseWord_end (plain.inside isNull_plain) rfl]
  by_cases empty : extension = []
  · rw [empty]
    rfl
  · rw [wordComponent_plain empty plain]

theorem validWord_string {delim : Char → Bool} {flags : WordFlags} {rest text : List Char} {n : Nat}
    (word : parseWord delim flags rest = (.string text, n)) :
    validWord delim flags rest = .ok (.string text, n) := by
  rw [validWord, word]
  exact if_neg nofun

theorem parsePhysicalFile_plain (plain : PlainFile name type) :
    parsePhysicalFile (fileText name type) = .ok (name, type, []) := by
  change (validWord isDot nameFlags _ >>= _) = _
  obtain ⟨rfl, rfl⟩ | ⟨text, rfl, filled, plainName, rfl | ⟨extension, rfl, plainType⟩⟩ :=
    plain.cases
  · rfl
  · have whole : fileText (.string text) .null = text := append_nil text
    have last : text[text.length - 1]? ≠ some '.' := fun dot =>
      plainName _ (mem_of_getElem? dot) (by decide)
    rw [whole, validWord_string (parseWord_name filled plainName)]
    simp [bind, Except.bind, pure, Except.pure, last]
  · have whole : fileText (.string text) (.string extension) = text ++ '.' :: extension := rfl
    have bound := length_pos_iff.mpr filled
    have rest : (text ++ '.' :: extension).drop (text.length + 1) = extension := by simp
    have dot : (text ++ '.' :: extension)[text.length + 1 - 1]? = some '.' := by simp
    rw [whole, validWord_string (parseWord_name_type filled plainName plainType)]
    change (if text.length + 1 ≤ 1 ∨ _ then _ else _) = _
    rw [if_neg (not_or.mpr ⟨by omega, not_not.mpr dot⟩), rest,
      validWord_string (parseWord_type plainType)]
    simp [bind, Except.bind, pure, Except.pure]

end Files

/-- NIL or a word. -/
def Component.Blank (c : Component) : Prop := c = .null ∨ c.IsWord

/-- All components are NIL or texts without special characters. -/
structure Worded (x : Pathname) : Prop where
  host : x.host.Blank
  device : x.device.Blank
  directory : PlainDirectory x.directory
  file : PlainFile x.name x.type

/-- The device and the host as they are written. -/
def hostText (x : Pathname) : List Char :=
  (if x.device = .null then [] else x.device.characters ++ [':']) ++
    if x.host = .null then []
    else (if x.device = .null then "file:".toList else []) ++ "//".toList ++ x.host.characters

def text (x : Pathname) : List Char :=
  hostText x ++ (directoryText x.directory ++ fileText x.name x.type)

section Hosts

variable {x : Pathname}

theorem Component.Blank.writes {c : Component} (blank : c.Blank) :
    writeSequence c = .ok c.characters := by
  obtain rfl | word := blank
  · rfl
  · obtain ⟨text, rfl, -, -⟩ := word.exists
    rfl

theorem writeHost_plain (physical : x.logical = false) (worded : Worded x) (truncate : Bool) :
    writeHost x truncate = .ok (hostText x) := by
  rw [writeHost, hostText, physical, worded.device.writes, worded.host.writes]
  by_cases noDevice : x.device = .null <;> by_cases noHost : x.host = .null <;>
    simp [noDevice, noHost, bind, Except.bind, pure, Except.pure, Except.map]

theorem namestring_plain (physical : x.logical = false) (worded : Worded x) :
    namestring x true = .ok (text x) := by
  have noColon {c : Component} (plain : Plain c.characters) : ':' ∉ c.characters := fun member =>
    plain _ member (by decide)
  have name : ':' ∉ x.name.characters := by
    obtain ⟨name, -⟩ | ⟨text, name, -, plain, -⟩ := worded.file.cases
    · rw [name]
      exact not_mem_nil
    · rw [name]
      exact noColon plain
  have type : ':' ∉ x.type.characters := by
    obtain none | ⟨-, plain⟩ := worded.file.typeText
    · rw [none]
      exact not_mem_nil
    · exact noColon plain
  have written := writeDirectory_plain worded.directory
  rw [namestring, writeHost_plain physical worded, physical, written, writeFile_plain worded.file]
  simp [bind, Except.bind, pure, Except.pure, name, type, text]

end Hosts

/- Parsing what was printed, and what holds of every pathname that was parsed. -/

open List

variable {session : Session}

theorem isColon_plain (c : Char) (plain : c ∉ special) : isColon c = false :=
  decide_eq_false fun same => plain (by rw [same]; decide)

theorem parseWord_colon (flags : WordFlags) (single : flags.searchLastDot = false)
    (closed : flags.allowLeadingDot = false) {word : List Char} (filled : word ≠ [])
    (plain : Plain word)
    (rest : List Char) :
      parseWord isColon flags (word ++ ':' :: rest) = (.string word, word.length + 1) := by
  rw [parseWord_delimited (plain.inside isColon_plain) rfl single (.inr closed),
    wordComponent_plain filled plain]

/-- The device of a namestring with the word `word` for it. -/
def deviceOf (casing : Casing) (word : List Char) : Component :=
  if casing.stringEqual word "FILE".toList then .null else .string word

theorem parseDeviceAndHost_none {s : List Char} (noColon : ':' ∉ s) :
    session.parseDeviceAndHost s = .ok (.null, .null, s) := by
  have apart : ∀ c ∈ s, isColon c = false := fun c member =>
    decide_eq_false fun same => noColon (same ▸ member)
  rw [Session.parseDeviceAndHost]
  obtain ended | ended : parseWord isColon deviceFlags s = _ ∨
    parseWord isColon deviceFlags s = _ :=
    parseWord_noDelim apart rfl
  all_goals
    rw [ended]
    rfl

section Device

variable {word : List Char}

theorem parseDeviceAndHost_device (filled : word ≠ []) (plain : Plain word) {rest : List Char}
    (noHost : ∀ l, rest ≠ '/' :: '/' :: l) :
    session.parseDeviceAndHost (word ++ ':' :: rest) =
      .ok (deviceOf session.casing word, .null, rest) := by
  have first := parseWord_colon deviceFlags rfl rfl filled plain rest
  have left : (word ++ ':' :: rest).drop (word.length + 1) = rest := by simp
  rw [Session.parseDeviceAndHost, first]
  dsimp only
  rw [left]
  split
  · rename_i l
    exact absurd rfl (noHost l)
  · rfl

theorem parseDeviceAndHost_host (filled : word ≠ []) (plain : Plain word) (rest : List Char) :
    session.parseDeviceAndHost (word ++ ':' :: '/' :: '/' :: rest) =
      (parseHost rest).map fun (host, rest) => (deviceOf session.casing word, host, rest) := by
  have first := parseWord_colon deviceFlags rfl rfl filled plain ('/' :: '/' :: rest)
  have left : (word ++ ':' :: '/' :: '/' :: rest).drop (word.length + 1) = '/' :: '/' ::
    rest := by simp
  rw [Session.parseDeviceAndHost, first]
  dsimp only
  rw [left]
  rfl

end Device

theorem parseHost_word (word : List Char) (filled : word ≠ [])
    (literal : ∀ c ∈ word, c ≠ '/' ∧ c ≠ '*' ∧ c ≠ '\x00') (notUp : word ≠ ['.', '.'])
    {rest : List Char}
    (ended : rest = [] ∨ ∃ l, rest = '/' :: l) :
      parseHost (word ++ rest) = .ok (.string word, rest) := by
  have bound := length_pos_iff.mpr filled
  have inside : ∀ c ∈ word, isSlash c = false ∧
    validChar { emptyIsNil := true } c = true ∧ c ≠ '*' := by
    intro c member
    obtain ⟨slash, star, zero⟩ := literal c member
    refine ⟨decide_eq_false slash, ?_, star⟩
    simp [validChar, star, zero]
  have component : wordComponent { emptyIsNil := true } false word = .string word :=
    wordComponent_literal filled (fun member => (literal _ member).2.1 rfl) notUp
  rw [parseHost]
  obtain rfl | ⟨l, rfl⟩ := ended
  · have last : word[word.length - 1]? ≠ some '/' := fun slash =>
      (literal _ (mem_of_getElem? slash)).1 rfl
    rw [append_nil, parseWord_end inside rfl, component]
    dsimp only
    rw [if_neg last, drop_length]
  · have slash : (word ++ '/' :: l)[word.length + 1 - 1]? = some '/' := by simp
    rw [parseWord_delimited inside rfl rfl (.inl filled), component]
    dsimp only
    rw [if_pos slash]
    simp

theorem parseHost_plain {word : List Char} (filled : word ≠ []) (plain : Plain word)
    {rest : List Char}
    (ended : rest = [] ∨ ∃ l, rest = '/' :: l) :
      parseHost (word ++ rest) = .ok (.string word, rest) := by
  refine parseHost_word word filled
    (fun c member => ⟨plain.ne member (by decide), plain.ne member (by decide),
    plain.ne member (by decide)⟩) (fun same => ?_) ended
  rw [same] at plain
  exact plain '.' mem_cons_self (by decide)

/-- What a host and a device must be for a namestring to say them, behind words. -/
structure Sayable (session : Session) (x : Pathname) : Prop where
  device : x.device ≠ .null → deviceOf session.casing x.device.characters = x.device ∧
    session.logicalHostname x.device = false
  file : x.host ≠ .null → x.device = .null → session.logicalHostname (.string "file".toList) = false

/-- What follows a host starts with a slash or is empty. -/
def Rooted (x : Pathname) : Prop :=
  x.host ≠ .null → x.directory.head? = some .absolute ∨ readDirectory x.directory = [] ∧
    x.name = .null

/-- The namestring behind the host. -/
def fileNamestring (x : Pathname) : List Char := directoryText x.directory ++ fileText x.name x.type

theorem itemsText_apart {d : Char} (isSpecial : d ∈ special) (notSlash : d ≠ '/')
    {items : List Component}
    (words : ∀ c ∈ items, c.IsWord) : d ∉ itemsText items := by
  intro member
  obtain ⟨item, known, here⟩ := mem_flatMap.mp member
  obtain ⟨text, rfl, -, plain⟩ := (words item known).exists
  obtain inside | slash := mem_append.mp here
  · exact plain _ inside isSpecial
  · exact notSlash (mem_singleton.mp slash)

section Texts

variable {x : Pathname}

theorem fileNamestring_apart (worded : Worded x) {d : Char} (isSpecial : d ∈ special)
    (notSlash : d ≠ '/')
    (notDot : d ≠ '.') : d ∉ fileNamestring x := by
  have directory : d ∉ directoryText x.directory := by
    have plain := worded.directory
    cases dir : x.directory with
    | nil => exact not_mem_nil
    | cons front items =>
      rw [dir] at plain
      rw [directoryText, mem_append, not_or]
      refine ⟨?_, itemsText_apart isSpecial notSlash plain.2⟩
      by_cases relative : front = .relative <;> simp [relative, notSlash]
  have file : d ∉ fileText x.name x.type := by
    have apart {text : List Char} (plain : Plain text) : d ∉ text :=
      fun member => plain _ member isSpecial
    obtain ⟨name, type⟩ | ⟨text, name, -, plainName, type | ⟨extension, type, plainType⟩⟩ :=
      worded.file.cases
    · rw [name, type]
      exact not_mem_nil
    · simp [name, type, fileText, Component.characters, apart plainName]
    · simp [name, type, fileText, Component.characters, apart plainName, apart plainType, notDot]
  rw [fileNamestring, mem_append, not_or]
  exact ⟨directory, file⟩

theorem fileNamestring_noColon (worded : Worded x) : ':' ∉ fileNamestring x :=
  fileNamestring_apart worded (by decide) (by decide) (by decide)

theorem fileText_head (worded : Worded x) (l : List Char) :
    fileText x.name x.type ≠ '/' :: l := fun same =>
  fileText_noSlash worded.file (same ▸ mem_cons_self)

theorem fileNamestring_slashes (worded : Worded x) (l : List Char) :
    fileNamestring x ≠ '/' :: '/' :: l := by
  have plain := worded.directory
  rw [fileNamestring]
  cases dir : x.directory with
  | nil => exact fileText_head worded _
  | cons front items =>
    rw [dir] at plain
    have noSlashes (l : List Char) : itemsText items ++ fileText x.name x.type ≠ '/' :: l := by
      intro same
      cases items with
      | nil => exact fileText_head worded _ same
      | cons item items =>
        obtain ⟨text, rfl, filled, plain⟩ := (plain.2 item mem_cons_self).exists
        obtain ⟨c, text, rfl⟩ := exists_cons_of_ne_nil filled
        exact plain.ne mem_cons_self (by decide) (List.cons.inj same).1
    obtain rfl | rfl := plain.1
    · exact fun same => noSlashes l (List.cons.inj same).2
    · exact noSlashes _

theorem fileNamestring_rooted (worded : Worded x) (rooted : Rooted x) (hasHost : x.host ≠ .null) :
    fileNamestring x = [] ∨ ∃ l, fileNamestring x = '/' :: l := by
  have plain := worded.directory
  rw [fileNamestring]
  obtain absolute | ⟨silent, noName⟩ := rooted hasHost
  · obtain ⟨items, dir⟩ := List.head?_eq_some_iff.mp absolute
    rw [dir]
    exact .inr ⟨_, rfl⟩
  · have noFile : fileText x.name x.type = [] := by
      rw [worded.file.named noName, noName]
      rfl
    refine .inl ?_
    rw [noFile, append_nil]
    rw [readDirectory] at silent
    by_cases relative : x.directory = [.relative]
    · rw [relative]
      rfl
    · rw [if_neg relative] at silent
      rw [silent]
      rfl

theorem deviceOf_file (casing : Casing) : deviceOf casing "file".toList = .null := by
  refine if_pos (decide_eq_true ?_)
  simp [casing.standard]

def colonWord (x : Pathname) :
    List Char := if x.device = .null then "file".toList else x.device.characters

theorem colonWord_plain (worded : Worded x) : colonWord x ≠ [] ∧ Plain (colonWord x) := by
  rw [colonWord]
  obtain none | word := worded.device
  · rw [if_pos none]
    decide
  · obtain ⟨text, device, filled, plain⟩ := word.exists
    rw [device, if_neg nofun]
    exact ⟨filled, plain⟩

theorem deviceOf_colonWord (sayable : Sayable session x) :
    deviceOf session.casing (colonWord x) = x.device := by
  rw [colonWord]
  by_cases none : x.device = .null
  · rw [if_pos none, none, deviceOf_file]
  · rw [if_neg none]
    exact (sayable.device none).1

theorem hostText_colon (given : x.device ≠ .null ∨ x.host ≠ .null) :
    hostText x = colonWord x ++ ':' :: if x.host = .null then [] else '/' :: '/' ::
      x.host.characters := by
  rw [hostText, colonWord]
  by_cases noDevice : x.device = .null <;> by_cases noHost : x.host = .null <;>
    simp_all

theorem parseDeviceAndHost_text (worded : Worded x) (sayable : Sayable session x)
    (rooted : Rooted x) :
    session.parseDeviceAndHost (hostText x ++ fileNamestring x) =
      .ok (x.device, x.host, fileNamestring x) := by
  by_cases given : x.device ≠ .null ∨ x.host ≠ .null
  · obtain ⟨filled, plain⟩ := colonWord_plain worded
    rw [hostText_colon given]
    by_cases noHost : x.host = .null
    · rw [if_pos noHost, append_assoc, cons_append, nil_append,
        parseDeviceAndHost_device filled plain (fileNamestring_slashes worded),
          deviceOf_colonWord sayable,
        noHost]
    · obtain ⟨host, isHost, filledHost, plainHost⟩ := (worded.host.resolve_left noHost).exists
      rw [if_neg noHost, append_assoc, cons_append, cons_append, cons_append,
        parseDeviceAndHost_host filled plain, deviceOf_colonWord sayable, isHost,
          Component.characters,
        parseHost_plain filledHost plainHost (fileNamestring_rooted worded rooted noHost)]
      rfl
  · obtain ⟨noDevice, noHost⟩ := not_or.mp given
    rw [not_not] at noDevice noHost
    have none : hostText x = [] := by simp [hostText, noDevice, noHost]
    rw [none, noDevice, noHost]
    exact parseDeviceAndHost_none (fileNamestring_noColon worded)

omit session in
theorem makePathname_plain (session : Session) {host device name type version : Component}
    {directory : List Component}
    (hostBlank : host.Blank) (deviceBlank : device.Blank) (plain : PlainDirectory directory)
    (file : PlainFile name type) (isVersion : version = .null ∨ version = .newest) :
    session.makePathname host device directory name type version =
      if session.logicalHostname host = true ∧ device ≠ .null then .error (.invalid device .device)
      else .ok { logical :=
        session.logicalHostname host, host, device, directory, name, type, version } := by
  have noHost : (!host.isString && host ≠ .null) = false := by
    obtain rfl | word := hostBlank
    · rfl
    · simp [word.1]
  have noName : (name ≠ .null && name ≠ .wild && !name.isString) = false := by
    obtain rfl | word := file.nameWord
    · rfl
    · simp [word.1]
  have noType : (type ≠ .null && type ≠ .unspecific && type ≠ .wild && !type.isString) = false := by
    obtain rfl | string := file.typeText
    · rfl
    · simp [string.1]
  have noVersion :
    (version ≠ .unspecific && version ≠ .newest && version ≠ .wild && version ≠ .null &&
      !session.isFixnum version) = false := by
    obtain rfl | rfl := isVersion <;> rfl
  have isDevice : (device ≠ .null && device ≠ .unspecific &&
      !(!session.logicalHostname host && device.isString)) =
        (session.logicalHostname host = true ∧ device ≠ .null : Bool) := by
    obtain rfl | word := deviceBlank
    · simp
    · obtain ⟨text, rfl, -, -⟩ := word.exists
      simp [Component.isString]
  rw [Session.makePathname]
  simp only [noHost, noName, noType, noVersion, isDevice, Bool.false_eq_true, if_false,
    decide_eq_true_eq,
    checkedDirectory_plain plain]
  rfl

omit session in
theorem tildeExpand_plain (session : Session) {x : Pathname} (plain : PlainDirectory x.directory) :
    session.tildeExpand x = .ok x := by
  rw [Session.tildeExpand]
  by_cases given : (x.logical || x.host ≠ .null || x.device ≠ .null) = true
  · rw [if_pos given]
  · rw [if_neg given]
    split
    · rename_i user rest dir
      rw [dir] at plain
      have word := plain.2 _ mem_cons_self
      exact absurd (by decide) (word.2.2 '~' mem_cons_self)
    · rfl

def reread (x : Pathname) : Pathname :=
  { x with
    logical := false
    directory := readDirectory x.directory
    version := impliedVersion x.name x.type }

theorem readDirectory_plain {directory : List Component} (plain : PlainDirectory directory) :
    PlainDirectory (readDirectory directory) := by
  rw [readDirectory]
  by_cases silent : directory = [.relative]
  · rw [if_pos silent]
    trivial
  · rw [if_neg silent]
    exact plain

theorem parsePhysical_text (worded : Worded x) (sayable : Sayable session x) (rooted : Rooted x)
    (valid : session.logicalHostname x.host = true → x.device = .null) :
    session.parsePhysical (text x) = .ok (reread x, []) := by
  have made : session.makePathname x.host x.device (readDirectory x.directory) x.name x.type
      (impliedVersion x.name x.type) = .ok { reread x with
        logical := session.logicalHostname x.host } := by
    have isVersion : impliedVersion x.name x.type = .null ∨
      impliedVersion x.name x.type = .newest := by
      rw [impliedVersion]
      split
      · exact .inr rfl
      · exact .inl rfl
    rw [makePathname_plain session worded.host worded.device
      (readDirectory_plain worded.directory) worded.file
      isVersion, if_neg fun both => both.2 (valid both.1)]
    rfl
  have kept : session.tildeExpand { reread x with logical := false } = .ok (reread x) :=
    tildeExpand_plain session (readDirectory_plain worded.directory)
  have dirs := parseDirectories_plain worded.directory (fileText_noSlash worded.file)
  rw [Session.parsePhysical, text]
  change (session.parseDeviceAndHost (hostText x ++ fileNamestring x) >>= _) = _
  rw [parseDeviceAndHost_text worded sayable rooted]
  simp only [bind, Except.bind, fileNamestring, dirs,
    parsePhysicalFile_plain worded.file, made, kept]
  rfl

theorem parsePhysical_nil (session : Session) (defaultHost : Component) :
    session.parsePhysical [] = session.parseNamestring [] defaultHost := by
  have noHost : session.parseDeviceAndHost [] = .ok (.null, .null, []) :=
    parseDeviceAndHost_none not_mem_nil
  have noDirectory : parseDirectories false [] = .ok ([], []) := by
    rw [parseDirectories, directoriesLoop_file true not_mem_nil]
    rfl
  have noFile : parsePhysicalFile [] = .ok (.null, .null, []) := rfl
  simp only [Session.parsePhysical, noHost, Lib.ok_bind, noDirectory, noFile]
  rfl

variable {defaultHost : Component}

theorem namestringHost_physical {s : List Char}
    (physical : session.logicalHostname defaultHost = false)
    (word : session.logicalHostname (parseWord isColon hostFlags s).1 = false) :
    session.logicalHostname (namestringHost s defaultHost).1 = false := by
  rw [namestringHost]
  dsimp only
  split
  · exact physical
  · exact word

theorem parseNamestring_physical {s : List Char}
    (physical : session.logicalHostname (namestringHost s defaultHost).1 = false) :
    session.parseNamestring s defaultHost = session.parsePhysical s := by
  by_cases empty : s = []
  · rw [empty]
    exact (parsePhysical_nil session defaultHost).symm
  · rw [Session.parseNamestring, if_neg empty]
    dsimp only
    rw [physical]
    rfl

/-- The word in front of the first colon of a printed pathname is not a logical host. -/
theorem text_noLogicalHost (worded : Worded x) (sayable : Sayable session x) :
    session.logicalHostname (parseWord isColon hostFlags (text x)).1 = false := by
  by_cases given : x.device ≠ .null ∨ x.host ≠ .null
  · obtain ⟨filled, plain⟩ := colonWord_plain worded
    rw [text, hostText_colon given, append_assoc, cons_append,
      parseWord_colon hostFlags rfl rfl filled plain,
      colonWord]
    by_cases noDevice : x.device = .null
    · rw [if_pos noDevice]
      exact sayable.file (given.resolve_left (not_not.mpr noDevice)) noDevice
    · rw [if_neg noDevice]
      obtain ⟨word, device, -, -⟩ := (worded.device.resolve_left noDevice).exists
      have other := (sayable.device noDevice).2
      rw [device] at other ⊢
      exact other
  · obtain ⟨noDevice, noHost⟩ := not_or.mp given
    rw [not_not] at noDevice noHost
    have none : hostText x = [] := by simp [hostText, noDevice, noHost]
    have apart : ∀ c ∈ fileNamestring x, isColon c = false := fun c member =>
      decide_eq_false fun same => fileNamestring_noColon worded (same ▸ member)
    change session.logicalHostname
      (parseWord isColon hostFlags (hostText x ++ fileNamestring x)).1 = false
    rw [none, nil_append]
    obtain ended | ended : parseWord isColon hostFlags (fileNamestring x) = _ ∨
        parseWord isColon hostFlags (fileNamestring x) = _ := parseWord_noDelim apart rfl
    all_goals
      rw [ended]
      rfl

/-- A printed pathname is read back, but for a directory and a version that are not printed. -/
theorem parse_text (worded : Worded x) (sayable : Sayable session x) (rooted : Rooted x)
    (valid : session.logicalHostname x.host = true → x.device = .null)
    (physical : session.logicalHostname defaultHost = false) :
    session.parse (text x) defaultHost = .ok (reread x) := by
  rw [Session.parse,
    parseNamestring_physical (namestringHost_physical physical (text_noLogicalHost worded sayable)),
    parsePhysical_text worded sayable rooted valid]
  rfl

end Texts

end Ecl.Pathname
