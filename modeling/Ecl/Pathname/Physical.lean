import Ecl.Pathname.Parsed

/- What holds of every pathname that was parsed from a physical namestring. -/
namespace Ecl.Pathname

open List

variable {session : Session}

section Words

variable {delim : Char → Bool} {flags : WordFlags}

theorem wordLoop_last (rest : List Char) :
    ∀ {previous : Option Char} {i k : Nat} {last : Option Nat}
    {wild wild' : Bool}, wordLoop delim flags previous i last wild rest = some (some k, wild') →
      last = some k ∨ i ≤ k ∧ ∃ c, rest[k - i]? = some c ∧ delim c = true := by
  induction rest with
  | nil =>
    intro previous i k last wild wild' loop
    rw [wordLoop, Option.some.injEq, Prod.mk.injEq] at loop
    exact .inl loop.1
  | cons c rest next =>
    intro previous i k last wild wild' loop
    have later : (∃ k', i + 1 ≤ k ∧ k' = k ∧ ∃ d, rest[k - (i + 1)]? = some d ∧ delim d = true) →
        i ≤ k ∧ ∃ d, (c :: rest)[k - i]? = some d ∧ delim d = true := by
      rintro ⟨_, low, -, d, found, isDelim⟩
      refine ⟨by omega, d, ?_, isDelim⟩
      rw [show k - i = k - (i + 1) + 1 by omega, List.getElem?_cons_succ]
      exact found
    rw [wordLoop] at loop
    split at loop
    · obtain before | after := next loop
      · exact .inl before
      · exact .inr (later ⟨k, after.1, rfl, after.2⟩)
    · split at loop
      · rename_i here
        rw [Option.some.injEq, Prod.mk.injEq, Option.some.injEq] at loop
        simp only [Bool.and_eq_true] at here
        refine .inr ⟨by omega, c, ?_, here.1⟩
        rw [loop.1, Nat.sub_self, List.getElem?_cons_zero]
      · split at loop
        · obtain before | after := next loop
          · by_cases isDelim : delim c = true
            · rw [if_pos isDelim, Option.some.injEq] at before
              refine .inr ⟨by omega, c, ?_, isDelim⟩
              rw [before, Nat.sub_self, List.getElem?_cons_zero]
            · rw [if_neg isDelim] at before
              exact .inl before
          · exact .inr (later ⟨k, after.1, rfl, after.2⟩)
        · cases loop

theorem wordLoop_first (single : flags.searchLastDot = false)
    (closed : flags.allowLeadingDot = false)
    (rest : List Char) : ∀ {previous : Option Char} {i k : Nat} {wild wild' : Bool},
      wordLoop delim flags previous i none wild rest = some (some k, wild') →
        ∃ word d tail, rest = word ++ d :: tail ∧ k = i + word.length ∧ delim d = true ∧
          ∀ c ∈ word, delim c = false ∧ validChar flags c = true := by
  induction rest with
  | nil =>
    intro previous i k wild wild' loop
    cases loop
  | cons c rest next =>
    intro previous i k wild wild' loop
    rw [wordLoop, closed, Bool.and_false, if_neg Bool.false_ne_true, single, Bool.not_false,
      Bool.and_true] at loop
    by_cases isDelim : delim c = true
    · rw [if_pos isDelim, Option.some.injEq, Prod.mk.injEq, Option.some.injEq] at loop
      exact ⟨[], c, rest, rfl, loop.1.symm, isDelim, fun _ never => by cases never⟩
    · rw [if_neg isDelim] at loop
      split at loop
      · rename_i valid
        obtain ⟨word, d, tail, rfl, place, last, inside⟩ := next loop
        refine ⟨c ::
          word, d, tail, rfl, by rw [place, length_cons]; omega, last, fun x member => ?_⟩
        obtain rfl | member := mem_cons.mp member
        · exact ⟨Bool.eq_false_iff.mpr isDelim, valid⟩
        · exact inside x member
      · cases loop

theorem wordComponent_string {wild : Bool} {word text : List Char}
    (string : wordComponent flags wild word = .string text) :
    word = text ∧ (flags.emptyIsNil = true → word ≠ []) ∧
      (flags.logical = false → word ≠ ['.', '.']) := by
  cases word with
  | nil =>
    rw [wordComponent] at string
    split at string
    · cases string
    · rename_i keeps
      cases string
      exact ⟨rfl, fun isNil => absurd isNil keeps, fun _ same => by cases same⟩
  | cons c word =>
    cases word with
    | nil =>
      rw [wordComponent] at string
      split at string
      · cases string
      · cases string
        exact ⟨rfl, fun _ => cons_ne_nil _ _, fun _ same => by cases same⟩
    | cons d word =>
      cases word with
      | nil =>
        rw [wordComponent] at string
        split at string
        · cases string
        · split at string
          · cases string
          · rename_i notUp
            cases string
            refine ⟨rfl, fun _ => cons_ne_nil _ _, fun physical same => notUp ⟨physical, ?_⟩⟩
            cases same
            exact ⟨rfl, rfl⟩
      | cons e word =>
        rw [wordComponent.eq_def] at string
        dsimp only at string
        split at string
        · cases string
        · cases string
          exact ⟨rfl, fun _ => cons_ne_nil _ _, fun _ same => by cases same⟩

theorem wordComponent_null {wild : Bool} {word : List Char}
    (none : wordComponent flags wild word = .null) : word = [] := by
  cases word with
  | nil => rfl
  | cons c word =>
    cases word with
    | nil =>
      rw [wordComponent] at none
      split at none <;> cases none
    | cons d word =>
      cases word with
      | nil =>
        rw [wordComponent] at none
        split at none
        · cases none
        · split at none <;> cases none
      | cons e word =>
        rw [wordComponent.eq_def] at none
        dsimp only at none
        split at none <;> cases none

theorem parseWord_string {rest text : List Char} {n : Nat}
    (word : parseWord delim flags rest = (.string text, n)) : ∀ c ∈ text, c ∈ rest := by
  rw [parseWord] at word
  split at word
  · cases word
  · rw [Prod.mk.injEq] at word
    rw [← (wordComponent_string word.1).1]
    exact fun c member => mem_of_mem_take member
  · split at word
    · cases word
    · rw [Prod.mk.injEq] at word
      rw [← (wordComponent_string word.1).1]
      exact fun c member => member

end Words

variable {s word : List Char}

theorem parseWord_device {n : Nat} (device : parseWord isColon deviceFlags s = (.string word, n)) :
    (∃ tail, s = word ++ ':' :: tail) ∧ word ≠ [] ∧ word ≠ ['.', '.'] ∧
      ∀ c ∈ word, c ≠ ':' ∧ c ≠ '*' ∧ c ≠ '\x00' := by
  rw [parseWord] at device
  split at device
  · cases device
  · rename_i k wild loop
    rw [Prod.mk.injEq] at device
    obtain ⟨whole, d, tail, rfl, place, colon, inside⟩ := wordLoop_first rfl rfl s loop
    obtain ⟨same, filled, notUp⟩ := wordComponent_string device.1
    rw [place, Nat.zero_add, take_left' rfl] at same
    rw [place, Nat.zero_add, take_left' rfl] at filled notUp
    subst same
    have isColon : d = ':' := of_decide_eq_true colon
    subst isColon
    refine ⟨⟨tail, rfl⟩, filled rfl, notUp rfl, fun c member => ?_⟩
    obtain ⟨notColon, valid⟩ := inside c member
    refine ⟨of_decide_eq_false notColon, ?_, ?_⟩
    all_goals
      intro same
      subst same
      revert valid
      decide
  · cases device

theorem parseWord_host {n : Nat}
    (device : parseWord isColon deviceFlags s = (.string word, n)) (semicolon : ';' ∉ word) :
    (parseWord isColon hostFlags s).1 = .string word := by
  obtain ⟨⟨tail, rfl⟩, filled, notUp, inside⟩ := parseWord_device device
  have valid : ∀ c ∈ word, isColon c = false ∧ validChar hostFlags c = true ∧ c ≠ '*' := by
    intro c member
    obtain ⟨colon, star, zero⟩ := inside c member
    have other : c ≠ ';' := fun same => semicolon (same ▸ member)
    refine ⟨decide_eq_false colon, ?_, star⟩
    simp [validChar, hostFlags, star, zero, other]
  rw [parseWord_delimited valid rfl rfl (.inl filled)]
  exact wordComponent_literal filled (fun member => (inside _ member).2.1 rfl) notUp

variable {rest left : List Char} {host : Component}

theorem parseHost_rooted (parsed : parseHost rest = .ok (host, left)) (hasHost : host ≠ .null) :
    left = [] ∨ ∃ l, left = '/' :: l := by
  rw [parseHost] at parsed
  split at parsed
  · cases parsed
    exact absurd rfl hasHost
  · cases parsed
    exact absurd rfl hasHost
  · rename_i word n read
    cases parsed
    by_cases slash : rest[n - 1]? = some '/'
    · rw [if_pos slash]
      exact .inr ⟨_, drop_of_getElem? slash⟩
    · rw [if_neg slash]
      left
      rw [parseWord] at read
      split at read
      · cases read
      · rename_i k wild loop
        rw [Prod.mk.injEq] at read
        obtain never | ⟨-, c, found, isDelim⟩ := wordLoop_last rest loop
        · cases never
        · have isSlash : c = '/' := of_decide_eq_true isDelim
          rw [isSlash] at found
          rw [← read.2] at slash
          exact absurd found slash
      · rw [if_neg Bool.false_ne_true, Prod.mk.injEq] at read
        rw [← read.2, drop_length]
  · cases parsed

theorem parseHost_cases (parsed : parseHost rest = .ok (host, left)) :
    (host = .null ∧ ∀ c ∈ left, c ∈ rest) ∨
      host.isString = true ∧ (left = [] ∨ ∃ l, left = '/' :: l) := by
  by_cases noHost : host = .null
  · refine .inl ⟨noHost, ?_⟩
    subst noHost
    rw [parseHost] at parsed
    split at parsed
    · cases parsed
      exact fun c member => mem_of_mem_drop member
    · cases parsed
      exact fun c member => mem_of_mem_drop member
    · cases parsed
    · cases parsed
  · refine .inr ⟨?_, parseHost_rooted parsed noHost⟩
    rw [parseHost] at parsed
    split at parsed
    · cases parsed
      exact absurd rfl noHost
    · cases parsed
      exact absurd rfl noHost
    · cases parsed
      rfl
    · cases parsed

theorem parseDeviceAndHost_cases {device : Component}
    (parsed : session.parseDeviceAndHost s = .ok (device, host, left)) :
    (device = .null ∧ host = .null ∧ ∀ c ∈ left, c ∈ s) ∨
      ∃ word n, parseWord isColon deviceFlags s = (.string word, n) ∧
        device = deviceOf session.casing word ∧
        ((host = .null ∧ ∀ c ∈ left, c ∈ s) ∨
          host.isString = true ∧ (left = [] ∨ ∃ l, left = '/' :: l)) := by
  rw [Session.parseDeviceAndHost] at parsed
  split at parsed
  · cases parsed
    exact .inl ⟨rfl, rfl, fun c member => mem_of_mem_drop member⟩
  · cases parsed
    exact .inl ⟨rfl, rfl, fun c member => mem_of_mem_drop member⟩
  · rename_i word n read
    refine .inr ⟨word, n, read, ?_⟩
    dsimp only at parsed
    split at parsed
    · rename_i rest found
      cases afterwards : parseHost rest with
      | error failure =>
        rw [afterwards] at parsed
        cases parsed
      | ok result =>
        rw [afterwards] at parsed
        cases parsed
        refine ⟨rfl, (parseHost_cases afterwards).imp_left fun host => ⟨host.1, ?_⟩⟩
        intro c member
        refine mem_of_mem_drop (i := n) ?_
        rw [found]
        exact mem_cons_of_mem _ (mem_cons_of_mem _ (host.2 c member))
    · cases parsed
      exact ⟨rfl, .inl ⟨rfl, fun c member => mem_of_mem_drop member⟩⟩
  · cases parsed

/-- The strings among the parts of a directory are made of the characters of the namestring. -/
theorem directoriesLoop_strings (rest : List Char) :
    ∀ {logical first : Bool} {parts : List Component}
    {left : List Char}, directoriesLoop logical first rest = .ok (parts, left) →
      ∀ text, .string text ∈ parts → ∀ c ∈ text, c ∈ rest := by
  induction rest using WellFounded.induction (measure (List.length (α := Char))).wf with
  | _ rest next =>
    intro logical first parts left loop text known c member
    rw [directoriesLoop] at loop
    split at loop
    · cases loop
      cases known
    · rename_i filled
      dsimp only at loop
      split at loop
      · cases loop
        cases known
      · rename_i valid
        have shorter : (rest.drop (parseDirectory logical rest).2).length < rest.length := by
          have bound : 0 < rest.length := length_pos_iff.mpr filled
          have taken := parseWord_taken (if logical then isSemicolon else isSlash)
            { logical := logical, includeDelim := true, allowAsterisk := true } rest rfl
          rw [← parseDirectory] at taken
          rw [length_drop]
          grind
        split at loop
        · split at loop
          · cases loop
          · exact mem_of_mem_drop (next _ shorter loop text known c member)
        · cases loop' : directoriesLoop logical false
              (rest.drop (parseDirectory logical rest).2) with
          | error => rw [loop'] at loop; cases loop
          | ok result =>
          rw [loop'] at loop
          cases loop
          obtain here | later := mem_cons.mp known
          · by_cases empty : (parseDirectory logical rest).1 = .string []
            · rw [if_pos empty] at here
              cases logical <;> cases here
            · rw [if_neg empty] at here
              exact parseWord_string (Prod.ext here.symm rfl) c member
          · exact mem_of_mem_drop (next _ shorter loop' text later c member)

theorem checkedDirectory_items {directory l : List Component} {logical : Bool}
    (checked : checkedDirectory directory logical = .ok l) :
    l.head? = directory.head? ∧ ∀ c ∈ l, c ∈ directory ∨ c = .back := by
  have unchanged : l = directory → l.head? = directory.head? ∧ ∀ c ∈ l, c ∈ directory ∨
    c = .back := by
    intro same
    subst same
    exact ⟨rfl, fun c member => .inl member⟩
  rw [checkedDirectory] at checked
  split at checked
  · rename_i l' check
    cases checked
    cases directory with
    | nil => cases check
    | cons front items =>
      rw [destructivelyCheckDirectory] at check
      split at check
      · cases check
      · obtain ⟨head, inside⟩ := passes_items _ (by tauto) check
        refine ⟨head, fun c member => ?_⟩
        obtain same | later | back := inside c member
        · exact .inl (same ▸ mem_cons_self)
        · exact .inl (mem_cons_of_mem _ later)
        · exact .inr back
  · exact unchanged (Except.ok.inj checked).symm
  · exact unchanged (Except.ok.inj checked).symm
  all_goals cases checked

theorem parseDirectories_strings {path : List Component}
    (parsed : parseDirectories false rest = .ok (path, left)) {text : List Char}
    (known : .string text ∈ path) : ∀ c ∈ text, c ∈ rest := by
  rw [parseDirectories] at parsed
  cases loop : directoriesLoop false true rest with
  | error =>
    rw [loop] at parsed
    cases parsed
  | ok result =>
    obtain ⟨parts, left'⟩ := result
    rw [loop] at parsed
    have strings := directoriesLoop_strings rest loop text
    cases parts with
    | nil =>
      cases parsed
      cases known
    | cons front parts =>
      dsimp only at parsed
      split at parsed
      · cases parsed
      · cases parsed
      · rename_i l checked
        cases parsed
        refine strings ?_
        obtain inside | back := (checkedDirectory_items checked).2 _ known
        · split at inside
          · exact (mem_cons.mp inside).resolve_left fun never => by cases never
          · exact inside
        · cases back

theorem parseDirectories_rooted {path : List Component}
    (parsed : parseDirectories false rest = .ok (path, left))
    (rooted : rest = [] ∨ ∃ l, rest = '/' :: l) :
    path.head? = some .absolute ∨ path = [] ∧ left = [] := by
  rw [parseDirectories] at parsed
  obtain rfl | ⟨l, rfl⟩ := rooted
  · rw [directoriesLoop_file true not_mem_nil] at parsed
    cases parsed
    exact .inr ⟨rfl, rfl⟩
  · have step : parseDirectory false ('/' :: l) = (.string [], 1) := rfl
    have loop : directoriesLoop false true ('/' :: l) =
        (directoriesLoop false false l).map fun result => (.absolute :: result.1, result.2) := by
      rw [directoriesLoop, if_neg (by simp), step]
      simp only [reduceCtorEq, or_self, dite_false, Bool.true_eq_false, and_false,
        if_false, drop_one,
        tail_cons, if_true, Bool.false_eq_true]
    rw [loop] at parsed
    cases after : directoriesLoop false false l with
    | error =>
      rw [after] at parsed
      cases parsed
    | ok result =>
      obtain ⟨parts, left'⟩ := result
      rw [after] at parsed
      simp only [Except.map] at parsed
      rw [if_neg fun both => both.2 rfl] at parsed
      split at parsed
      · cases parsed
      · cases parsed
      · rename_i checked
        cases parsed
        exact .inl (checkedDirectory_items checked).1

theorem parsePhysicalFile_named {name type : Component}
    (parsed : parsePhysicalFile rest = .ok (name, type, left)) (noName : name = .null) :
      type = .null := by
  rw [parsePhysicalFile] at parsed
  obtain ⟨⟨word, n⟩, read, parsed⟩ := Lib.bind_eq_ok.mp parsed
  dsimp only at parsed
  by_cases alone : n ≤ 1 ∨ rest[n - 1]? ≠ some '.'
  · rw [if_pos alone] at parsed
    cases parsed
    rfl
  · rw [if_neg alone] at parsed
    obtain ⟨⟨extension, m⟩, -, parsed⟩ := Lib.bind_eq_ok.mp parsed
    cases parsed
    obtain ⟨long, dot⟩ := not_or.mp alone
    rw [not_not] at dot
    have filled : rest ≠ [] := fun none => by simp [none] at dot
    rw [validWord] at read
    dsimp only at read
    split at read
    · cases read
    · rw [noName, Except.ok.injEq, parseWord] at read
      split at read
      · cases read
      · rw [Prod.mk.injEq] at read
        obtain start | never := take_eq_nil_iff.mp (wordComponent_null read.1)
        · omega
        · exact absurd never filled
      · rw [if_neg (by decide), Prod.mk.injEq] at read
        exact absurd (wordComponent_null read.1) filled

variable {x : Pathname}

theorem makePathname_ok {device name type version : Component} {directory : List Component}
    (made : session.makePathname host device directory name type version = .ok x) :
    ∃ l, checkedDirectory directory (session.logicalHostname host) = .ok l ∧
      x =
        { logical := session.logicalHostname host, host, device, directory := l, name, type,
          version } ∧
      (session.logicalHostname host = true → device.isString = false) := by
  rw [Session.makePathname] at made
  split at made
  · cases made
  · split at made
    · cases made
    · rename_i validDevice
      split at made
      · cases made
      · split at made
        · cases made
        · split at made
          · cases made
          · cases checked : checkedDirectory directory (session.logicalHostname host) with
            | error failure =>
              rw [checked] at made
              cases made
            | ok l =>
              rw [checked] at made
              cases made
              refine ⟨l, rfl, rfl, fun isLogical => Bool.eq_false_iff.mpr fun string =>
                validDevice ?_⟩
              rw [isLogical]
              cases device <;> simp_all [Component.isString]

/-- What holds of a pathname from a physical namestring. -/
structure FromPhysical (session : Session) (p : Pathname) : Prop where
  physical : p.logical = false
  named : p.name = .null → p.type = .null
  version : p.version = impliedVersion p.name p.type
  rooted : p.host ≠ .null → p.directory.head? = some .absolute ∨ p.directory = [] ∧ p.name = .null
  sayable : p.device.Blank → Sayable session p
  valid : session.logicalHostname p.host = true → p.device = .null

theorem tildeExpand_logical (logical : x.logical = true) : session.tildeExpand x = .ok x := by
  rw [Session.tildeExpand, logical]
  rfl

theorem parseLogical_ok {before : Option Char} {q : Pathname}
    (parsed : session.parseLogical host before rest = .ok (q, left)) :
    q.logical = true ∧ q.device = .unspecific ∧ q.host = host := by
  rw [Session.parseLogical] at parsed
  split at parsed
  · obtain ⟨⟨name, type, version, rest''⟩, -, parsed⟩ := Lib.bind_eq_ok.mp parsed
    obtain ⟨m, -, parsed⟩ := Lib.bind_eq_ok.mp parsed
    cases parsed
  · cases parsed
  obtain ⟨⟨name, type, version, rest''⟩, -, parsed⟩ := Lib.bind_eq_ok.mp parsed
  obtain ⟨m, made, parsed⟩ := Lib.bind_eq_ok.mp parsed
  obtain ⟨q', expanded, parsed⟩ := Lib.bind_eq_ok.mp parsed
  obtain ⟨l, -, rfl, -⟩ := makePathname_ok made
  cases parsed
  rw [tildeExpand_logical rfl] at expanded
  cases expanded
  exact ⟨rfl, rfl, rfl⟩

theorem upcase_file (casing : Casing) : "FILE".toList.map casing.upcase = "FILE".toList := by
  simp [casing.standard]

theorem logicalHostname_congr {a b : List Char} (same : session.casing.stringEqual a b = true) :
    session.logicalHostname (.string a) = session.logicalHostname (.string b) := by
  have upcased : a.map session.casing.upcase = b.map session.casing.upcase := of_decide_eq_true same
  have sameTest : session.casing.stringEqual a = session.casing.stringEqual b := by
    funext c
    rw [Casing.stringEqual, Casing.stringEqual, upcased]
  rw [Session.logicalHostname, Session.logicalHostname, Component.characters,
    Component.characters, sameTest]
  rfl

theorem file_noSemicolon {casing : Casing}
    (file : casing.stringEqual word "FILE".toList = true) : ';' ∉ word := by
  intro member
  have upcased : word.map casing.upcase = "FILE".toList.map casing.upcase := of_decide_eq_true file
  have here : casing.upcase ';' ∈ word.map casing.upcase := mem_map_of_mem member
  rw [upcased, upcase_file, casing.standard ';' (by decide)] at here
  revert here
  decide

theorem stringEqual_file (casing : Casing) :
    casing.stringEqual "file".toList "FILE".toList = true :=
  decide_eq_true (by simp [casing.standard])

theorem tildeExpand_noTilde (noTilde : '~' ∉ s) {y : Pathname}
    (strings : x.host = .null → x.device = .null → ∀ text, .string text ∈ x.directory →
      ∀ c ∈ text, c ∈ s)
    (expanded : session.tildeExpand x = .ok y) : y = x := by
  rw [Session.tildeExpand] at expanded
  split at expanded
  · exact (Except.ok.inj expanded).symm
  · rename_i bare
    simp only [Bool.or_eq_true, decide_eq_true_eq, not_or, not_not] at bare
    split at expanded
    · rename_i user rest dir
      refine absurd (strings bare.1.2 bare.2 ('~' :: user) ?_ '~' mem_cons_self) noTilde
      rw [dir]
      exact mem_cons_of_mem _ mem_cons_self
    · exact (Except.ok.inj expanded).symm

theorem parsePhysical_fromPhysical {p : Pathname}
    (parsed : session.parsePhysical s = .ok (p, left)) (noTilde : '~' ∉ s)
    (word : ∀ w, (parseWord isColon hostFlags s).1 = .string w →
      session.logicalHostname (.string w) = false) :
    FromPhysical session p := by
  rw [Session.parsePhysical] at parsed
  obtain ⟨⟨device, host, rest⟩, readHost, parsed⟩ := Lib.bind_eq_ok.mp parsed
  obtain ⟨⟨path, file⟩, readPath, parsed⟩ := Lib.bind_eq_ok.mp parsed
  obtain ⟨⟨name, type, left'⟩, readFile, parsed⟩ := Lib.bind_eq_ok.mp parsed
  obtain ⟨m, made, parsed⟩ := Lib.bind_eq_ok.mp parsed
  obtain ⟨q, expanded, parsed⟩ := Lib.bind_eq_ok.mp parsed
  cases parsed
  obtain ⟨l, checked, rfl, validDevice⟩ := makePathname_ok made
  obtain ⟨head, inside⟩ := checkedDirectory_items checked
  have cases' := parseDeviceAndHost_cases readHost
  have same := tildeExpand_noTilde noTilde (fun noHost noDevice text known c member => ?_) expanded
  · subst same
    refine ⟨rfl, parsePhysicalFile_named readFile, rfl, fun hasHost => ?_, fun blank => ?_,
      fun isLogical => ?_⟩
    · obtain ⟨-, noHost, -⟩ | ⟨w, n, -, -, ⟨noHost, -⟩ | ⟨-, rooted⟩⟩ := cases'
      · exact absurd noHost hasHost
      · exact absurd noHost hasHost
      · obtain absolute | ⟨rfl, rfl⟩ := parseDirectories_rooted readPath rooted
        · exact .inl (head.trans absolute)
        · refine .inr ⟨List.head?_eq_none_iff.mp head, ?_⟩
          cases readFile
          rfl
    · refine ⟨fun given => ?_, fun hasHost noDevice => ?_⟩
      · obtain ⟨noDevice, -⟩ | ⟨w, n, read, isDevice, -⟩ := cases'
        · exact absurd noDevice given
        by_cases file : session.casing.stringEqual w "FILE".toList = true
        · rw [deviceOf, if_pos file] at isDevice
          exact absurd isDevice given
        rw [deviceOf, if_neg file] at isDevice
        subst isDevice
        obtain ⟨-, -, plain⟩ := blank.resolve_left fun never => by cases never
        exact ⟨if_neg file, word w (parseWord_host read fun member => plain _ member (by decide))⟩
      · obtain ⟨-, noHost, -⟩ | ⟨w, n, read, isDevice, -⟩ := cases'
        · exact absurd noHost hasHost
        by_cases file : session.casing.stringEqual w "FILE".toList = true
        · have same : session.casing.stringEqual "file".toList w = true :=
            decide_eq_true ((of_decide_eq_true (stringEqual_file session.casing)).trans
              (of_decide_eq_true file).symm)
          rw [logicalHostname_congr same]
          exact word w (parseWord_host read (file_noSemicolon file))
        · rw [deviceOf, if_neg file] at isDevice
          rw [isDevice] at noDevice
          cases noDevice
    · obtain ⟨noDevice, -⟩ | ⟨w, n, -, isDevice, -⟩ := cases'
      · exact noDevice
      have notString := validDevice isLogical
      rw [deviceOf] at isDevice
      split at isDevice
      · exact isDevice
      · rw [isDevice] at notString
        cases notString
  · have known' := (inside _ known).resolve_right fun never => by cases never
    have here := parseDirectories_strings readPath known' c member
    obtain ⟨-, -, all⟩ | ⟨w, n, -, -, ⟨-, all⟩ | ⟨string, -⟩⟩ := cases'
    · exact all c here
    · exact all c here
    · rw [show host = .null from noHost] at string
      cases string

theorem parse_fromPhysical {defaultHost : Component} {p : Pathname}
    (parsed : session.parse s defaultHost = .ok p) (physical : p.logical = false)
    (noTilde : '~' ∉ s) :
    FromPhysical session p := by
  rw [Session.parse] at parsed
  cases read : session.parseNamestring s defaultHost with
  | error failure =>
    rw [read] at parsed
    cases parsed
  | ok result =>
    obtain ⟨q, left⟩ := result
    rw [read] at parsed
    dsimp only at parsed
    split at parsed
    · cases parsed
      by_cases empty : s = []
      · subst empty
        rw [← parsePhysical_nil] at read
        exact parsePhysical_fromPhysical read noTilde fun _ never => by cases never
      · rw [Session.parseNamestring, if_neg empty] at read
        dsimp only at read
        by_cases isLogical : session.logicalHostname (namestringHost s defaultHost).1 = true
        · rw [if_pos isLogical] at read
          have logical := (parseLogical_ok read).1
          rw [physical] at logical
          cases logical
        · rw [if_neg isLogical] at read
          refine parsePhysical_fromPhysical read noTilde fun w word => ?_
          rw [namestringHost] at isLogical
          dsimp only at isLogical
          rw [word, if_neg (by simp)] at isLogical
          exact Bool.eq_false_iff.mpr isLogical
    · cases parsed

end Ecl.Pathname
