import Ecl.Pathname.Physical

/- enough-namestring: what is left out of a namestring, and what merging restores. -/
namespace Ecl.Pathname

open List Option

/-- ecl_equalp of two components. -/
def Casing.equalp (casing : Casing) : Component → Component → Bool
  | .string a, .string b => casing.stringEqual a b
  | x, y => x = y

/-- MISMATCH with the test EQUAL. -/
def mismatch : List Component → List Component → Option Nat
  | [], [] => none
  | x :: l, y :: l' => if x = y then (mismatch l l').map (· + 1) else some 0
  | _, _ => some 0

def Casing.enMatch (casing : Casing) (path defaults : Component) : Component :=
  if casing.equalp path defaults then .null else path

/-- The directory of enough_namestring. -/
def enoughDirectory (pathdir defaultdir : List Component) : List Component :=
  if pathdir = [] then [.relative]
  else if defaultdir = [] then pathdir
  else if pathdir.head? = some .relative then pathdir
  else
    match mismatch pathdir defaultdir with
    | none => []
    | some n => if n = defaultdir.length then .relative :: pathdir.drop n else pathdir

def Session.enoughPathname (session : Session) (path defaults : Pathname) :
    Except Failure Pathname :=
  let fname := (session.casing.enMatch path.name defaults.name).or path.name
  (session.makePathname (session.casing.enMatch path.host defaults.host)
    (session.casing.enMatch path.device defaults.device)
    (enoughDirectory path.directory defaults.directory) fname
    (session.casing.enMatch path.type defaults.type)
    (session.casing.enMatch path.version defaults.version)).map
      fun newpath => { newpath with logical := path.logical }

def Session.enoughNamestring (session : Session) (path defaults : Pathname) :
    Except Failure (List Char) := do
  namestring (← session.enoughPathname path defaults) true

/-- The namestring is parsed and merged with the defaults. -/
def Session.restore (session : Session) (path defaults : Pathname) (defaultHost : Component) :
    Except Failure Pathname := do
  let namestring ← session.enoughNamestring path defaults
  let path ← session.parse namestring defaultHost
  session.mergePathnames false path defaults .newest

/-- Equal under EQUALP only where they are equal. -/
def Casing.Cased (casing : Casing) (path defaults : Component) : Prop :=
  casing.equalp path defaults = true → path = defaults

/-- What merging restores: nothing is left out that differs in case, and no host or device of the
defaults takes the place of another, or is followed by something other than a root. -/
def Restored (casing : Casing) (p d : Pathname) : Prop :=
  (p.type ≠ .null → casing.Cased p.type d.type) ∧
    if p.host = .null then p.device ≠ .null → casing.Cased p.device d.device
    else if casing.equalp p.host d.host = true then
      p.host = d.host ∧ (p.device ≠ .null → casing.Cased p.device d.device) ∧
        (p.device = .null → d.device = .null)
    else
      (p.device ≠ .null → ¬casing.equalp p.device d.device = true) ∧
        (d.directory <+: p.directory → p.directory = d.directory ∧ p.name = .null)

theorem equalp_refl (casing : Casing) (x : Component) : casing.equalp x x = true := by
  cases x <;> simp [Casing.equalp, Casing.stringEqual]

section Elements

variable {casing : Casing} {a b : Component}

theorem enMatch_cases (casing : Casing) (a b : Component) :
    casing.enMatch a b = .null ∧ (a = .null ∨ casing.equalp a b = true) ∨
      casing.enMatch a b = a ∧ a ≠ .null ∧ ¬casing.equalp a b = true := by
  rw [Casing.enMatch]
  by_cases same : casing.equalp a b = true
  · rw [if_pos same]
    exact .inl ⟨rfl, .inr same⟩
  · rw [if_neg same]
    by_cases none : a = .null
    · exact .inl ⟨none, .inl none⟩
    · exact .inr ⟨rfl, none, same⟩

theorem enMatch_or_iff : (casing.enMatch a b).or b = a.or b ↔ (a ≠ .null → casing.Cased a b) := by
  obtain ⟨dropped, why⟩ | ⟨kept, given, differ⟩ := enMatch_cases casing a b
  · rw [dropped, Component.or, if_pos rfl, Component.or]
    by_cases none : a = .null
    · rw [if_pos none]
      exact ⟨fun _ given => absurd none given, fun _ => rfl⟩
    · rw [if_neg none]
      exact ⟨fun same _ _ => same.symm, fun cased => (cased none (why.resolve_left none)).symm⟩
  · rw [kept]
    exact ⟨fun _ _ same => absurd same differ, fun _ => rfl⟩

theorem enMatch_eq_iff : casing.enMatch a b = a ↔ (a ≠ .null → ¬casing.equalp a b = true) := by
  obtain ⟨dropped, why⟩ | ⟨kept, given, differ⟩ := enMatch_cases casing a b
  · rw [dropped]
    constructor
    · exact fun none given => absurd none.symm given
    · intro apart
      by_contra given
      obtain none | same := why
      · exact given none.symm
      · exact apart (fun none => given none.symm) same
  · rw [kept]
    exact ⟨fun _ _ => differ, fun _ => rfl⟩

end Elements

section Directories

theorem mismatch_eq_none : ∀ {p d : List Component}, mismatch p d = none ↔ p = d
  | [], [] => by simp [mismatch]
  | [], _ :: _ => by simp [mismatch]
  | _ :: _, [] => by simp [mismatch]
  | x :: p, y :: d => by
      rw [mismatch, List.cons.injEq]
      by_cases same : x = y
      · rw [if_pos same, map_eq_none_iff, mismatch_eq_none]
        exact ⟨fun rest => ⟨same, rest⟩, And.right⟩
      · rw [if_neg same]
        exact ⟨nofun, fun both => absurd both.1 same⟩

theorem mismatch_eq_length : ∀ {p d : List Component},
    mismatch p d = some d.length ↔ d <+: p ∧ p ≠ d
  | [], [] => by simp [mismatch]
  | [], _ :: _ => by simp [mismatch]
  | _ :: _, [] => by simp [mismatch]
  | x :: p, y :: d => by
      rw [mismatch, cons_prefix_cons, ne_eq, List.cons.injEq]
      by_cases same : x = y
      · subst same
        have step : (mismatch p d).map (· + 1) = some (x :: d).length ↔
          mismatch p d = some d.length := by
          cases mismatch p d <;> simp
        rw [if_pos rfl, step, mismatch_eq_length]
        tauto
      · rw [if_neg same]
        simp only [length_cons, some.injEq]
        constructor
        · exact fun never => by omega
        · exact fun both => absurd both.1.1.symm same

variable {p d : List Component}

/-- The forms of the directory that is written, where the defaults have an absolute one. -/
theorem enoughDirectory_cases (absolute : d.head? = some .absolute) :
    (p = [] ∧ enoughDirectory p d = [.relative]) ∨
      (p.head? = some .relative ∧ enoughDirectory p d = p) ∨
      (p = d ∧ enoughDirectory p d = []) ∨
      (∃ item rest, p = d ++ item :: rest ∧ enoughDirectory p d = .relative :: item :: rest) ∨
      (p ≠ [] ∧ p.head? ≠ some .relative ∧ ¬d <+: p ∧ enoughDirectory p d = p) := by
  have filled : d ≠ [] := fun none => by simp [none] at absolute
  rw [enoughDirectory]
  by_cases empty : p = []
  · rw [if_pos empty]
    exact .inl ⟨empty, rfl⟩
  rw [if_neg empty, if_neg filled]
  by_cases relative : p.head? = some .relative
  · rw [if_pos relative]
    exact .inr (.inl ⟨relative, rfl⟩)
  rw [if_neg relative]
  cases found : mismatch p d with
  | none =>
    exact .inr (.inr (.inl ⟨mismatch_eq_none.mp found, rfl⟩))
  | some n =>
    dsimp only
    by_cases whole : n = d.length
    · rw [if_pos whole]
      subst whole
      obtain ⟨⟨rest, rfl⟩, other⟩ := mismatch_eq_length.mp found
      cases rest with
      | nil => exact absurd (append_nil d) other
      | cons item rest =>
        rw [drop_left' rfl]
        exact .inr (.inr (.inr (.inl ⟨item, rest, rfl, rfl⟩)))
    · rw [if_neg whole]
      refine .inr (.inr (.inr (.inr ⟨empty, relative, fun isPrefix => ?_, rfl⟩)))
      by_cases same : p = d
      · rw [mismatch_eq_none.mpr same] at found
        cases found
      · rw [mismatch_eq_length.mpr ⟨isPrefix, same⟩, some.injEq] at found
        exact whole found.symm

theorem mergedDirectory_enough (absolute : d.head? = some .absolute) :
    mergedDirectory (readDirectory (enoughDirectory p d)) d = mergedDirectory p d := by
  obtain ⟨items, rfl⟩ := List.head?_eq_some_iff.mp absolute
  obtain ⟨rfl, enough⟩ | ⟨relative, enough⟩ | ⟨rfl, enough⟩ | ⟨item, rest, rfl, enough⟩ |
    ⟨-, -, -, enough⟩ := enoughDirectory_cases (p := p) absolute
  all_goals rw [enough, readDirectory]
  · rfl
  · obtain ⟨items', rfl⟩ := List.head?_eq_some_iff.mp relative
    cases items' with
    | nil => simp [mergedDirectory]
    | cons item items' => rw [if_neg (by simp)]
  · rfl
  · rw [if_neg (by simp)]
    rfl
  · by_cases silent : p = [.relative]
    · subst silent
      simp [mergedDirectory]
    · rw [if_neg silent]

end Directories

/-- A namestring and its pathname have no special characters. -/
structure Unspecial (s : List Char) (p : Pathname) : Prop where
  noTilde : '~' ∉ s
  host : p.host.Blank
  device : p.device.Blank
  directory : PlainDirectory p.directory
  name : p.name.Blank
  type : p.type = .null ∨ p.type.isString = true ∧ Plain p.type.characters

/-- A pathname of words as it comes from a physical namestring. -/
structure Ordinary (session : Session) (p : Pathname) :
    Prop extends FromPhysical session p, Worded p

theorem Unspecial.ordinary {session : Session} {s : List Char} {p : Pathname}
    (unspecial : Unspecial s p)
    (from' : FromPhysical session p) : Ordinary session p :=
  { from' with
    host := unspecial.host
    device := unspecial.device
    directory := unspecial.directory
    file := ⟨unspecial.name, unspecial.type, from'.named⟩ }

def merged (session : Session) (same : Bool) (path defaults : Pathname) : Pathname where
  logical := session.logicalHostname (path.host.or defaults.host)
  host := path.host.or defaults.host
  device := mergedDevice same path defaults
  directory := mergedDirectory path.directory defaults.directory
  name := path.name.or defaults.name
  type := path.type.or defaults.type
  version := mergedVersion path defaults .newest

section Merging

variable {session : Session} {p d : Pathname}

theorem Component.Blank.or {x y : Component} (first : x.Blank) (second : y.Blank) :
    (x.or y).Blank := by
  rw [Component.or]
  split
  · exact second
  · exact first

theorem or_eq_null {x y : Component} : x.or y = .null ↔ x = .null ∧ y = .null := by
  rw [Component.or]
  by_cases none : x = .null <;> simp [none]

theorem mergedDevice_blank (same : Bool) (path : p.device.Blank) (defaults : d.device.Blank) :
    (mergedDevice same p d).Blank := by
  rw [mergedDevice]
  split
  · split
    · exact defaults
    · split
      · exact defaults
      · exact .inl rfl
  · exact path

theorem mergedDirectory_plain {path defaults : List Component} (first : PlainDirectory path)
    (second : PlainDirectory defaults) : PlainDirectory (mergedDirectory path defaults) := by
  cases path with
  | nil => exact second
  | cons front rest =>
    rw [mergedDirectory]
    split
    · exact first
    · split
      · exact first
      · cases defaults with
        | nil => rename_i filled; exact absurd rfl filled
        | cons front' items =>
          refine ⟨second.1, fun c member => ?_⟩
          obtain before | later := mem_append.mp member
          · exact second.2 c before
          · exact first.2 c later

theorem impliedVersion_cases (name type : Component) :
    impliedVersion name type = .null ∨ impliedVersion name type = .newest := by
  rw [impliedVersion]
  split
  · exact .inr rfl
  · exact .inl rfl

theorem mergedVersion_newest {path defaults : Pathname}
    (first : path.version = .null ∨ path.version = .newest)
    (second : defaults.version = .null ∨ defaults.version = .newest) :
    mergedVersion path defaults .newest = .newest := by
  rw [mergedVersion]
  obtain first | first := first <;> obtain second | second := second <;>
    rw [first, second] <;> split <;> rfl

theorem PlainFile.or {name type name' type' : Component} (first : PlainFile name type)
    (second : PlainFile name' type') : PlainFile (name.or name') (type.or type') where
  nameWord := Component.Blank.or first.nameWord second.nameWord
  typeText := by
    rw [Component.or]
    split
    · exact second.typeText
    · exact first.typeText
  named none := by
    obtain ⟨noName, noName'⟩ := or_eq_null.mp none
    exact or_eq_null.mpr ⟨first.named noName, second.named noName'⟩

theorem mergePathnames_iff {q : Pathname} (same : Bool) (path : Worded q)
    (version : q.version = .null ∨ q.version = .newest) (defaults : Ordinary session d)
    {r : Pathname} :
    session.mergePathnames same q d .newest = .ok r ↔
      r = merged session same q d ∧
        (session.logicalHostname (q.host.or d.host) = true → mergedDevice same q d = .null) := by
  have isVersion : d.version = .null ∨ d.version = .newest := by
    rw [defaults.version]
    exact impliedVersion_cases _ _
  have made := makePathname_plain session (path.host.or defaults.host)
    (mergedDevice_blank same path.device defaults.device)
    (mergedDirectory_plain path.directory defaults.directory) (path.file.or defaults.file)
    (.inr (mergedVersion_newest version isVersion))
  rw [Session.mergePathnames, made]
  by_cases conflict : session.logicalHostname (q.host.or d.host) = true ∧
    mergedDevice same q d ≠ .null
  · rw [if_pos conflict]
    exact ⟨nofun, fun both => absurd (both.2 conflict.1) conflict.2⟩
  · rw [if_neg conflict, Except.ok.injEq]
    exact ⟨fun same =>
      ⟨same.symm, fun isLogical => not_not.mp fun given => conflict ⟨isLogical, given⟩⟩,
      fun both => both.1.symm⟩

end Merging

/-- What enough-namestring writes. -/
def shortened (casing : Casing) (p d : Pathname) : Pathname where
  logical := false
  host := casing.enMatch p.host d.host
  device := casing.enMatch p.device d.device
  directory := enoughDirectory p.directory d.directory
  name := p.name
  type := casing.enMatch p.type d.type
  version := casing.enMatch p.version d.version

section Shortened

variable {session : Session} {p d : Pathname}

theorem enMatch_null_or (casing : Casing) (a b : Component) :
    casing.enMatch a b = .null ∨ casing.enMatch a b = a := by
  obtain ⟨dropped, -⟩ | ⟨kept, -⟩ := enMatch_cases casing a b
  · exact .inl dropped
  · exact .inr kept

theorem enMatch_blank {a : Component} (casing : Casing) (blank : a.Blank) (b : Component) :
    (casing.enMatch a b).Blank := by
  obtain dropped | kept := enMatch_null_or casing a b
  · exact .inl dropped
  · rw [kept]
    exact blank

theorem enoughDirectory_plain {path defaults : List Component} (plain : PlainDirectory path)
    (absolute : defaults.head? = some .absolute) :
      PlainDirectory (enoughDirectory path defaults) := by
  obtain ⟨-, enough⟩ | ⟨-, enough⟩ | ⟨-, enough⟩ | ⟨item, rest, whole, enough⟩ | ⟨-,
    -, -, enough⟩ :=
    enoughDirectory_cases (p := path) absolute
  all_goals rw [enough]
  · exact ⟨.inr rfl, fun _ never => by cases never⟩
  · exact plain
  · trivial
  · obtain ⟨items, rfl⟩ := List.head?_eq_some_iff.mp absolute
    rw [whole] at plain
    exact ⟨.inr rfl, fun c member => plain.2 c (mem_append_right _ member)⟩
  · exact plain

theorem shortened_worded (ordinary : Ordinary session p)
    (absolute : d.directory.head? = some .absolute) :
    Worded (shortened session.casing p d) where
  host := enMatch_blank _ ordinary.host _
  device := enMatch_blank _ ordinary.device _
  directory := enoughDirectory_plain ordinary.directory absolute
  file :=
    { nameWord := ordinary.file.nameWord
      typeText := by
        obtain dropped | kept := enMatch_null_or session.casing p.type d.type
        · exact .inl dropped
        · change session.casing.enMatch p.type d.type = .null ∨ _
          rw [shortened, kept]
          exact ordinary.file.typeText
      named := fun none => by
        obtain dropped | kept := enMatch_null_or session.casing p.type d.type
        · exact dropped
        · exact kept.trans (ordinary.named none) }

theorem shortened_valid (ordinary : Ordinary session p)
    (isLogical : session.logicalHostname (shortened session.casing p d).host = true) :
    (shortened session.casing p d).device = .null := by
  obtain dropped | kept := enMatch_null_or session.casing p.host d.host
  · rw [shortened, dropped] at isLogical
    cases isLogical
  · rw [shortened, kept] at isLogical
    obtain dropped | kept := enMatch_null_or session.casing p.device d.device
    · exact dropped
    · exact kept.trans (ordinary.valid isLogical)

theorem enoughNamestring_text (ordinary : Ordinary session p)
    (absolute : d.directory.head? = some .absolute) :
    session.enoughNamestring p d = .ok (text (shortened session.casing p d)) := by
  have worded := shortened_worded ordinary absolute
  have name : (session.casing.enMatch p.name d.name).or p.name = p.name := by
    obtain dropped | kept := enMatch_null_or session.casing p.name d.name
    · rw [dropped]
      rfl
    · rw [kept, Component.or]
      split
      · rfl
      · rfl
  have isVersion : session.casing.enMatch p.version d.version = .null ∨
      session.casing.enMatch p.version d.version = .newest := by
    obtain dropped | kept := enMatch_null_or session.casing p.version d.version
    · exact .inl dropped
    · rw [kept, ordinary.version]
      exact impliedVersion_cases _ _
  have made := makePathname_plain session worded.host worded.device worded.directory
    worded.file isVersion
  rw [if_neg fun both => both.2 (shortened_valid ordinary both.1)] at made
  have enough : session.enoughPathname p d = .ok (shortened session.casing p d) := by
    rw [Session.enoughPathname, name]
    change
      (session.makePathname (shortened session.casing p d).host
      (shortened session.casing p d).device
      (shortened session.casing p d).directory (shortened session.casing p d).name
      (shortened session.casing p d).type _).map _ = _
    rw [made, ordinary.physical]
    rfl
  rw [Session.enoughNamestring, enough]
  exact namestring_plain rfl worded

end Shortened

section Hosts

variable {session : Session} {x : Pathname}

theorem parsePhysical_host {s left rest : List Char} {host device : Component} {q : Pathname}
    (read : session.parseDeviceAndHost s = .ok (device, host, rest)) (hasHost : host ≠ .null)
    (parsed : session.parsePhysical s = .ok (q, left)) : q.host = host ∧ q.device = device := by
  rw [Session.parsePhysical] at parsed
  obtain ⟨⟨device', host', rest'⟩, read', parsed⟩ := Lib.bind_eq_ok.mp parsed
  obtain ⟨⟨path, file⟩, -, parsed⟩ := Lib.bind_eq_ok.mp parsed
  obtain ⟨⟨name, type, left'⟩, -, parsed⟩ := Lib.bind_eq_ok.mp parsed
  obtain ⟨m, made, parsed⟩ := Lib.bind_eq_ok.mp parsed
  obtain ⟨q', expanded, parsed⟩ := Lib.bind_eq_ok.mp parsed
  cases parsed
  rw [read] at read'
  cases read'
  obtain ⟨l, -, rfl, -⟩ := makePathname_ok made
  rw [Session.tildeExpand, if_pos (by simp [hasHost])] at expanded
  cases expanded
  exact ⟨rfl, rfl⟩

/-- What stands behind the host, up to a slash, is read as part of it. -/
def runOn (x : Pathname) : List Char := (fileNamestring x).takeWhile (· ≠ '/')

theorem parseDeviceAndHost_runOn (worded : Worded x) (hasHost : x.host ≠ .null) :
    ∃ rest, session.parseDeviceAndHost (text x) =
      .ok
        (deviceOf session.casing (colonWord x), .string (x.host.characters ++ runOn x), rest) := by
  obtain ⟨filled, plain⟩ := colonWord_plain worded
  obtain ⟨host, isHost, filledHost, plainHost⟩ := (worded.host.resolve_left hasHost).exists
  have split : (fileNamestring x).takeWhile (· ≠ '/') ++ (fileNamestring x).dropWhile (· ≠ '/') =
      fileNamestring x := takeWhile_append_dropWhile
  have ended : (fileNamestring x).dropWhile (· ≠ '/') = [] ∨
      ∃ l, (fileNamestring x).dropWhile (· ≠ '/') = '/' :: l := by
    have head := List.head?_dropWhile_not (fun c => decide (c ≠ '/')) (fileNamestring x)
    cases tail : (fileNamestring x).dropWhile (· ≠ '/') with
    | nil => exact .inl rfl
    | cons c l =>
      rw [tail] at head
      have slash : c = '/' := by simpa using head
      exact .inr ⟨l, by rw [slash]⟩
  have literal : ∀ c ∈ host ++ runOn x, c ≠ '/' ∧ c ≠ '*' ∧ c ≠ '\x00' := by
    intro c member
    obtain inside | after := mem_append.mp member
    · exact ⟨plainHost.ne inside (by decide), plainHost.ne inside (by decide),
        plainHost.ne inside (by decide)⟩
    · have known : c ∈ fileNamestring x := (takeWhile_sublist _).subset after
      have notSlash := all_eq_true.mp all_takeWhile c after
      refine ⟨of_decide_eq_true notSlash, fun same => ?_, fun same => ?_⟩
      all_goals
        rw [same] at known
        exact fileNamestring_apart worded (by decide) (by decide) (by decide) known
  have notUp : host ++ runOn x ≠ ['.', '.'] := by
    obtain ⟨c, host, rfl⟩ := exists_cons_of_ne_nil filledHost
    intro same
    exact plainHost.ne mem_cons_self (by decide) (List.cons.inj same).1
  refine ⟨(fileNamestring x).dropWhile (· ≠ '/'), ?_⟩
  have read := parseHost_word (host ++ runOn x) (by simp [filledHost]) literal notUp ended
  rw [append_assoc, runOn, split] at read
  change session.parseDeviceAndHost (hostText x ++ fileNamestring x) = _
  rw [hostText_colon (.inr hasHost), if_neg hasHost, isHost, Component.characters, append_assoc,
    cons_append, cons_append, cons_append, parseDeviceAndHost_host filled plain, read]
  rfl

theorem runOn_filled (worded : Worded x) (notRooted : ¬Rooted x) : runOn x ≠ [] := by
  have starts {text l : List Char} (filled : text ≠ []) (plain : Plain text)
      (whole : fileNamestring x = text ++ l) : runOn x ≠ [] := by
    obtain ⟨c, text, rfl⟩ := exists_cons_of_ne_nil filled
    rw [runOn, whole, cons_append, takeWhile_cons,
      if_pos (decide_eq_true (plain.ne mem_cons_self (by decide)))]
    exact nofun
  have plain := worded.directory
  by_cases silent : readDirectory x.directory = []
  · have named : x.name ≠ .null := fun noName => notRooted fun _ => .inr ⟨silent, noName⟩
    obtain ⟨name, -⟩ | ⟨text, name, filled, plainName, -⟩ := worded.file.cases
    · exact absurd name named
    · refine starts filled plainName (l :=
        if x.type = .null then [] else '.' :: x.type.characters) ?_
      rw [fileNamestring, fileText, name]
      rw [readDirectory] at silent
      by_cases relative : x.directory = [.relative]
      · rw [relative]
        rfl
      · rw [if_neg relative] at silent
        rw [silent]
        rfl
  · cases dir : x.directory with
    | nil =>
      rw [dir] at silent
      exact absurd rfl silent
    | cons front items =>
      rw [dir] at plain silent
      obtain ⟨rfl | rfl, words⟩ := plain
      · exact absurd (fun _ => .inl (by rw [dir]; rfl)) notRooted
      · cases items with
        | nil => exact absurd rfl silent
        | cons item items =>
          obtain ⟨text, rfl, filled, plainText⟩ := (words item mem_cons_self).exists
          refine starts filled plainText (l :=
            '/' :: (itemsText items ++ fileText x.name x.type)) ?_
          rw [fileNamestring, dir]
          simp [directoryText, itemsText, Component.characters]

theorem parse_runOn (worded : Worded x) (hasHost : x.host ≠ .null) {defaultHost : Component}
    {q : Pathname}
    (parsed : session.parse (text x) defaultHost = .ok q) :
    (q.device = .unspecific ∧
        session.logicalHostname (namestringHost (text x) defaultHost).1 = true) ∨
      q.device = deviceOf session.casing (colonWord x) ∧
        q.host = .string (x.host.characters ++ runOn x) := by
  have filled : text x ≠ [] := by
    rw [text, hostText_colon (.inr hasHost)]
    simp
  rw [Session.parse] at parsed
  cases read : session.parseNamestring (text x) defaultHost with
  | error failure =>
    rw [read] at parsed
    cases parsed
  | ok result =>
    obtain ⟨q', left⟩ := result
    rw [read] at parsed
    dsimp only at parsed
    split at parsed
    · cases parsed
      rw [Session.parseNamestring, if_neg filled] at read
      dsimp only at read
      by_cases isLogical : session.logicalHostname (namestringHost (text x) defaultHost).1 = true
      · rw [if_pos isLogical] at read
        exact .inl ⟨(parseLogical_ok read).2.1, isLogical⟩
      · rw [if_neg isLogical] at read
        obtain ⟨rest, split⟩ := @parseDeviceAndHost_runOn session x worded hasHost
        obtain ⟨host, device⟩ := parsePhysical_host split (fun never => by cases never) read
        exact .inr ⟨device, host⟩
    · cases parsed

end Hosts

section Law

variable {session : Session} {p d r : Pathname} {same : Bool} {defaultHost : Component}

theorem restore_eq (ordinary : Ordinary session p) (absolute : d.directory.head? = some .absolute) :
    session.restore p d defaultHost =
      (session.parse (text (shortened session.casing p d)) defaultHost >>= fun q =>
        session.mergePathnames false q d .newest) := by
  rw [Session.restore, enoughNamestring_text ordinary absolute]
  rfl

theorem restore_reread (ordinary : Ordinary session p) (defaults : Ordinary session d)
    (absolute : d.directory.head? = some .absolute)
    (physical : session.logicalHostname defaultHost = false)
    (sayable : Sayable session (shortened session.casing p d))
    (rooted : Rooted (shortened session.casing p d))
    (result : session.mergePathnames same p d .newest = .ok r) :
    session.restore p d defaultHost = .ok r ↔
      (p.host ≠ .null → session.casing.Cased p.host d.host) ∧
        mergedDevice false (shortened session.casing p d) d = mergedDevice same p d ∧
          (p.type ≠ .null → session.casing.Cased p.type d.type) := by
  have worded := shortened_worded ordinary absolute
  have reworded : Worded (reread (shortened session.casing p d)) :=
    { host := worded.host
      device := worded.device
      directory := readDirectory_plain worded.directory
      file := worded.file }
  have isVersion : p.version = .null ∨ p.version = .newest := by
    rw [ordinary.version]
    exact impliedVersion_cases _ _
  have version : impliedVersion p.name (session.casing.enMatch p.type d.type) = p.version := by
    rw [ordinary.version, impliedVersion, impliedVersion]
    by_cases noName : p.name = .null
    · obtain dropped | kept := enMatch_null_or session.casing p.type d.type
      · rw [dropped, ordinary.named noName]
      · rw [kept]
    · rw [if_pos (.inl noName), if_pos (.inl noName)]
  obtain ⟨rfl, valid⟩ := (mergePathnames_iff same ordinary.toWorded isVersion defaults).mp result
  rw [restore_eq ordinary absolute, parse_text worded sayable rooted
    (fun isLogical => shortened_valid ordinary isLogical) physical]
  change session.mergePathnames false (reread (shortened session.casing p d)) d .newest = _ ↔ _
  rw [mergePathnames_iff false reworded (impliedVersion_cases _ _) defaults, ← enMatch_or_iff,
    ← enMatch_or_iff]
  have directory :
    mergedDirectory (readDirectory (enoughDirectory p.directory d.directory)) d.directory =
      mergedDirectory p.directory d.directory := mergedDirectory_enough absolute
  have mergedAgain : mergedVersion (reread (shortened session.casing p d)) d .newest =
      mergedVersion p d .newest := by
    rw [mergedVersion, mergedVersion]
    simp only [reread, shortened, version]
  constructor
  · rintro ⟨equal, -⟩
    have hosts := congrArg Pathname.host equal
    have devices := congrArg Pathname.device equal
    have types := congrArg Pathname.type equal
    exact ⟨hosts.symm, devices.symm, types.symm⟩
  · rintro ⟨hosts, devices, types⟩
    have hosts' : (reread (shortened session.casing p d)).host.or d.host = p.host.or d.host := hosts
    have devices' :
      mergedDevice false (reread (shortened session.casing p d)) d = mergedDevice same p d :=
      devices
    have types' : (reread (shortened session.casing p d)).type.or d.type = p.type.or d.type := types
    have directory' :
      mergedDirectory (reread (shortened session.casing p d)).directory d.directory =
        mergedDirectory p.directory d.directory := directory
    have names' : (reread (shortened session.casing p d)).name.or d.name = p.name.or d.name := rfl
    rw [merged, merged, hosts', devices', types', directory', names', mergedAgain]
    exact ⟨rfl, valid⟩

/-- The device of a shortened pathname that is not written is restored to that of the defaults. -/
theorem mergedDevice_dropped (dropped : (shortened session.casing p d).host = .null) :
    mergedDevice false (shortened session.casing p d) d =
      (session.casing.enMatch p.device d.device).or d.device := by
  rw [mergedDevice, Component.or, dropped]
  rfl

theorem restore_hostDropped (ordinary : Ordinary session p) (defaults : Ordinary session d)
    (absolute : d.directory.head? = some .absolute)
    (physical : session.logicalHostname defaultHost = false) (identity : same = true → p = d)
    (result : session.mergePathnames same p d .newest = .ok r)
    (dropped : session.casing.enMatch p.host d.host = .null)
    (why : p.host = .null ∨ session.casing.equalp p.host d.host = true) :
    session.restore p d defaultHost = .ok r ↔ Restored session.casing p d := by
  have sayable : Sayable session (shortened session.casing p d) := by
    refine ⟨fun given => ?_, fun hasHost => absurd dropped hasHost⟩
    obtain none | kept := enMatch_null_or session.casing p.device d.device
    · exact absurd none given
    · rw [shortened, kept] at given ⊢
      exact (ordinary.sayable ordinary.toWorded.device).device given
  rw [restore_reread ordinary defaults absolute physical sayable
    (fun hasHost => absurd dropped hasHost) result,
    mergedDevice_dropped dropped, Restored]
  by_cases noHost : p.host = .null
  · have device : mergedDevice same p d = p.device.or d.device := by
      rw [mergedDevice, noHost, Component.or]
      rfl
    rw [device, enMatch_or_iff, if_pos noHost]
    exact ⟨fun ⟨_, devices, types⟩ => ⟨types, devices⟩,
      fun ⟨types, devices⟩ => ⟨fun given => absurd noHost given, devices, types⟩⟩
  · have equal := why.resolve_left noHost
    have hosts : (p.host ≠ .null → session.casing.Cased p.host d.host) ↔ p.host = d.host :=
      ⟨fun cased => cased noHost equal, fun eq _ _ => eq⟩
    have devices : (session.casing.enMatch p.device d.device).or d.device = mergedDevice same p d ↔
        (p.device ≠ .null → session.casing.Cased p.device d.device) ∧
          (p.device = .null → d.device = .null) := by
      by_cases noDevice : p.device = .null
      · have left : session.casing.enMatch p.device d.device = .null :=
          (enMatch_null_or session.casing p.device d.device).elim id fun kept => kept.trans noDevice
        have right : mergedDevice same p d = .null := by
          rw [mergedDevice, if_pos noDevice, if_neg noHost]
          split
          · rename_i eq
            rw [← identity eq]
            exact noDevice
          · rfl
        rw [left, right, Component.or, if_pos rfl]
        exact ⟨fun none => ⟨fun given => absurd noDevice given, fun _ => none⟩,
          fun both => both.2 noDevice⟩
      · have right : mergedDevice same p d = p.device.or d.device := by
          rw [mergedDevice, Component.or, if_neg noDevice, if_neg noDevice]
        rw [right, enMatch_or_iff]
        exact ⟨fun cased => ⟨cased, fun none => absurd none noDevice⟩, And.left⟩
    rw [hosts, devices, if_neg noHost, if_pos equal]
    tauto

/-- The directory behind a host that is written is a root, unless that of the defaults is in it. -/
theorem shortened_rooted_iff (ordinary : Ordinary session p)
    (absolute : d.directory.head? = some .absolute) (hasHost : p.host ≠ .null)
    (kept : session.casing.enMatch p.host d.host = p.host) :
    Rooted (shortened session.casing p d) ↔
      (d.directory <+: p.directory → p.directory = d.directory ∧ p.name = .null) := by
  have filled : d.directory ≠ [] := fun none => by simp [none] at absolute
  have given : (shortened session.casing p d).host ≠ .null := by
    rw [shortened, kept]
    exact hasHost
  have rooted : Rooted (shortened session.casing p d) ↔
      (enoughDirectory p.directory d.directory).head? = some .absolute ∨
        readDirectory (enoughDirectory p.directory d.directory) = [] ∧ p.name = .null :=
    ⟨fun rooted => rooted given, fun rooted _ => rooted⟩
  rw [rooted]
  obtain ⟨empty, enough⟩ | ⟨relative, enough⟩ | ⟨eq, enough⟩ | ⟨item, rest, whole, enough⟩ |
    ⟨nonempty, notRelative, apart, enough⟩ := enoughDirectory_cases (p := p.directory) absolute
  all_goals rw [enough]
  · have named : p.name = .null := by
      obtain absolute' | ⟨-, none⟩ := ordinary.rooted hasHost
      · rw [empty] at absolute'
        cases absolute'
      · exact none
    rw [empty]
    exact ⟨fun _ isPrefix => absurd (prefix_nil.mp isPrefix) filled, fun _ => .inr ⟨rfl, named⟩⟩
  · obtain absolute' | ⟨none, -⟩ := ordinary.rooted hasHost
    · rw [relative] at absolute'
      cases absolute'
    · rw [none] at relative
      cases relative
  · rw [eq]
    exact ⟨fun either _ => ⟨rfl, (either.resolve_left fun never => by cases never).2⟩,
      fun law => .inr ⟨rfl, (law (prefix_refl _)).2⟩⟩
  · rw [readDirectory, if_neg (by simp)]
    constructor
    · intro either
      obtain never | ⟨never, -⟩ := either <;> cases never
    · intro law
      have eq := (law (whole ▸ prefix_append _ _)).1
      rw [whole] at eq
      simp at eq
  · refine ⟨fun _ isPrefix => absurd isPrefix apart, fun _ => .inl ?_⟩
    obtain absolute' | ⟨none, -⟩ := ordinary.rooted hasHost
    · exact absolute'
    · exact absurd none nonempty

theorem mergePathnames_device {q : Pathname}
    (result : session.mergePathnames same q d .newest = .ok r) :
    r.host = q.host.or d.host ∧ r.device = mergedDevice same q d := by
  rw [Session.mergePathnames] at result
  obtain ⟨l, -, rfl, -⟩ := makePathname_ok result
  exact ⟨rfl, rfl⟩

theorem restore_deviceDropped (ordinary : Ordinary session p)
    (absolute : d.directory.head? = some .absolute)
    (hasHost : (shortened session.casing p d).host ≠ .null) (hasDevice : p.device ≠ .null)
    (dropped : (shortened session.casing p d).device = .null) (device : r.device = p.device) :
    session.restore p d defaultHost ≠ .ok r := by
  intro restored
  rw [restore_eq ordinary absolute] at restored
  obtain ⟨q, parsed, result⟩ := Lib.bind_eq_ok.mp restored
  have isDevice := (mergePathnames_device result).2
  obtain ⟨text, word, -, -⟩ := (ordinary.toWorded.device.resolve_left hasDevice).exists
  rw [device, word] at isDevice
  obtain ⟨unspecific, -⟩ | ⟨isNull, isHost⟩ :=
    parse_runOn (shortened_worded ordinary absolute) hasHost parsed
  · rw [mergedDevice, unspecific] at isDevice
    cases isDevice
  · have noDevice : q.device = .null := by
      rw [isNull, colonWord, if_pos dropped, deviceOf_file]
    rw [mergedDevice, noDevice, isHost] at isDevice
    cases isDevice

theorem restore_runOn (ordinary : Ordinary session p)
    (absolute : d.directory.head? = some .absolute)
    (physical : session.logicalHostname defaultHost = false)
    (sayable : Sayable session (shortened session.casing p d)) (hasHost : p.host ≠ .null)
    (kept : session.casing.enMatch p.host d.host = p.host)
    (notRooted : ¬Rooted (shortened session.casing p d)) (host : r.host = p.host) :
    session.restore p d defaultHost ≠ .ok r := by
  intro restored
  have worded := shortened_worded ordinary absolute
  rw [restore_eq ordinary absolute] at restored
  obtain ⟨q, parsed, result⟩ := Lib.bind_eq_ok.mp restored
  have isHost := (mergePathnames_device result).1
  obtain ⟨-, isLogical⟩ | ⟨-, longer⟩ := parse_runOn worded (kept.trans_ne hasHost) parsed
  · rw [namestringHost_physical physical (text_noLogicalHost worded sayable)] at isLogical
    cases isLogical
  · obtain ⟨text, word, -, -⟩ := (ordinary.toWorded.host.resolve_left hasHost).exists
    have name : (shortened session.casing p d).host.characters = text := by
      rw [shortened, kept, word]
      rfl
    rw [longer, host, word, name] at isHost
    have same : text = text ++ runOn (shortened session.casing p d) := Component.string.inj isHost
    exact runOn_filled worded notRooted (self_eq_append_right.mp same)

theorem restore_hostKept (ordinary : Ordinary session p) (defaults : Ordinary session d)
    (absolute : d.directory.head? = some .absolute)
    (physical : session.logicalHostname defaultHost = false) (identity : same = true → p = d)
    (result : session.mergePathnames same p d .newest = .ok r) (hasHost : p.host ≠ .null)
    (kept : session.casing.enMatch p.host d.host = p.host)
    (differ : ¬session.casing.equalp p.host d.host = true) :
    session.restore p d defaultHost = .ok r ↔ Restored session.casing p d := by
  have given : (shortened session.casing p d).host ≠ .null := kept.trans_ne hasHost
  have device : mergedDevice same p d = p.device := by
    rw [mergedDevice]
    by_cases noDevice : p.device = .null
    · rw [if_pos noDevice, if_neg hasHost, if_neg, noDevice]
      intro eq
      rw [← identity eq] at differ
      exact differ (equalp_refl _ _)
    · rw [if_neg noDevice]
  have results := mergePathnames_device result
  have host : r.host = p.host := results.1.trans (if_neg hasHost)
  rw [Restored, if_neg hasHost, if_neg differ,
    ← shortened_rooted_iff ordinary absolute hasHost kept]
  by_cases apart : p.device ≠ .null → ¬session.casing.equalp p.device d.device = true
  · have same' := enMatch_eq_iff.mpr apart
    have sayable : Sayable session (shortened session.casing p d) := by
      refine ⟨fun given => ?_, fun _ none => ?_⟩
      · rw [shortened, same'] at given ⊢
        exact (ordinary.sayable ordinary.toWorded.device).device given
      · exact (ordinary.sayable ordinary.toWorded.device).file hasHost (same'.symm.trans none)
    by_cases rooted : Rooted (shortened session.casing p d)
    · have devices :
        mergedDevice false (shortened session.casing p d) d = mergedDevice same p d := by
        rw [device, mergedDevice, if_neg given]
        by_cases none : (shortened session.casing p d).device = .null
        · rw [if_pos none]
          exact none.symm.trans same'
        · rw [if_neg none]
          exact same'
      rw [restore_reread ordinary defaults absolute physical sayable rooted result]
      exact ⟨fun both => ⟨both.2.2, apart, rooted⟩,
        fun both => ⟨fun _ equal => absurd equal differ, devices, both.1⟩⟩
    · exact iff_of_false (restore_runOn ordinary absolute physical sayable hasHost kept rooted host)
        fun law => rooted law.2.2
  · refine iff_of_false ?_ fun law => apart law.2.1
    rw [Classical.not_imp, not_not] at apart
    refine restore_deviceDropped ordinary absolute given apart.1 ?_ (results.2.trans device)
    exact if_pos apart.2

theorem restore_iff (ordinary : Ordinary session p) (defaults : Ordinary session d)
    (absolute : d.directory.head? = some .absolute)
    (physical : session.logicalHostname defaultHost = false) (identity : same = true → p = d)
    (result : session.mergePathnames same p d .newest = .ok r) :
    session.restore p d defaultHost = .ok r ↔ Restored session.casing p d := by
  obtain ⟨dropped, why⟩ | ⟨kept, hasHost, differ⟩ := enMatch_cases session.casing p.host d.host
  · exact restore_hostDropped ordinary defaults absolute physical identity result dropped why
  · exact restore_hostKept ordinary defaults absolute physical identity result hasHost kept differ

/-- For pathnames from physical namestrings without special characters, the second with an absolute
directory: the namestring that enough-namestring makes is merged to what the pathname itself is
merged to, exactly where nothing was left out that merging does not restore. -/
theorem enoughNamestring_restored_iff {s t : List Char} {hostP hostD : Component}
    (parsedP : session.parse s hostP = .ok p) (parsedD : session.parse t hostD = .ok d)
    (physicalP : p.logical = false) (physicalD : d.logical = false)
    (unspecialP : Unspecial s p) (unspecialD : Unspecial t d)
    (absolute : d.directory.head? = some .absolute)
    (physical : session.logicalHostname defaultHost = false) (identity : same = true → p = d)
    (result : session.mergePathnames same p d .newest = .ok r) :
    session.restore p d defaultHost = .ok r ↔ Restored session.casing p d :=
  restore_iff (unspecialP.ordinary (parse_fromPhysical parsedP physicalP unspecialP.noTilde))
    (unspecialD.ordinary (parse_fromPhysical parsedD physicalD unspecialD.noTilde))
    absolute physical identity result

end Law

/-- The standard characters, and no logical hosts. -/
def noHosts : Session where
  casing := ⟨Char.toUpper, fun _ _ => rfl⟩
  logicalHosts := []
  homedir _ := .error .unparsed
  whitespace c := c = ' '
  mostPositiveFixnum := 2 ^ 61 - 1

def fileInX (name type : List Char) : Pathname where
  logical := false
  host := .null
  device := .null
  directory := [.absolute, .string ['x']]
  name := .string name
  type := .string type
  version := .newest

section FileInX

variable {name type : List Char}

theorem fileInX_directory : PlainDirectory (fileInX name type).directory :=
  ⟨.inl rfl, fun c member => by rw [mem_singleton.mp member]; decide⟩

theorem fileInX_worded (filled : name ≠ []) (plainName : Plain name) (plainType : Plain type) :
    Worded (fileInX name type) where
  host := .inl rfl
  device := .inl rfl
  directory := fileInX_directory
  file :=
    ⟨.inr ⟨rfl, fun none => filled (Component.string.inj none), plainName⟩,
    .inr ⟨rfl, plainType⟩, nofun⟩

theorem parse_fileInX (name type : List Char) (filled : name ≠ []) (plainName : Plain name)
    (plainType : Plain type) :
    noHosts.parse ("/x/".toList ++ name ++ '.' :: type) .null = .ok (fileInX name type) := by
  have read : noHosts.parse (text (fileInX name type)) .null = .ok (reread (fileInX name type)) :=
    parse_text (fileInX_worded filled plainName plainType)
      ⟨fun given => absurd rfl given, fun given => absurd rfl given⟩ (fun given => absurd rfl given)
      (fun _ => rfl) rfl
  have whole : text (fileInX name type) = "/x/".toList ++ name ++ '.' :: type := by
    simp [text, hostText, fileInX, directoryText, itemsText, fileText, Component.characters]
  rw [← whole, read]
  rfl

theorem fileInX_unspecial {s : List Char} (noTilde : '~' ∉ s) (filled : name ≠ [])
    (plainName : Plain name)
    (plainType : Plain type) : Unspecial s (fileInX name type) where
  noTilde := noTilde
  host := .inl rfl
  device := .inl rfl
  directory := fileInX_directory
  name := .inr ⟨rfl, fun none => filled (Component.string.inj none), plainName⟩
  type := .inr ⟨rfl, plainType⟩

theorem fileInX_ordinary (filled : name ≠ []) (plainName : Plain name) (plainType : Plain type) :
    Ordinary noHosts (fileInX name type) :=
  (fileInX_unspecial (s := []) not_mem_nil filled plainName plainType).ordinary
    { physical := rfl
      named := nofun
      version := rfl
      rooted := fun given => absurd rfl given
      sayable := fun _ => ⟨fun given => absurd rfl given, fun given => absurd rfl given⟩
      valid := fun _ => rfl }

theorem mergePathnames_fileInX (filled : name ≠ []) (plainName : Plain name)
    (plainType : Plain type) :
    noHosts.mergePathnames false (fileInX name type) (fileInX ['b'] "lsp".toList) .newest =
      .ok (fileInX name type) :=
  (mergePathnames_iff false (fileInX_worded filled plainName plainType) (.inr rfl)
    (fileInX_ordinary (by decide) (by decide) (by decide))).mpr ⟨rfl, fun _ => rfl⟩

end FileInX

theorem enoughNamestring_restored_iff_lsp :
    noHosts.restore (fileInX ['a'] "lsp".toList) (fileInX ['b'] "lsp".toList) .null =
      .ok (fileInX ['a'] "lsp".toList) := by
  have parsedP : noHosts.parse "/x/a.lsp".toList .null = .ok (fileInX ['a'] "lsp".toList) :=
    parse_fileInX ['a'] "lsp".toList (by decide) (by decide) (by decide)
  have parsedD : noHosts.parse "/x/b.lsp".toList .null = .ok (fileInX ['b'] "lsp".toList) :=
    parse_fileInX ['b'] "lsp".toList (by decide) (by decide) (by decide)
  have merges :
    noHosts.mergePathnames false (fileInX ['a'] "lsp".toList) (fileInX ['b'] "lsp".toList)
      .newest = .ok (fileInX ['a'] "lsp".toList) :=
    mergePathnames_fileInX (by decide) (by decide) (by decide)
  refine (enoughNamestring_restored_iff parsedP parsedD rfl rfl
    (fileInX_unspecial (by decide) (by decide) (by decide) (by decide))
    (fileInX_unspecial (by decide) (by decide) (by decide) (by decide)) rfl rfl
    (fun never => absurd never Bool.false_ne_true) merges).mpr ?_
  exact ⟨fun _ _ => rfl, fun given => absurd rfl given⟩

/-- A type that differs from that of the defaults in case only is lost. -/
theorem enoughNamestring_loses_case :
    noHosts.parse "/x/a.LSP".toList .null = .ok (fileInX ['a'] "LSP".toList) ∧
      noHosts.parse "/x/b.lsp".toList .null = .ok (fileInX ['b'] "lsp".toList) ∧
      Unspecial "/x/a.LSP".toList (fileInX ['a'] "LSP".toList) ∧
      Unspecial "/x/b.lsp".toList (fileInX ['b'] "lsp".toList) ∧
      noHosts.mergePathnames false (fileInX ['a'] "LSP".toList)
        (fileInX ['b'] "lsp".toList) .newest =
        .ok (fileInX ['a'] "LSP".toList) ∧
      noHosts.restore (fileInX ['a'] "LSP".toList) (fileInX ['b'] "lsp".toList) .null ≠
        .ok (fileInX ['a'] "LSP".toList) := by
  have ordinaryP : Ordinary noHosts (fileInX ['a'] "LSP".toList) :=
    fileInX_ordinary (by decide) (by decide) (by decide)
  have ordinaryD : Ordinary noHosts (fileInX ['b'] "lsp".toList) :=
    fileInX_ordinary (by decide) (by decide) (by decide)
  have merges :
    noHosts.mergePathnames false (fileInX ['a'] "LSP".toList) (fileInX ['b'] "lsp".toList)
      .newest = .ok (fileInX ['a'] "LSP".toList) :=
    mergePathnames_fileInX (by decide) (by decide) (by decide)
  refine ⟨parse_fileInX ['a'] "LSP".toList (by decide) (by decide) (by decide),
    parse_fileInX ['b'] "lsp".toList (by decide) (by decide) (by decide),
    fileInX_unspecial (by decide) (by decide) (by decide) (by decide),
    fileInX_unspecial (by decide) (by decide) (by decide) (by decide), merges, fun restored => ?_⟩
  have law :=
    (restore_iff ordinaryP ordinaryD rfl rfl (fun never => absurd never Bool.false_ne_true)
    merges).mp restored
  exact absurd (law.1 nofun (by decide)) (by decide)

end Ecl.Pathname
