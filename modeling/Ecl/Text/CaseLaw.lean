import Ecl.Text.CaseNames

/- When the names that are written are read, in each readtable case. -/
namespace Ecl.Text.Case

open List Option

open Ecl.Lib (ok_bind)

namespace Reader

variable (r : Reader)

variable {st : State}

theorem tokenLoop_delimited {rest : List Nat}
    (delimited : ∀ c ∈ rest.head?, r.syntaxType c = .whitespace ∨ r.syntaxType c = .terminating)
    (none : st.colon = 0) : r.tokenLoop rest .outside st = .ok (st, rest) := by
  cases rest with
  | nil => rfl
  | cons c rest =>
    have ends := delimited c rfl
    rw [tokenLoop, if_neg, r.endColons_zero none, ok_bind]
    · cases ends with
      | inl white => simp only [white]
      | inr terminating => simp only [terminating]
    · rintro ⟨_, constituent⟩
      rw [constituent] at ends
      exact absurd ends (by decide)

theorem tokenObject_symbol {name : List Nat} {package : Option PackageName}
    {external : Bool} (found : r.tokenObject st = .ok (.symbol name package external)) :
    name = r.tokenName st ∧ package = st.package := by
  have symbol : r.symbol st = .symbol name package external := by
    rw [tokenObject] at found
    split at found
    · exact Except.ok.inj found
    · split at found
      · cases found
      · split at found
        · cases found
        · rw [maybeNumber] at found
          repeat' split at found
          all_goals first | cases found; done | exact Except.ok.inj found
  cases symbol
  exact ⟨rfl, rfl⟩

theorem symbol_of_tokenObject (symbol : st.package.isSome ∨ st.escapeList ≠ .nil) :
    r.tokenObject st = .ok (r.symbol st) := by
  rw [tokenObject, if_pos (symbol.imp_right .inl)]

theorem tokenLoop_colons (marker : r.syntaxType ':'.toNat = .constituent) (n : Nat)
    (rest : List Nat) (st : State) :
    r.tokenLoop (List.replicate n ':'.toNat ++ rest) .outside st =
      r.tokenLoop rest .outside { st with colon := st.colon + n } := by
  induction n generalizing st with
  | zero => rw [replicate_zero, nil_append, Int.natCast_zero, Int.add_zero]
  | succ n ih =>
    rw [replicate_succ, cons_append, tokenLoop, if_pos ⟨rfl, marker⟩, ih]
    simp only [Int.natCast_add, Int.natCast_one, Int.add_assoc, Int.add_comm 1]

theorem spelling_head {pieces : List Piece} (nonempty : pieces ≠ [])
    (valid : ∀ p ∈ pieces, p.Valid r) (rest : List Nat) :
    ∃ c tail, pieces.flatMap Piece.spelling ++ rest = c :: tail ∧
      ¬ (c = ':'.toNat ∧ r.syntaxType c = .constituent) := by
  cases pieces with
  | nil => exact absurd rfl nonempty
  | cons p pieces =>
    have first := valid p mem_cons_self
    rw [flatMap_cons, append_assoc]
    cases p with
    | bare c => exact ⟨_, _, rfl, fun both => first.2.2 both.1⟩
    | single mark c =>
      refine ⟨_, _, rfl, fun both => ?_⟩
      have escapes : r.syntaxType mark = .singleEscape := first
      rw [escapes] at both
      exact absurd both.2 (by decide)
    | multiple opens inners last =>
      refine ⟨_, _, rfl, fun both => ?_⟩
      rw [first.1] at both
      exact absurd both.2 (by decide)

theorem tokenLoop_endColons {pieces : List Piece} (nonempty : pieces ≠ [])
    (valid : ∀ p ∈ pieces, p.Valid r) (rest : List Nat)
    (ends : ∀ st', r.endColons st = .ok st' → st'.colon = 0) :
    r.tokenLoop (pieces.flatMap Piece.spelling ++ rest) .outside st =
      r.endColons st >>= fun st' =>
        r.tokenLoop (pieces.flatMap Piece.spelling ++ rest) .outside st' := by
  obtain ⟨c, tail, spelled, noMarker⟩ := r.spelling_head nonempty valid rest
  rw [spelled, tokenLoop, if_neg noMarker]
  cases ended : r.endColons st with
  | error e => rfl
  | ok st' =>
      rw [ok_bind, ok_bind, tokenLoop, if_neg noMarker, r.endColons_zero (ends st' ended), ok_bind]

end Reader

namespace Token

variable {r : Reader} (token : Token r)

/-- The end of the function, with the variables where the name of the symbol begins. -/
def finish (st : State) : Except (ReadError PackageName) (TokenObject × List Nat) := do
  let x ← r.tokenObject (r.addAll st token.name)
  .ok (x, token.rest)

variable {st : State}

theorem tokenLoop_name (fresh : Reader.Fresh st) :
    r.tokenLoop (token.name.flatMap Piece.spelling ++ token.rest) .outside st =
      .ok (r.addAll st token.name, token.rest) := by
  rw [r.tokenLoop_pieces token.nameValid _ fresh.colon]
  exact r.tokenLoop_delimited token.delimited ((r.kept_addAll st token.name).1.trans fresh.colon)

theorem fresh_initial : Reader.Fresh .initial := ⟨rfl, rfl, rfl, rfl, rfl⟩

theorem fresh_package (package : PackageName) (external : Bool) :
    Reader.Fresh (.inPackage package external) :=
  ⟨rfl, rfl, rfl, rfl, rfl⟩

theorem readToken_none (none : token.package = none) :
    r.readToken token.spelling = token.finish .initial := by
  rw [Reader.readToken, spelling, packageSpelling, none, nil_append,
    token.tokenLoop_name fresh_initial]
  rfl

/-- The variables at the package markers. -/
def atMarkers (r : Reader) (pieces : List Piece) (double : Bool) : State :=
  { r.addAll .initial pieces with colon := markers double }

theorem endColons_package (pieces : List Piece) (double : Bool) :
    r.endColons (atMarkers r pieces double) =
      if r.nameOf pieces = [] then .ok (.inPackage .keyword false)
      else if r.packageExists (r.tokenName (r.addAll .initial pieces)) then
        .ok (.inPackage (.named (r.tokenName (r.addAll .initial pieces)))
          (decide ((markers double : Int) = 1)))
      else .error (.noPackage (r.tokenName (r.addAll .initial pieces))) := by
  have empty : (atMarkers r pieces double).token = [] ↔ r.nameOf pieces = [] := by
    rw [atMarkers, r.token_addAll pieces .initial false, Reader.nameOf, map_eq_nil_iff]
    exact map_eq_nil_iff
  have few : ¬ 2 < (atMarkers r pieces double).colon := by
    show ¬ 2 < (markers double : Int)
    cases double <;> decide
  have some_colon : ¬ (atMarkers r pieces double).colon = 0 := by
    show ¬ (markers double : Int) = 0
    cases double <;> decide
  have name : r.tokenName (atMarkers r pieces double) = r.tokenName (r.addAll .initial pieces) :=
    rfl
  rw [Reader.endColons, if_neg few, if_neg some_colon, name]
  simp only [empty]
  rfl

variable {pieces : List Piece} {double : Bool}

theorem readToken_package (written : token.package = some (pieces, double)) :
    r.readToken token.spelling = r.endColons (atMarkers r pieces double) >>= token.finish := by
  have marker := token.marker (by rw [written]; rfl)
  have valid := token.packageValid (pieces, double) written
  have colon : (r.addAll .initial pieces).colon = 0 := (r.kept_addAll .initial pieces).1
  have start : r.tokenLoop token.spelling .outside .initial =
      r.tokenLoop (token.name.flatMap Piece.spelling ++ token.rest) .outside
        (atMarkers r pieces double) := by
    rw [spelling, packageSpelling, written]
    simp only [append_assoc]
    rw [r.tokenLoop_pieces valid _ rfl, r.tokenLoop_colons marker, colon, Int.zero_add]
    rfl
  have fresh (st : State) (ended : r.endColons (atMarkers r pieces double) = .ok st) :
      Reader.Fresh st := by
    rw [endColons_package] at ended
    split at ended
    · cases ended
      exact fresh_package _ _
    · split at ended
      · cases ended
        exact fresh_package _ _
      · cases ended
  rw [Reader.readToken, start,
    r.tokenLoop_endColons token.nonempty token.nameValid _ fun st ended => (fresh st ended).colon]
  cases ended : r.endColons (atMarkers r pieces double) with
  | error e => rfl
  | ok st =>
    rw [ok_bind, ok_bind, token.tokenLoop_name (fresh st ended)]
    rfl

/-- All packages that are written exist. -/
def Found : Prop :=
  ∀ name, token.packageName = some (.named name) → r.packageExists name = true

theorem finish_symbol (symbol : st.package.isSome ∨ HasEscape token.name) :
    token.finish st = .ok (.symbol (r.tokenName (r.addAll st token.name)) st.package
      (r.addAll st token.name).external, token.rest) := by
  obtain ⟨_, package, _⟩ := r.kept_addAll st token.name
  rw [finish, r.symbol_of_tokenObject, ok_bind, Reader.symbol, package]
  rw [package]
  exact symbol.imp_right fun escape => (r.escapeList_addAll_ne token.name st).mpr (.inl escape)

theorem finish_names {name : List Nat} {package : Option PackageName} {external : Bool}
    {rest : List Nat}
    (read : token.finish st = .ok (.symbol name package external, rest)) :
    name = r.tokenName (r.addAll st token.name) ∧ package = st.package ∧ rest = token.rest := by
  rw [finish, Ecl.Lib.bind_eq_ok] at read
  obtain ⟨x, found, same⟩ := read
  simp only [Except.ok.injEq, Prod.mk.injEq] at same
  obtain ⟨rfl, rfl⟩ := same
  obtain ⟨named, package⟩ := r.tokenObject_symbol found
  exact ⟨named, package.trans (r.kept_addAll st token.name).2.1, rfl⟩

/-- The names of the package and of the symbol are safe. -/
structure CaseSafe : Prop where
  package : ∀ part ∈ token.package, r.CaseSafe part.1
  name : token.Found → r.CaseSafe token.name

/-- When the reader reads the names that are written, without a package that is missing. -/
theorem names_iff (fresh : Reader.Fresh st)
    (same : st.package = token.packageName)
    (some_package : token.package.isSome ↔ st.package.isSome) :
    ((∀ name package external rest,
        token.finish st = .ok (.symbol name package external, rest) →
        name = r.nameOf token.name ∧ package = token.packageName ∧ rest = token.rest) ∧
      (token.package.isSome ∨ HasEscape token.name →
        ∃ name package external,
          token.finish st = .ok (.symbol name package external, token.rest))) ↔
      r.CaseSafe token.name := by
  constructor
  · rintro ⟨names, _⟩
    by_cases symbol : st.package.isSome ∨ HasEscape token.name
    · rw [← r.tokenName_eq_iff fresh]
      exact (names _ _ _ _ (token.finish_symbol symbol)).1
    · exact r.caseSafe_of_bare (not_or.mp symbol).2
  · intro safe
    refine ⟨?_, ?_⟩
    · intro name package external rest read
      obtain ⟨named, package, rest⟩ := token.finish_names read
      exact ⟨named.trans ((r.tokenName_eq_iff fresh).mpr safe), package.trans same, rest⟩
    · rw [some_package]
      exact fun symbol => ⟨_, _, _, token.finish_symbol symbol⟩

theorem caseLaw_iff_none (none : token.package = none) : token.CaseLaw ↔ token.CaseSafe := by
  have name : token.packageName = Option.none := by rw [packageName, none, map_none]
  have found : token.Found := by
    intro written same
    rw [name] at same
    cases same
  have names := token.names_iff fresh_initial name.symm (by rw [none]; rfl)
  rw [← token.readToken_none none] at names
  constructor
  · intro law
    refine ⟨?_, fun _ => names.mp ⟨law.names found, law.symbol found⟩⟩
    intro part written
    rw [none] at written
    cases written
  · intro safe
    have both := names.mpr (safe.name found)
    refine ⟨?_, fun _ => both.1, fun _ => both.2⟩
    intro written same
    rw [name] at same
    cases same

theorem caseLaw_iff_keyword (written : token.package = some (pieces, double))
    (empty : r.nameOf pieces = []) :
    token.CaseLaw ↔ token.CaseSafe := by
  have name : token.packageName = some .keyword := by
    rw [packageName, written, map_some, if_pos empty]
  have found : token.Found := by
    intro other same
    rw [name] at same
    cases same
  have read := token.readToken_package written
  rw [endColons_package, if_pos empty, ok_bind] at read
  have names := token.names_iff (fresh_package .keyword false) name.symm
    (by rw [written]; rfl)
  rw [← read] at names
  constructor
  · intro law
    refine ⟨?_, fun _ => names.mp ⟨law.names found, law.symbol found⟩⟩
    intro part same _ m member
    rw [written, mem_some_iff] at same
    subst same
    rw [map_eq_nil_iff.mp empty] at member
    exact absurd member not_mem_nil
  · intro safe
    have both := names.mpr (safe.name found)
    refine ⟨?_, fun _ => both.1, fun _ => both.2⟩
    intro other same
    rw [name] at same
    cases same

theorem caseLaw_iff_named
    (written : token.package = some (pieces, double)) (nonempty : r.nameOf pieces ≠ []) :
    token.CaseLaw ↔ token.CaseSafe := by
  have name : token.packageName = some (.named (r.nameOf pieces)) := by
    rw [packageName, written, map_some, if_neg nonempty]
  have found : token.Found ↔ r.packageExists (r.nameOf pieces) = true := by
    simp only [Found, name, some.injEq, PackageName.named.injEq, forall_eq']
  have package : r.CaseSafe pieces ↔ r.tokenName (r.addAll .initial pieces) = r.nameOf pieces :=
    (r.tokenName_eq_iff fresh_initial).symm
  have read := token.readToken_package written
  rw [endColons_package, if_neg nonempty] at read
  have marked : token.package.isSome := by
    rw [written]
    rfl
  constructor
  · intro law
    have right : r.tokenName (r.addAll .initial pieces) = r.nameOf pieces := by
      cases exist : r.packageExists (r.nameOf pieces) with
      | false =>
        have missing := law.missing _ name exist
        rw [read] at missing
        split at missing
        · rw [ok_bind, token.finish_symbol (.inl rfl)] at missing
          cases missing
        · exact ReadError.noPackage.inj (Except.error.inj missing)
      | true =>
        obtain ⟨symbol, package, external, reads⟩ := law.symbol (found.mpr exist) (.inl marked)
        have same := (law.names (found.mpr exist) _ _ _ _ reads).2.1
        rw [read] at reads
        split at reads
        · rw [ok_bind] at reads
          have actual := (token.finish_names reads).2.1
          rw [same, name] at actual
          exact PackageName.named.inj (some.inj actual.symm)
        · cases reads
    refine ⟨?_, ?_⟩
    · intro part same
      rw [written, mem_some_iff] at same
      subst same
      exact package.mpr right
    · intro exist
      rw [right, if_pos (found.mp exist), ok_bind] at read
      have names :=
        token.names_iff
        (fresh_package (.named (r.nameOf pieces)) (decide ((markers double : Int) = 1)))
        name.symm (by rw [written]; rfl)
      rw [← read] at names
      exact names.mp ⟨law.names exist, law.symbol exist⟩
  · intro safe
    have right := package.mp (safe.package (pieces, double) written)
    rw [right] at read
    refine ⟨?_, fun exist => ?_, fun exist => ?_⟩
    · intro other same absent
      rw [name, some.injEq, PackageName.named.injEq] at same
      subst same
      rw [read, absent]
      rfl
    all_goals
      rw [if_pos (found.mp exist), ok_bind] at read
      have names :=
        token.names_iff
        (fresh_package (.named (r.nameOf pieces)) (decide ((markers double : Int) = 1)))
        name.symm (by rw [written]; rfl)
      rw [← read] at names
    · exact (names.mpr (safe.name exist)).1
    · exact (names.mpr (safe.name exist)).2

/-- The names that are written are read exactly if they are safe. -/
theorem caseLaw_iff : token.CaseLaw ↔ token.CaseSafe := by
  cases written : token.package with
  | none => exact token.caseLaw_iff_none written
  | some part =>
    by_cases empty : r.nameOf part.1 = []
    · exact token.caseLaw_iff_keyword written empty
    · exact token.caseLaw_iff_named written empty

/-- The standard syntax with :INVERT. -/
def invertReader : Reader where
  ucd := asciiUcd
  syntaxType := readtableGet
  readCase := .invert
  readBase := ⟨10, Nat.le_add_left 2 8, Nat.le_add_left 10 26⟩
  packageExists _ := true

/-- The letter x and, between multiple escapes, the letter y. -/
def escapedToken : Token invertReader where
  package := none
  name := [.bare 'x'.toNat, .multiple '|'.toNat [.plain 'y'.toNat] '|'.toNat]
  rest := []
  nonempty := cons_ne_nil _ _
  packageValid part written := by cases written
  nameValid p member := by
    simp only [mem_cons, not_mem_nil, or_false] at member
    obtain rfl | rfl := member
    · exact ⟨by decide, by decide, by decide⟩
    · refine ⟨by decide, ?_, by decide⟩
      intro i inside
      rw [mem_singleton] at inside
      subst inside
      exact ⟨by decide, by decide⟩
  marker written := by cases written
  delimited c last := by cases last

/-- The symbol with the name XY is read, although the y is escaped. -/
theorem caseLaw_counterexample : ¬ escapedToken.CaseLaw := by
  intro law
  have read : invertReader.readToken escapedToken.spelling =
      .ok (.symbol ['X'.toNat, 'Y'.toNat] none false, []) := rfl
  have names := law.names (fun name same => by cases same) _ _ _ _ read
  exact absurd names.1 (by decide)

end Token

end Ecl.Text.Case
