import Ecl.Text.NumberToken
import Ecl.Text.Write

/- When a symbol is read back from the text that it is written as. -/
namespace Ecl.Text

open List

open Ecl.Lib (ok_bind bind_eq_ok)
open Ecl.Packages.World (Flag)

/-- A character that is written without escapes and keeps its case. -/
structure Plain (ucd : Ucd) (c : Nat) : Prop where
  bare : Bare c
  notLower : ucd.lowerCaseP c = false

variable {ucd : Ucd}

theorem plain_of_unescaped {s : List Nat} {base : Nat}
    (unescaped : needsToBeEscaped ucd s base = false) : ∀ c ∈ s, Plain ucd c := by
  intro c member
  rw [needsToBeEscaped, Bool.or_eq_false_iff, any_eq_false] at unescaped
  have plain := unescaped.2 c member
  simp only [Bool.or_eq_true, decide_eq_true_iff, not_or, Bool.not_eq_true, ne_eq, not_not]
    at plain
  exact ⟨⟨plain.1.1.1, plain.1.1.2, plain.1.2⟩, plain.2⟩

theorem charUpcase_plain {c : Nat} (plain : Plain ucd c) : ucd.charUpcase c = c := by
  have notLower := plain.notLower
  rw [Ucd.lowerCaseP, decide_eq_false_iff_not] at notLower
  rw [Ucd.charUpcase, if_neg notLower]

theorem charDowncase_upper {c : Nat} (upper : ucd.upperCaseP c = true) :
    Bare (ucd.charDowncase c) ∧ ucd.charUpcase (ucd.charDowncase c) = c := by
  rw [Ucd.upperCaseP, decide_eq_true_iff] at upper
  have ⟨lower, inverse⟩ := ucd.inverse c upper
  rw [Ucd.charDowncase, if_pos upper, Ucd.charUpcase, if_pos lower]
  refine ⟨?_, inverse⟩
  by_cases ascii : ucd.value1 c < 128
  · have range := (ucd.lower _ ascii).mp lower
    exact bare_of_range (by omega)
  · refine ⟨(constituent_iff _).mpr ?_, ?_, ?_⟩
    · simp only [special, mem_cons, not_mem_nil, or_false]
      omega
    · simp only [invalidCharacterP, Bool.or_eq_false_iff, decide_eq_false_iff_not]
      omega
    · simp only [Char.reduceToNat]
      omega

theorem writeCased_plain {s : List Nat} (plain : ∀ c ∈ s, Plain ucd c)
    (printCase : PrintCase) (capitalize : Bool) :
    (∀ c ∈ writeCased ucd printCase capitalize s, Bare c) ∧
      (writeCased ucd printCase capitalize s).map ucd.charUpcase = s := by
  induction s generalizing capitalize with
  | nil => exact ⟨fun c member => absurd member not_mem_nil, rfl⟩
  | cons c s ih =>
    have first := plain c mem_cons_self
    have others := ih fun c member => plain c (mem_cons_of_mem _ member)
    have step {d : Nat} {next : Bool} (bare : Bare d) (same : ucd.charUpcase d = c) :
        (∀ e ∈ d :: writeCased ucd printCase next s, Bare e) ∧
          (d :: writeCased ucd printCase next s).map ucd.charUpcase = c :: s := by
      rw [map_cons, same, (others next).2]
      exact ⟨forall_mem_cons.mpr ⟨bare, (others next).1⟩, rfl⟩
    have kept {next : Bool} := @step c next first.bare (charUpcase_plain first)
    rw [writeCased]
    split
    · rename_i upper
      split
      · have down := charDowncase_upper upper
        exact step down.1 down.2
      · exact kept
    · split
      · exact kept
      · exact kept

variable {Symbol Package : Type} (env : Environment Symbol Package)

/-- The state after the text of a name. -/
def TokenState.add (st : TokenState Package) (s : List Nat) (escape : Bool) :
    TokenState Package :=
  { st with
    token := st.token ++ s
    escaped := st.escaped || escape }

namespace Environment

theorem tokenLoop_escaped (s rest : List Nat) (st : TokenState Package) :
    env.tokenLoop (writeEscaped s ++ '|'.toNat :: rest) .multiple st =
      env.tokenLoop rest .outside (st.add s true) := by
  induction s generalizing st with
  | nil =>
    have bar : readtableGet '|'.toNat = .multipleEscape := by decide
    rw [writeEscaped, nil_append, tokenLoop, bar]
    simp only [TokenState.add, append_nil, Bool.or_true]
  | cons c s ih =>
    have pushed : (st.push c).add s true = st.add (c :: s) true := by
      simp only [TokenState.add, TokenState.push, append_assoc, singleton_append]
    have backslash : readtableGet '\\'.toNat = .singleEscape := by decide
    rw [writeEscaped]
    split
    · rw [cons_append, cons_append, tokenLoop, backslash]
      simp only
      rw [tokenLoop, ih, pushed]
    · rename_i ordinary
      rw [not_or] at ordinary
      have notEscape := not_escape ordinary.1 ordinary.2
      rw [cons_append, tokenLoop]
      split
      · exact absurd ‹_› notEscape.1
      · exact absurd ‹_› notEscape.2
      · rw [ih, pushed]

variable {s : List Nat} {escape : Bool}

theorem tokenLoop_name
    (plain : escape = false → ∀ c ∈ s, Plain env.ucd c) (printCase : PrintCase) (rest : List Nat)
    (st : TokenState Package) (none : st.colon = 0) :
    env.tokenLoop (writeSymbolString env.ucd s printCase escape ++ rest) .outside st =
      env.tokenLoop rest .outside (st.add s escape) := by
  cases escape with
  | true =>
    have bar : readtableGet '|'.toNat = .multipleEscape := by decide
    rw [writeSymbolString, if_pos rfl, cons_append, cons_append, append_assoc,
      singleton_append, tokenLoop, if_neg (by decide), env.endColons_zero none, ok_bind, bar]
    exact env.tokenLoop_escaped s rest st
  | false =>
    obtain ⟨bare, same⟩ := writeCased_plain (plain rfl) printCase true
    rw [writeSymbolString, if_neg Bool.false_ne_true, env.tokenLoop_append bare rest none, same]
    simp only [TokenState.add, Bool.or_false]

theorem name_starts (plain : escape = false → ∀ c ∈ s, Plain env.ucd c) (printCase : PrintCase)
    (nonempty : escape = true ∨ s ≠ []) :
    ∃ c rest, writeSymbolString env.ucd s printCase escape = c :: rest ∧ c ≠ ':'.toNat ∧
      (readtableGet c = .constituent ∨ readtableGet c = .multipleEscape) := by
  cases escape with
  | true =>
    refine ⟨'|'.toNat, writeEscaped s ++ ['|'.toNat], ?_, by decide, .inr (by decide)⟩
    rw [writeSymbolString, if_pos rfl]
    rfl
  | false =>
    have ⟨bare, same⟩ := writeCased_plain (plain rfl) printCase true
    rw [writeSymbolString, if_neg Bool.false_ne_true]
    cases written : writeCased env.ucd printCase true s with
    | nil =>
      rw [written] at same
      exact absurd same.symm (nonempty.resolve_left Bool.false_ne_true)
    | cons c rest =>
      have first := bare c (by rw [written]; exact mem_cons_self)
      exact ⟨c, rest, rfl, first.notColon, .inl first.constituent⟩

theorem readObject_name (plain : escape = false → ∀ c ∈ s, Plain env.ucd c) (printCase : PrintCase)
    (nonempty : escape = true ∨ s ≠ []) :
    env.readObject (writeSymbolString env.ucd s printCase escape) =
      env.tokenObject (TokenState.initial.add s escape) >>= fun x => .ok (some x, []) := by
  have ⟨c, rest, written, _, starts⟩ := env.name_starts plain printCase nonempty
  have loop := env.tokenLoop_name plain printCase [] .initial rfl
  rw [append_nil] at loop
  rw [written, env.readObject_token starts, ← written, loop, tokenLoop, ok_bind]

theorem tokenLoop_colons (n : Nat) (input : List Nat) (st : TokenState Package) :
    env.tokenLoop (List.replicate n ':'.toNat ++ input) .outside st =
      env.tokenLoop input .outside { st with colon := st.colon + n } := by
  induction n generalizing st with
  | zero => rw [replicate_zero, nil_append, Nat.cast_zero, Int.add_zero]
  | succ n ih =>
    have sum : st.colon + 1 + n = st.colon + (n + 1 : Nat) := by omega
    rw [replicate_succ, cons_append, tokenLoop, if_pos rfl, ih, ← sum]

theorem package_starts {package : List Nat}
    (plain : escape = false → ∀ c ∈ package, Plain env.ucd c) (printCase : PrintCase) (n : Nat)
    (rest : List Nat) :
    ∃ c others, writeSymbolString env.ucd package printCase escape ++
        (List.replicate (n + 1) ':'.toNat ++ rest) = c :: others ∧
      (readtableGet c = .constituent ∨ readtableGet c = .multipleEscape) := by
  by_cases nonempty : escape = true ∨ package ≠ []
  · have ⟨c, others, written, _, starts⟩ := env.name_starts plain printCase nonempty
    rw [written]
    exact ⟨c, _, rfl, starts⟩
  · rw [not_or, not_not, Bool.not_eq_true] at nonempty
    rw [nonempty.1, nonempty.2]
    exact ⟨':'.toNat, _, rfl, .inl (by decide)⟩

theorem readObject_package {package : List Nat} {escapePackage : Bool} {p : Package}
    (n : Nat) (external : Bool)
    (plainPackage : escapePackage = false → ∀ c ∈ package, Plain env.ucd c)
    (plain : escape = false → ∀ c ∈ s, Plain env.ucd c) (printCase : PrintCase)
    (nonempty : escape = true ∨ s ≠ [])
    (ends : env.endColons ⟨package, (n + 1 : Nat), none, false, escapePackage⟩ =
      .ok ⟨[], 0, some p, external, false⟩) :
    env.readObject (writeSymbolString env.ucd package printCase escapePackage ++
        (List.replicate (n + 1) ':'.toNat ++ writeSymbolString env.ucd s printCase escape)) =
      env.readSymbol ⟨s, 0, some p, external, escape⟩ >>= fun x => .ok (some x, []) := by
  have ⟨c, rest, written, notColon, _⟩ := env.name_starts plain printCase nonempty
  have ⟨d, others, whole, starts⟩ := env.package_starts plainPackage printCase n
    (writeSymbolString env.ucd s printCase escape)
  have start : (TokenState.initial : TokenState Package).add package escapePackage =
      ⟨package, 0, none, false, escapePackage⟩ := by
    simp only [TokenState.add, TokenState.initial, nil_append, Bool.false_or]
  have loop := env.tokenLoop_name plain printCase [] ⟨[], 0, some p, external, false⟩ rfl
  rw [append_nil, tokenLoop] at loop
  rw [whole, env.readObject_token starts, ← whole,
    env.tokenLoop_name plainPackage printCase _ _ rfl,
    env.tokenLoop_colons, start, Int.zero_add, written,
    env.tokenLoop_endColons notColon rest ends rfl, ← written, loop, ok_bind]
  rfl

structure ReadsAsNumber (token : List Nat) : Prop where
  number : NumberToken env.ucd env.readBase.value token
  first : env.readBase.value ≤ 10 → env.ucd.alphaCharP (token.headD 0) = false

theorem tokenObject_unescaped {token : List Nat} (notDots : allDots token = false) :
    (¬ env.ReadsAsNumber token →
      env.tokenObject ⟨token, 0, none, false, false⟩ =
        env.readSymbol ⟨token, 0, none, false, false⟩) ∧
      (env.ReadsAsNumber token → ∀ s : Symbol,
        env.tokenObject ⟨token, 0, none, false, false⟩ ≠ .ok (.symbol s)) := by
  have nonempty : token ≠ [] := by
    rintro rfl
    exact Bool.false_ne_true notDots.symm
  have notDot : token ≠ ['.'.toNat] := by
    rintro rfl
    exact absurd notDots (by decide)
  have dots : token.all (· = '.'.toNat) = false := notDots
  have isNumber := parseNumber_iff env.ucd env.readBase.le_36 token
  have start : env.tokenObject ⟨token, 0, none, false, false⟩ =
      env.maybeNumber ⟨token, 0, none, false, false⟩ := by
    simp only [tokenObject, Option.isSome_none, Bool.false_eq_true, nonempty, or_self, if_false,
      notDot, dots]
  rw [start, maybeNumber]
  constructor
  · intro noNumber
    split
    · rfl
    · rename_i noLetter
      have refused : ¬ NumberToken env.ucd env.readBase.value token := by
        intro number
        exact noNumber ⟨number, fun small => by simpa [small] using noLetter⟩
      rw [← isNumber] at refused
      cases parsed : parseNumber env.ucd token env.readBase.value with
      | objnull => rfl
      | nil => exact absurd rfl (parsed ▸ refused)
      | fault e => exact absurd rfl (parsed ▸ refused)
      | rational x stop =>
        simp only [parsed, Parsed.isNumber, decide_eq_true_iff] at refused
        simp only [if_neg refused]
      | float stop =>
        simp only [parsed, Parsed.isNumber, decide_eq_true_iff] at refused
        simp only [if_neg refused]
  · intro number s
    have noLetter : ¬ (env.readBase.value ≤ 10 ∧ env.ucd.alphaCharP (token.headD 0) = true) := by
      intro both
      rw [number.first both.1] at both
      exact Bool.false_ne_true both.2
    have accepted := isNumber.mpr number.number
    rw [if_neg noLetter]
    cases parsed : parseNumber env.ucd token env.readBase.value with
    | objnull =>
      rw [parsed] at accepted
      exact absurd accepted Bool.false_ne_true
    | nil => simp
    | fault e => simp
    | rational x stop =>
      simp only [parsed, Parsed.isNumber, decide_eq_true_iff] at accepted
      simp [accepted]
    | float stop =>
      simp only [parsed, Parsed.isNumber, decide_eq_true_iff] at accepted
      simp [accepted]

theorem readSymbol_found {name : List Nat} {p : Package} {x : Symbol} {flag : Flag}
    {external escaped : Bool} (found : env.findSymbol name p = some (x, flag))
    (reachable : external = true → flag = .external) :
    env.readSymbol ⟨name, 0, some p, external, escaped⟩ = .ok (.symbol x) := by
  simp only [readSymbol, Option.getD_some, found]
  exact if_neg fun both => both.2 (reachable both.1)

end Environment

variable [DecidableEq Symbol] [DecidableEq Package] (pr : PrintSymbols Symbol Package)

/-- A symbol is present in its home package, and the package is found by its name. -/
structure Interned (x : Symbol) (p : Package) : Prop where
  home : pr.hpack x = some p
  present : ∃ flag, env.findSymbol (pr.name x) p = some (x, flag) ∧
    (flag = .internal ∨ flag = .external)
  named : env.findPackage (pr.packName p) = some p

/-- If there are bars around the name of a symbol. -/
def PrintSymbols.escaped (x : Symbol) : Bool :=
  needsToBeEscaped env.ucd (pr.name x) env.readBase.value || allDots (pr.name x)

/-- When the text of a symbol is read as that symbol: if it starts with the name of a package,
the name is not empty, and otherwise there are bars around a name that is a number. -/
structure ReadsBack (x : Symbol) (p : Package) : Prop where
  package : p ≠ env.keywordPackage → pr.prefixed env x p = true →
    pr.packName p ≠ [] ∨ ∃ flag, env.findSymbol (pr.name x) env.keywordPackage = some (x, flag)
  name : p ≠ env.keywordPackage → pr.prefixed env x p = false →
    env.ReadsAsNumber (pr.name x) → pr.escaped env x = true

/-- The text after the package. -/
def PrintSymbols.nameText (x : Symbol) : List Nat :=
  writeSymbolString env.ucd (pr.name x) pr.printCase (pr.escaped env x)

section Symbols

variable {env pr}
variable {x : Symbol} {p : Package}

omit [DecidableEq Symbol] [DecidableEq Package] in
theorem escaped_plain (unescaped : pr.escaped env x = false) :
    ∀ c ∈ pr.name x, Plain env.ucd c :=
  plain_of_unescaped (Bool.or_eq_false_iff.mp unescaped).1

omit [DecidableEq Symbol] [DecidableEq Package] in
theorem escaped_or_nonempty : pr.escaped env x = true ∨ pr.name x ≠ [] := by
  by_cases empty : pr.name x = []
  · refine .inl ?_
    rw [PrintSymbols.escaped, empty]
    exact Bool.or_true _
  · exact .inr empty

theorem keyword_read (interned : Interned env pr x p) (keyword : p = env.keywordPackage) :
    ∃ written, pr.writeSymbol env x = .ok written ∧
      env.readObject written = .ok (some (.symbol x), []) := by
  subst keyword
  have ⟨flag, found, _⟩ := interned.present
  refine ⟨':'.toNat :: pr.nameText env x, ?_, ?_⟩
  · rw [PrintSymbols.writeSymbol, PrintSymbols.writePrefix, interned.home]
    simp only [if_true, ok_bind]
    rfl
  · have read := env.readObject_package 0 false
      (fun (_ : false = false) c (member : c ∈ []) => absurd member not_mem_nil)
      (@escaped_plain _ _ env pr x) pr.printCase escaped_or_nonempty rfl
    rw [env.readSymbol_found found Bool.false_ne_true.elim, ok_bind] at read
    exact read

theorem writeSymbol_prefixed (interned : Interned env pr x p) (notKeyword : p ≠ env.keywordPackage)
    (prefixed : pr.prefixed env x p = true) :
    ∃ n < 2, (n = 0 → env.findSymbol (pr.name x) p = some (x, .external)) ∧
      pr.writeSymbol env x = .ok (writeSymbolString env.ucd (pr.packName p) pr.printCase
        (needsToBeEscaped env.ucd (pr.packName p) env.readBase.value) ++
          (List.replicate (n + 1) ':'.toNat ++ pr.nameText env x)) := by
  have ⟨flag, found, kind⟩ := interned.present
  have start : pr.writePrefix env x = pr.writePackage env x p := by
    simp only [PrintSymbols.writePrefix, interned.home, if_neg notKeyword, prefixed, if_true]
  by_cases two : pr.otherPackage p = true ∨ flag = .internal
  · refine ⟨1, by decide, fun zero => absurd zero (by decide), ?_⟩
    simp only [PrintSymbols.writeSymbol, start, PrintSymbols.writePackage, found, ne_eq,
      not_true, if_false, two, if_true, ok_bind, append_assoc]
    rfl
  · obtain rfl : flag = .external := kind.resolve_left (not_or.mp two).2
    refine ⟨0, by decide, fun _ => found, ?_⟩
    simp only [PrintSymbols.writeSymbol, start, PrintSymbols.writePackage, found, ne_eq,
      not_true, if_false, two, if_true, ok_bind, append_assoc]
    rfl

theorem prefixed_read (interned : Interned env pr x p) (notKeyword : p ≠ env.keywordPackage)
    (prefixed : pr.prefixed env x p = true) :
    ∃ written, pr.writeSymbol env x = .ok written ∧
      (env.readObject written = .ok (some (.symbol x), []) ↔
        pr.packName p ≠ [] ∨
          ∃ flag, env.findSymbol (pr.name x) env.keywordPackage = some (x, flag)) := by
  have ⟨flag, found, _⟩ := interned.present
  have ⟨n, small, one, written⟩ := writeSymbol_prefixed interned notKeyword prefixed
  refine ⟨_, written, ?_⟩
  by_cases empty : pr.packName p = []
  · -- the reader takes the colons for those of a keyword
    have ends : env.endColons ⟨[], (n + 1 : Nat), none, false, false⟩ =
        .ok ⟨[], 0, some env.keywordPackage, false, false⟩ := by
      rw [Environment.endColons, if_neg (by show ¬ 2 < ((n + 1 : Nat) : Int); omega),
        if_neg (by show ¬ ((n + 1 : Nat) : Int) = 0; omega)]
      rfl
    have read := env.readObject_package n false
      (fun (_ : false = false) c (member : c ∈ []) => absurd member not_mem_nil)
      (@escaped_plain _ _ env pr x) pr.printCase escaped_or_nonempty ends
    have unescaped : needsToBeEscaped env.ucd [] env.readBase.value = false := rfl
    rw [empty, unescaped, PrintSymbols.nameText, read]
    simp only [ne_eq, not_true, false_or, Environment.readSymbol, Option.getD_some,
      Bool.false_eq_true, false_and, if_false]
    cases env.findSymbol (pr.name x) env.keywordPackage with
    | none => simp
    | some other => simp [Prod.ext_iff]
  · have ends : env.endColons ⟨pr.packName p, (n + 1 : Nat), none, false,
        needsToBeEscaped env.ucd (pr.packName p) env.readBase.value⟩ =
          .ok ⟨[], 0, some p, decide (((n + 1 : Nat) : Int) = 1), false⟩ := by
      rw [Environment.endColons, if_neg (by show ¬ 2 < ((n + 1 : Nat) : Int); omega),
        if_neg (by show ¬ ((n + 1 : Nat) : Int) = 0; omega), if_neg empty, interned.named]
    have read := env.readObject_package n _ (@plain_of_unescaped _ (pr.packName p) _)
      (@escaped_plain _ _ env pr x) pr.printCase escaped_or_nonempty ends
    have reachable : decide (((n + 1 : Nat) : Int) = 1) = true → flag = .external := by
      intro single
      have zero : n = 0 := by
        have := of_decide_eq_true single
        omega
      have external := one zero
      rw [found] at external
      exact congrArg Prod.snd (Option.some.inj external)
    rw [PrintSymbols.nameText, read, env.readSymbol_found found reachable]
    exact iff_of_true rfl (.inl empty)

theorem bare_read (interned : Interned env pr x p) (notKeyword : p ≠ env.keywordPackage)
    (bare : pr.prefixed env x p = false) :
    ∃ written, pr.writeSymbol env x = .ok written ∧
      (env.readObject written = .ok (some (.symbol x), []) ↔
        (env.ReadsAsNumber (pr.name x) → pr.escaped env x = true)) := by
  have text : pr.writeSymbol env x = .ok (pr.nameText env x) := by
    simp only [PrintSymbols.writeSymbol, PrintSymbols.writePrefix, interned.home,
      if_neg notKeyword, bare, Bool.false_eq_true, if_false, ok_bind, nil_append]
    rfl
  have current : ∃ flag, env.findSymbol (pr.name x) env.currentPackage = some (x, flag) := by
    rw [PrintSymbols.prefixed, Bool.or_eq_false_iff] at bare
    cases found : env.findSymbol (pr.name x) env.currentPackage with
    | none => simp [found] at bare
    | some other =>
      have same : other.1 = x := by simpa [found] using bare.2
      exact ⟨other.2, congrArg some (Prod.ext same rfl)⟩
  have ⟨flag, current⟩ := current
  have symbol (escaped : Bool) :
      env.readSymbol ⟨pr.name x, 0, none, false, escaped⟩ = .ok (.symbol x) := by
    simp only [Environment.readSymbol, Option.getD_none, current, Bool.false_eq_true, false_and,
      if_false]
  have read := env.readObject_name (@escaped_plain _ _ env pr x) pr.printCase escaped_or_nonempty
  refine ⟨_, text, ?_⟩
  rw [PrintSymbols.nameText, read]
  have start : (TokenState.initial : TokenState Package).add (pr.name x) (pr.escaped env x) =
      ⟨pr.name x, 0, none, false, pr.escaped env x⟩ := by
    simp only [TokenState.add, TokenState.initial, nil_append, Bool.false_or]
  rw [start]
  cases escaped : pr.escaped env x with
  | true =>
    have object : env.tokenObject ⟨pr.name x, 0, none, false, true⟩ = .ok (.symbol x) := by
      rw [← symbol true]
      exact if_pos (.inr (.inl rfl))
    rw [object]
    exact iff_of_true rfl fun _ => rfl
  | false =>
    have ⟨asSymbol, asNumber⟩ :=
      env.tokenObject_unescaped (Bool.or_eq_false_iff.mp escaped).2
    simp only [Bool.false_eq_true]
    constructor
    · intro same number
      obtain ⟨object, found, same⟩ := bind_eq_ok.mp same
      cases same
      exact asNumber number x found
    · intro noNumber
      rw [asSymbol noNumber, symbol]
      rfl

/-- A symbol is read back from its text if and only if the name of its package is not empty
where it is written, and its name is not written as a number. -/
theorem symbol_round_trip_iff (interned : Interned env pr x p) :
    (∃ written, pr.writeSymbol env x = .ok written ∧
      env.readObject written = .ok (some (.symbol x), [])) ↔ ReadsBack env pr x p := by
  by_cases keyword : p = env.keywordPackage
  · exact iff_of_true (keyword_read interned keyword)
      ⟨fun other => absurd keyword other, fun other => absurd keyword other⟩
  · cases prefixed : pr.prefixed env x p with
    | true =>
      have ⟨text, written, read⟩ := prefixed_read interned keyword prefixed
      constructor
      · intro ⟨text', written', same⟩
        cases written.symm.trans written'
        exact ⟨fun _ _ => read.mp same, fun _ bare => by simp [prefixed] at bare⟩
      · intro back
        exact ⟨text, written, read.mpr (back.package keyword prefixed)⟩
    | false =>
      have ⟨text, written, read⟩ := bare_read interned keyword prefixed
      constructor
      · intro ⟨text', written', same⟩
        cases written.symm.trans written'
        exact ⟨fun _ package => by simp [prefixed] at package, fun _ _ => read.mp same⟩
      · intro back
        exact ⟨text, written, read.mpr (back.name keyword prefixed)⟩

end Symbols

/-- The package P with one symbol, in base ten. -/
def oneSymbol (name : List Nat) : Environment Nat Nat :=
  { emptyEnvironment ⟨10, by decide, by decide⟩ with
    findPackage := fun package => if package = text "P" then some 0 else none
    findSymbol := fun s p => if s = name ∧ p = 0 then some (0, .internal) else none }

def oneName (name : List Nat) : PrintSymbols Nat Nat where
  name _ := name
  hpack _ := some 0
  packName _ := text "P"
  printPackage := none
  printCase := .downcase
  printGensym := true

theorem oneSymbol_interned (name : List Nat) :
    Interned (oneSymbol name) (oneName name) 0 0 where
  home := rfl
  present := ⟨.internal, if_pos ⟨rfl, rfl⟩, .inl rfl⟩
  named := rfl

/-- The symbol |1.E5|. -/
theorem symbol_round_trip_iff_exponent :
    (∃ written, (oneName (text "1.E5")).writeSymbol (oneSymbol (text "1.E5")) 0 = .ok written ∧
      (oneSymbol (text "1.E5")).readObject written = .ok (some (.symbol 0), [])) ↔
      ReadsBack (oneSymbol (text "1.E5")) (oneName (text "1.E5")) 0 0 :=
  symbol_round_trip_iff (oneSymbol_interned _)

/-- The symbol |.5| is written without bars, and read as a number. -/
theorem leading_dot_fails :
    Interned (oneSymbol (text ".5")) (oneName (text ".5")) 0 0 ∧
      ¬ ∃ written, (oneName (text ".5")).writeSymbol (oneSymbol (text ".5")) 0 = .ok written ∧
        (oneSymbol (text ".5")).readObject written = .ok (some (.symbol 0), []) := by
  refine ⟨oneSymbol_interned _, ?_⟩
  rintro ⟨written, write, read⟩
  have text_is : (oneName (text ".5")).writeSymbol (oneSymbol (text ".5")) 0 = .ok (text ".5") :=
    rfl
  have float : (oneSymbol (text ".5")).readObject (text ".5") = .ok (some .float, []) := rfl
  cases text_is.symm.trans write
  cases float.symm.trans read

end Ecl.Text
