import Ecl.Text.CaseInvert

/- The loop of the reader over the pieces of a name, and the name that it makes of them. -/
namespace Ecl.Text.Case

open List

open Ecl.Lib (ok_bind)

/-- The variables after a piece. -/
def State.add (r : Reader) (st : State) : Piece → State
  | .bare c => st.constituent r c
  | .single _ c => (st.escape r st.token.length st.token.length).push c
  | .multiple _ inners _ =>
    { st with token := st.token ++ inners.map Inner.char }.escape r st.token.length
      ((st.token.length + inners.length : Nat) - 1)

namespace Reader

variable (r : Reader)

variable {st : State}

theorem endColons_zero (none : st.colon = 0) : r.endColons st = .ok st := by
  rw [endColons, if_neg (by omega), if_pos none]

theorem tokenLoop_inners {inners : List Inner} (valid : ∀ i ∈ inners, i.Valid r)
    (rest : List Nat) (start : Nat) (st : State) :
    r.tokenLoop (inners.flatMap Inner.spelling ++ rest) (.multiple start) st =
      r.tokenLoop rest (.multiple start)
        { st with token := st.token ++ inners.map Inner.char } := by
  induction inners generalizing st with
  | nil => rw [flatMap_nil, nil_append, map_nil, append_nil]
  | cons i inners ih =>
    have others := ih fun i member => valid i (mem_cons_of_mem _ member)
    have first := valid i mem_cons_self
    rw [flatMap_cons, append_assoc, map_cons]
    cases i with
    | plain c =>
      have step : r.tokenLoop (c :: (inners.flatMap Inner.spelling ++ rest)) (.multiple start)
          st = r.tokenLoop (inners.flatMap Inner.spelling ++ rest) (.multiple start)
            (st.push c) := by
        rw [tokenLoop]
        split
        · exact absurd ‹_› first.1
        · exact absurd ‹_› first.2
        · rfl
      rw [Inner.spelling, singleton_append, step, others]
      simp only [State.push, Inner.char, append_assoc, singleton_append]
    | single mark c =>
      have escapes : r.syntaxType mark = .singleEscape := first
      rw [Inner.spelling, cons_append, singleton_append, tokenLoop, escapes]
      simp only
      rw [tokenLoop, others]
      simp only [State.push, Inner.char, append_assoc, singleton_append]

theorem tokenLoop_piece {p : Piece} (valid : p.Valid r) (rest : List Nat) (none : st.colon = 0) :
    r.tokenLoop (p.spelling ++ rest) .outside st = r.tokenLoop rest .outside (st.add r p) := by
  have noMarker {c : Nat} (other : r.syntaxType c ≠ .constituent) :
      ¬ (c = ':'.toNat ∧ r.syntaxType c = .constituent) := fun both => other both.2
  cases p with
  | bare c =>
    obtain ⟨constituent, valid, notColon⟩ := valid
    rw [Piece.spelling, singleton_append, tokenLoop, if_neg fun both => notColon both.1,
      r.endColons_zero none, ok_bind, constituent]
    simp only [valid, Bool.false_eq_true, if_false]
    rfl
  | single mark c =>
    have escapes : r.syntaxType mark = .singleEscape := valid
    rw [Piece.spelling, cons_append, singleton_append, tokenLoop,
      if_neg (noMarker (by rw [escapes]; decide)), r.endColons_zero none, ok_bind, escapes]
    simp only
    rw [tokenLoop]
    rfl
  | multiple first inners last =>
    obtain ⟨opens, valid, closes⟩ := valid
    rw [Piece.spelling, append_assoc, cons_append, tokenLoop,
      if_neg (noMarker (by rw [opens]; decide)), r.endColons_zero none, ok_bind, opens]
    simp only
    rw [r.tokenLoop_inners valid, singleton_append, tokenLoop, closes]
    simp only [State.add, length_append, length_map]

theorem colon_add (st : State) (p : Piece) :
    (st.add r p).colon = st.colon ∧ (st.add r p).package = st.package ∧
      (st.add r p).external = st.external := by
  cases p with
  | bare c =>
    simp only [State.add, State.constituent, State.push]
    split_ifs <;> exact ⟨rfl, rfl, rfl⟩
  | single mark c => exact ⟨rfl, rfl, rfl⟩
  | multiple first inners last => exact ⟨rfl, rfl, rfl⟩

/-- The variables after all pieces of a name. -/
def addAll (st : State) (pieces : List Piece) : State := pieces.foldl (State.add r) st

theorem kept_addAll (st : State) (pieces : List Piece) :
    (r.addAll st pieces).colon = st.colon ∧ (r.addAll st pieces).package = st.package ∧
      (r.addAll st pieces).external = st.external := by
  induction pieces generalizing st with
  | nil => exact ⟨rfl, rfl, rfl⟩
  | cons p pieces ih =>
    obtain ⟨colon, package, external⟩ := r.colon_add st p
    obtain ⟨colon', package', external'⟩ := ih (st.add r p)
    exact ⟨colon'.trans colon, package'.trans package, external'.trans external⟩

variable {pieces : List Piece}

theorem tokenLoop_pieces (valid : ∀ p ∈ pieces, p.Valid r) (rest : List Nat) (none : st.colon = 0) :
    r.tokenLoop (pieces.flatMap Piece.spelling ++ rest) .outside st =
      r.tokenLoop rest .outside (r.addAll st pieces) := by
  induction pieces generalizing st with
  | nil => rfl
  | cons p pieces ih =>
    rw [flatMap_cons, append_assoc,
      r.tokenLoop_piece (valid p mem_cons_self) _ none,
      ih (fun p member => valid p (mem_cons_of_mem _ member))
        ((r.colon_add st p).1.trans none)]
    rfl

/-- The character that the loop stores. -/
def stored (m : Mark) : Nat :=
  if m.escaped then m.char
  else
    match r.readCase with
    | .upcase => r.ucd.charUpcase m.char
    | .downcase => r.ucd.charDowncase m.char
    | _ => m.char

variable {c : Nat}

theorem lower_not_upper (lower : r.ucd.lowerCaseP c = true) : r.ucd.upperCaseP c = false := by
  simp only [Ucd.lowerCaseP, Ucd.upperCaseP, decide_eq_true_iff, decide_eq_false_iff_not] at *
  omega

theorem charUpcase_other (other : r.ucd.lowerCaseP c = false) : r.ucd.charUpcase c = c := by
  simp only [Ucd.lowerCaseP, decide_eq_false_iff_not] at other
  rw [Ucd.charUpcase, if_neg other]

theorem charDowncase_other (other : r.ucd.upperCaseP c = false) : r.ucd.charDowncase c = c := by
  simp only [Ucd.upperCaseP, decide_eq_false_iff_not] at other
  rw [Ucd.charDowncase, if_neg other]

theorem token_constituent (st : State) (c : Nat) (after : Bool) :
    (st.constituent r c).token = st.token ++ [r.stored ⟨c, false, after⟩] := by
  rw [State.constituent, stored]
  cases kind : r.readCase with
  | preserve => rfl
  | invert =>
    simp only [reduceCtorEq, if_false]
    split_ifs <;> rfl
  | upcase =>
    simp only [reduceCtorEq, if_false, if_true, Bool.false_eq_true]
    split_ifs with upper lower
    · have notLower : r.ucd.lowerCaseP c = false := by
        cases lower : r.ucd.lowerCaseP c with
        | false => rfl
        | true => exact absurd upper (by rw [r.lower_not_upper lower]; exact Bool.false_ne_true)
      rw [r.charUpcase_other notLower]
    · rfl
    · rw [r.charUpcase_other (Bool.eq_false_iff.mpr lower), State.push]
  | downcase =>
    simp only [reduceCtorEq, if_false, if_true, Bool.false_eq_true]
    split_ifs with upper lower
    · rfl
    · rw [r.charDowncase_other (Bool.eq_false_iff.mpr upper)]
    · rw [r.charDowncase_other (Bool.eq_false_iff.mpr upper), State.push]

theorem token_addAll (pieces : List Piece) :
    ∀ (st : State) (after : Bool),
      (r.addAll st pieces).token = st.token ++ (marks after pieces).map r.stored := by
  induction pieces with
  | nil => exact fun st _ => (append_nil _).symm
  | cons p pieces ih =>
    intro st after
    have step : r.addAll st (p :: pieces) = r.addAll (st.add r p) pieces := rfl
    rw [step]
    cases p with
    | bare c =>
      rw [ih _ false, State.add, r.token_constituent st c after, marks, map_cons,
        append_assoc, singleton_append]
    | single mark c =>
      rw [ih _ false, marks, map_cons]
      exact append_assoc st.token [c] _
    | multiple first inners last =>
      cases inners with
      | nil =>
        rw [ih _ true, marks]
        exact congrArg (· ++ _) (append_nil st.token)
      | cons inner inners =>
        rw [ih _ false, marks, cons_append, map_cons, map_append,
          map_map]
        exact append_assoc st.token _ _

theorem escapeList_addAll (inverts : r.readCase = .invert) (pieces : List Piece) (st : State) :
    (r.addAll st pieces).escapeList = escapes st.token.length st.escapeList pieces := by
  induction pieces generalizing st with
  | nil => rfl
  | cons p pieces ih =>
    have step : r.addAll st (p :: pieces) = r.addAll (st.add r p) pieces := rfl
    rw [step, ih]
    cases p with
    | bare c =>
      have list : (st.constituent r c).escapeList = st.escapeList := by
        simp only [State.constituent, State.push]
        split_ifs <;> rfl
      rw [State.add, list, r.token_constituent st c false, length_append]
      rfl
    | single mark c =>
      simp only [State.add, State.push, State.escape, if_pos inverts, length_append]
      rfl
    | multiple first inners last =>
      simp only [State.add, State.escape, if_pos inverts, length_append, length_map]
      rfl

theorem escapeList_addAll_ne (pieces : List Piece) (st : State) :
    (r.addAll st pieces).escapeList ≠ .nil ↔
      Token.HasEscape pieces ∨ st.escapeList ≠ .nil := by
  have escaped (st : State) (low high : Int) : (st.escape r low high).escapeList ≠ .nil := by
    simp only [State.escape]
    split <;> exact EscapeList.noConfusion
  induction pieces generalizing st with
  | nil => simp [addAll, Token.HasEscape]
  | cons p pieces ih =>
    have step : r.addAll st (p :: pieces) = r.addAll (st.add r p) pieces := rfl
    rw [step]
    refine (ih (st.add r p)).trans ?_
    have head : Token.HasEscape (p :: pieces) ↔ (∀ c, p ≠ .bare c) ∨ Token.HasEscape pieces := by
      simp only [Token.HasEscape, mem_cons, exists_eq_or_imp]
    rw [head]
    cases p with
    | bare c =>
      have list : (st.constituent r c).escapeList = st.escapeList := by
        simp only [State.constituent, State.push]
        split_ifs <;> rfl
      rw [State.add, list]
      simp
    | single mark c => simp [State.add, State.push, escaped]
    | multiple first inners last => simp [State.add, escaped]

theorem bareChars_after (after : Bool) (pieces : List Piece) :
    ((marks after pieces).filter (!·.escaped)).map Mark.char = bareChars pieces := by
  cases pieces with
  | nil => rfl
  | cons p pieces =>
    cases p with
    | bare c => rfl
    | single mark c => rfl
    | multiple first inners last => cases inners <;> rfl

theorem counts_addAll (kept : r.readCase ≠ .preserve) (pieces : List Piece) (st : State) :
    (r.addAll st pieces).upcase = st.upcase + (bareChars pieces).countP r.ucd.upperCaseP -
        (bareChars pieces).countP r.ucd.lowerCaseP ∧
      (r.addAll st pieces).count = st.count + (bareChars pieces).countP r.ucd.upperCaseP +
        (bareChars pieces).countP r.ucd.lowerCaseP := by
  induction pieces generalizing st with
  | nil => simp [addAll, bareChars, marks]
  | cons p pieces ih =>
    have step : r.addAll st (p :: pieces) = r.addAll (st.add r p) pieces := rfl
    obtain ⟨upcase, count⟩ := ih (st.add r p)
    rw [step, upcase, count]
    cases p with
    | bare c =>
      have chars : bareChars (.bare c :: pieces) = c :: bareChars pieces := rfl
      rw [chars, countP_cons, countP_cons, State.add, State.constituent, if_neg kept]
      cases lower : r.ucd.lowerCaseP c with
      | true =>
        simp only [r.lower_not_upper lower, Bool.false_eq_true, if_false, if_true]
        omega
      | false =>
        cases upper : r.ucd.upperCaseP c with
        | true =>
          simp only [Bool.false_eq_true, if_false, if_true]
          omega
        | false =>
          simp only [Bool.false_eq_true, if_false, State.push]
          omega
    | single mark c => exact ⟨rfl, rfl⟩
    | multiple first inners last =>
      have chars : bareChars (.multiple first inners last :: pieces) = bareChars pieces := by
        cases inners with
        | nil => exact bareChars_after true pieces
        | cons inner inners => simp [bareChars, marks, filter_map, Function.comp_def]
      rw [chars]
      exact ⟨rfl, rfl⟩

/-- The variables where a name begins. -/
structure Fresh (st : State) : Prop where
  token : st.token = []
  colon : st.colon = 0
  escapeList : st.escapeList = .nil
  upcase : st.upcase = 0
  count : st.count = 0

theorem convert_down (ucd : Ucd) (c : Nat) : convert ucd (-1) c = ucd.charDowncase c := by
  simp only [convert, Ucd.charDowncase, Ucd.upperCaseP, decide_eq_true_iff, Int.reduceNeg,
    Int.reduceLT, and_true, and_false, if_false]
  split <;> rfl

theorem convert_up (ucd : Ucd) (c : Nat) : convert ucd 1 c = ucd.charUpcase c := by
  simp only [convert, Ucd.charUpcase, Ucd.lowerCaseP, decide_eq_true_iff, Int.reduceLT, and_true,
    and_false, if_false]
  split <;> rfl

/-- What the function makes of a character of a name with :INVERT. -/
def invertedMark (pieces : List Piece) (m : Mark) : Nat :=
  bif m.afterEmpty then m.char else r.caseOf pieces m.char

theorem invertBufferCase_addAll (inverts : r.readCase = .invert) (fresh : Fresh st) (sign : Int) :
    invertBufferCase r.ucd (r.addAll st pieces).token (r.addAll st pieces).escapeList sign =
      (marks false pieces).map fun m =>
        bif m.afterEmpty then m.char else convert r.ucd sign m.char := by
  have chars : (marks false pieces).map r.stored = (marks false pieces).map Mark.char := by
    refine map_congr_left fun m _ => ?_
    rw [stored, inverts]
    split <;> rfl
  have ordered := @ordered_escapes pieces 0 .nil trivial false
  rw [r.token_addAll pieces st false, fresh.token, nil_append, chars,
    r.escapeList_addAll inverts, fresh.token, fresh.escapeList, invertBufferCase,
    length_map, length_nil, invertLoop_eq _ _ _ _ (ordered.mono (by omega)),
    ← @mapIdx_escapes (convert r.ucd sign) pieces 0 .nil false fun k => (Bool.false_and _).symm]
  apply ext_getElem (by simp)
  intro j inside _
  simp only [length_mapIdx, length_map] at inside
  rw [getElem_mapIdx, getElem_mapIdx, Nat.zero_add]
  cases skipped : (escapes 0 .nil pieces).skips j with
  | true =>
    rw [if_neg (by simp)]
    rfl
  | false =>
    rw [if_pos ⟨by omega, rfl⟩]
    rfl

theorem tokenName_invert (inverts : r.readCase = .invert) (fresh : Fresh st) :
    r.tokenName (r.addAll st pieces) = (marks false pieces).map (r.invertedMark pieces) := by
  obtain ⟨upcase, count⟩ := r.counts_addAll (by rw [inverts]; decide) pieces st
  have noLower : (r.addAll st pieces).upcase = (r.addAll st pieces).count ↔
      ∀ b ∈ bareChars pieces, ¬ r.ucd.lowerCaseP b = true := by
    rw [← countP_eq_zero, upcase, count, fresh.upcase, fresh.count]
    omega
  have noUpper : (r.addAll st pieces).upcase = -(r.addAll st pieces).count ↔
      ∀ b ∈ bareChars pieces, ¬ r.ucd.upperCaseP b = true := by
    rw [← countP_eq_zero, upcase, count, fresh.upcase, fresh.count]
    omega
  have cases (c : Nat) : r.caseOf pieces c =
      if ∀ b ∈ bareChars pieces, ¬ r.ucd.lowerCaseP b then r.ucd.charDowncase c
      else if ∀ b ∈ bareChars pieces, ¬ r.ucd.upperCaseP b then r.ucd.charUpcase c
      else c := by rw [caseOf, inverts]
  rw [tokenName, if_pos inverts]
  split
  · rename_i same
    rw [r.invertBufferCase_addAll inverts fresh]
    refine map_congr_left fun m _ => ?_
    rw [invertedMark, cases, if_pos (noLower.mp same), convert_down]
  · rename_i lower
    split
    · rename_i same
      rw [r.invertBufferCase_addAll inverts fresh]
      refine map_congr_left fun m _ => ?_
      rw [invertedMark, cases, if_neg (mt noLower.mpr lower), if_pos (noUpper.mp same), convert_up]
    · rename_i upper
      rw [r.token_addAll pieces st false, fresh.token, nil_append]
      refine map_congr_left fun m _ => ?_
      rw [invertedMark, cases, if_neg (mt noLower.mpr lower), if_neg (mt noUpper.mpr upper), stored,
        inverts]
      cases m.afterEmpty <;> cases m.escaped <;> rfl

/-- With :INVERT no escaped character changes with the case, unless it comes after multiple
escapes with nothing between them, and no other character that comes after such escapes does. -/
def CaseSafe (pieces : List Piece) : Prop :=
  r.readCase = .invert → ∀ m ∈ marks false pieces, m.escaped ≠ m.afterEmpty →
    r.caseOf pieces m.char = m.char

theorem tokenName_eq_iff (fresh : Fresh st) :
    r.tokenName (r.addAll st pieces) = r.nameOf pieces ↔ r.CaseSafe pieces := by
  by_cases inverts : r.readCase = .invert
  · rw [r.tokenName_invert inverts fresh, nameOf, map_inj_left, CaseSafe,
      forall_prop_of_true inverts]
    refine forall₂_congr fun m _ => ?_
    rw [invertedMark]
    cases m.escaped <;> cases m.afterEmpty <;> simp [eq_comm]
  · refine iff_of_true ?_ fun inverted => absurd inverted inverts
    rw [tokenName, if_neg inverts, r.token_addAll pieces st false, fresh.token, nil_append,
      nameOf]
    refine map_congr_left fun m _ => ?_
    rw [stored, caseOf]
    cases kind : r.readCase with
    | invert => exact absurd kind inverts
    | upcase => rfl
    | downcase => rfl
    | preserve => rfl

theorem caseSafe_of_bare (bare : ¬ Token.HasEscape pieces) : r.CaseSafe pieces := by
  have plain (m : Mark) (member : m ∈ marks false pieces) :
      m.escaped = false ∧ m.afterEmpty = false := by
    induction pieces with
    | nil => exact absurd member not_mem_nil
    | cons p pieces ih =>
      simp only [Token.HasEscape, mem_cons, exists_eq_or_imp, not_or, not_forall,
        not_not] at bare
      obtain ⟨⟨c, rfl⟩, others⟩ := bare
      rw [marks, mem_cons] at member
      obtain rfl | later := member
      · exact ⟨rfl, rfl⟩
      · exact ih others later
  intro _ m member different
  obtain ⟨escaped, after⟩ := plain m member
  exact absurd (escaped.trans after.symm) different

end Reader

end Ecl.Text.Case
