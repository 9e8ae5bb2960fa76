import Ecl.Lambda.Parse

/- The lambda lists that si_process_lambda_list and ecl_make_lambda accept. -/
namespace Ecl.Lambda

open Ecl.Lib List

section

variable {h : Heap} {st : State} {l : Obj} {a : Nat} {out : LambdaList}

theorem Heap.Segment.atKeyword {l' : Obj} {xs : List Obj} (segment : h.Segment l xs l')
    (headed : Headed xs) (atKeyword : h.AtKeyword l') : h.AtKeyword l := by
  cases xs with
  | nil =>
    have same : l = l' := segment
    rwa [same]
  | cons x xs =>
    obtain ⟨a, rfl, rfl, _⟩ := segment
    obtain ⟨k, hk⟩ := (headed_cons _ _).mp headed
    exact .inr ⟨a, k, rfl, hk⟩

/-- Where the section of a keyword is left out, the parser goes on as after that section. -/
inductive Skipped : Stage → LambdaKeyword → Stage → Prop where
  | optional : Skipped .requireds .optional .optionals
  | rest : Skipped .optionals .rest .rest
  | key : Skipped .rest .key .otherKeys
  | allowOtherKeys : Skipped .keys .allowOtherKeys .otherKeys

theorem Heap.returns_skipped {stage next : Stage} {k : LambdaKeyword} (hst : st.stage = stage)
    (skipped : Skipped stage k next) (atKeyword : h.AtKeyword l) :
    h.Returns { st with stage := next } l out ↔
      h.Returns st l out ∧ ∀ a, l = .cons a → h.car a ≠ .keyword k := by
  obtain rfl | ⟨a, k', rfl, hk⟩ := atKeyword
  · simp [returns_nil, State.output]
  simp only [returns_cons, Obj.cons.injEq, forall_eq']
  -- The one keyword that the stages treat otherwise is the one of the section.
  cases skipped <;> cases k' <;> simp [iterate, hk, hst, Stage.number]
  intro st' l' hit
  split at hit <;> cases hit

theorem Heap.section_iff {β : Type} {stage next : Stage} {k : LambdaKeyword}
    (part : Option β → List Obj) (put : State → Option β → State) (W : Option β → Prop)
    (hst : st.stage = stage) (skipped : Skipped stage k next) (none_part : part none = [])
    (none_put : put st none = { st with stage := next }) (none_written : W none)
    (some_part : ∀ b, ∃ xs, part (some b) = .keyword k :: xs)
    (opened : ∀ a, h.car a = .keyword k → (h.Returns st (.cons a) out ↔ ∃ b l',
      h.Segment (.cons a) (part (some b)) l' ∧ W (some b) ∧ h.AtKeyword l' ∧
        h.Returns (put st (some b)) l' out))
    (atKeyword : h.AtKeyword l) :
    h.Returns st l out ↔ ∃ o l', h.Segment l (part o) l' ∧ W o ∧ h.AtKeyword l' ∧
      h.Returns (put st o) l' out := by
  constructor
  · intro returns
    by_cases begins : ∃ a, l = .cons a ∧ h.car a = .keyword k
    · obtain ⟨a, rfl, hk⟩ := begins
      obtain ⟨b, l', found⟩ := (opened a hk).mp returns
      exact ⟨some b, l', found⟩
    · have other : ∀ a, l = .cons a → h.car a ≠ .keyword k := fun a hl hk => begins ⟨a, hl, hk⟩
      refine ⟨none, l, by rw [none_part, segment_nil], none_written, atKeyword, ?_⟩
      rw [none_put]
      exact (returns_skipped hst skipped atKeyword).mpr ⟨returns, other⟩
  · rintro ⟨o, l', segment, written, atKeyword', returns⟩
    cases o with
    | none =>
      rw [none_part, segment_nil] at segment
      rw [none_put, ← segment] at returns
      exact ((returns_skipped hst skipped atKeyword).mp returns).1
    | some b =>
      obtain ⟨xs, hpart⟩ := some_part b
      have found := segment
      rw [hpart] at found
      obtain ⟨a, rfl, hk, _⟩ := found
      exact (opened a hk).mpr ⟨b, l', segment, written, atKeyword', returns⟩

theorem Heap.returns_next {next : State × Obj} (hit : h.iterate st a = .ok next) :
    h.Returns st (.cons a) out ↔ h.Returns next.1 next.2 out := by
  simp [returns_cons, hit]

theorem Heap.optional_section (hst : st.stage = .requireds) (atKeyword : h.AtKeyword l) :
    h.Returns st l out ↔ ∃ opts l', h.Segment l (Sections.optPart opts) l' ∧
      (∀ p ∈ opts.getD [], p.Written h) ∧ h.AtKeyword l' ∧ h.Returns (st.putOpt opts) l' out := by
  refine section_iff Sections.optPart State.putOpt (fun opts => ∀ p ∈ opts.getD [], p.Written h)
    hst .optional rfl rfl (by simp) (fun ps => ⟨_, rfl⟩) ?_ atKeyword
  intro a hk
  have hit : h.iterate st a = .ok ({ st with stage := .optionals }, h.cdr a) := by
    simp [iterate, hk, hst, Stage.number]
  rw [returns_next hit, optionals_iff rfl]
  simp [Sections.optPart, State.putOpt, hk]

theorem Heap.rest_section (hst : st.stage = .optionals) (atKeyword : h.AtKeyword l) :
    h.Returns st l out ↔ ∃ rest l', h.Segment l (Sections.restPart rest) l' ∧ True ∧
      h.AtKeyword l' ∧ h.Returns (st.putRest rest) l' out := by
  refine section_iff Sections.restPart State.putRest (fun _ => True)
    hst .rest rfl rfl trivial (fun v => ⟨_, rfl⟩) ?_ atKeyword
  intro a hk
  cases hb : h.cdr a with
  | cons b =>
    have hit : h.iterate st a = .ok ({ st with stage := .rest, rest := h.car b }, h.cdr b) := by
      simp [iterate, hk, hst, hb, Stage.number]
    rw [returns_next hit]
    simp only [Sections.restPart, State.putRest, segment_cons, segment_nil, Obj.cons.injEq]
    constructor
    · intro returns
      exact ⟨h.car b, h.cdr b, ⟨a, rfl, hk, b, hb, rfl, rfl⟩, trivial, returns_rest rfl returns,
        returns⟩
    · rintro ⟨v, l', ⟨a', rfl, -, b', hb', rfl, rfl⟩, -, -, returns⟩
      rw [hb] at hb'
      cases hb'
      exact returns
  | _ => simp [returns_cons, iterate, hk, hb, Sections.restPart]

theorem Heap.other_section (hst : st.stage = .keys) (atKeyword : h.AtKeyword l) :
    h.Returns st l out ↔ ∃ others l', h.Segment l (Sections.otherPart others) l' ∧
      (∀ p ∈ others.getD [], p.Written h) ∧ h.AtKeyword l' ∧
        h.Returns (st.putOther others) l' out := by
  refine section_iff Sections.otherPart State.putOther
    (fun others => ∀ p ∈ others.getD [], p.Written h)
    hst .allowOtherKeys rfl rfl (by simp) (fun ps => ⟨_, rfl⟩) ?_ atKeyword
  intro a hk
  have hit : h.iterate st a =
      .ok ({ st with stage := .otherKeys, allowOtherKeys := true }, h.cdr a) := by
    simp [iterate, hk, hst]
  rw [returns_next hit, auxs_iff (.inl rfl) rfl]
  simp [Sections.otherPart, State.putOther, hk]

/-- The keyword parameters that are accepted, with what comes after &allow-other-keys. -/
def Heap.KeysWritten (h : Heap) (keys : Option (List KeyParameter × Option (List AuxVariable))) :
    Prop :=
  (∀ p ∈ (keys.map Prod.fst).getD [], p.Written h ∧ p.key ≠ .nil) ∧
    ∀ p ∈ (keys.bind Prod.snd).getD [], p.Written h

theorem Heap.key_section (hst : st.stage = .rest) (atKeyword : h.AtKeyword l) :
    h.Returns st l out ↔ ∃ keys l', h.Segment l (Sections.keyPart keys) l' ∧
      h.KeysWritten keys ∧ h.AtKeyword l' ∧ h.Returns (st.putKey keys) l' out := by
  refine section_iff Sections.keyPart State.putKey h.KeysWritten
    hst .key rfl rfl (by simp [KeysWritten]) (fun ps => ⟨_, rfl⟩) ?_ atKeyword
  intro a hk
  have hit : h.iterate st a = .ok ({ st with stage := .keys, keyFlag := true }, h.cdr a) := by
    simp [iterate, hk, hst, Stage.number]
  rw [returns_next hit, keys_iff rfl]
  constructor
  · rintro ⟨ps, m, segment, written, atKeyword, returns⟩
    rw [other_section (@foldl_stage _ State.addKey (fun _ _ => rfl) ps _) atKeyword] at returns
    obtain ⟨others, l', segment', written', atKeyword', returns⟩ := returns
    refine ⟨(ps, others), l', ⟨a, rfl, hk, ?_⟩, ⟨written, written'⟩, atKeyword', returns⟩
    exact segment_append.mpr ⟨m, segment, segment'⟩
  · rintro ⟨⟨ps, others⟩, l', ⟨a', same, -, segment⟩, ⟨written, written'⟩, atKeyword', returns⟩
    cases same
    obtain ⟨m, segment, segment'⟩ := segment_append.mp segment
    have atKeyword := segment'.atKeyword (headed_otherPart others) atKeyword'
    refine ⟨ps, m, segment, written, atKeyword, ?_⟩
    rw [other_section (@foldl_stage _ State.addKey (fun _ _ => rfl) ps _) atKeyword]
    exact ⟨others, l', segment', written', atKeyword', returns⟩

theorem Heap.not_iterate_late {k : LambdaKeyword} {next : State × Obj}
    (hk : h.car a = .keyword k) (late : st.stage = .auxs ∨ st.stage = .otherKeys ∧ k ≠ .aux) :
    h.iterate st a ≠ .ok next := by
  intro hit
  rcases late with hst | ⟨hst, other⟩
  · cases k <;> simp [iterate, hk, hst, Stage.number] at hit
    split at hit <;> cases hit
  · cases k <;> simp [iterate, hk, hst, Stage.number] at hit other
    split at hit <;> cases hit

theorem Heap.aux_section (hst : st.stage = .otherKeys) (atKeyword : h.AtKeyword l) :
    h.Returns st l out ↔ ∃ auxs, h.ListOf l (Sections.auxPart auxs) ∧
      (∀ p ∈ auxs.getD [], p.Written h) ∧ (st.putAux auxs).output = .ok out := by
  obtain rfl | ⟨a, k, rfl, hk⟩ := atKeyword
  · rw [returns_nil]
    constructor
    · intro output
      exact ⟨none, rfl, by simp, output⟩
    · rintro ⟨auxs, list, -, output⟩
      cases auxs with
      | none => exact output
      | some ps => simp [ListOf, Sections.auxPart] at list
  cases k with
  | aux =>
    have hit : h.iterate st a = .ok ({ st with stage := .auxs }, h.cdr a) := by
      simp [iterate, hk, hst, Stage.number]
    rw [returns_next hit, auxs_iff (.inr rfl) rfl]
    constructor
    · rintro ⟨ps, l', segment, written, atKeyword, returns⟩
      -- After &aux no keyword is left that could come.
      obtain rfl | ⟨b, k, rfl, hb⟩ := atKeyword
      · exact ⟨some ps, ⟨a, rfl, hk, segment⟩, written, returns_nil.mp returns⟩
      · have stage := @foldl_stage _ State.addAux (fun _ _ => rfl) ps { st with stage := .auxs }
        obtain ⟨next, hit, _⟩ := returns_cons.mp returns
        exact absurd hit (not_iterate_late hb (.inl stage))
    · rintro ⟨auxs, list, written, output⟩
      cases auxs with
      | none => simp [ListOf, Sections.auxPart] at list
      | some ps =>
        obtain ⟨a', same, -, segment⟩ := list
        cases same
        exact ⟨ps, .nil, segment, written, .inl rfl, returns_nil.mpr output⟩
  | _ =>
    constructor
    · intro returns
      obtain ⟨next, hit, _⟩ := returns_cons.mp returns
      exact absurd hit (not_iterate_late hk (.inr ⟨hst, by simp⟩))
    · rintro ⟨auxs, list, -, -⟩
      cases auxs with
      | none => simp [ListOf, Sections.auxPart] at list
      | some ps =>
        obtain ⟨a', same, found, _⟩ := list
        cases same
        simp [hk] at found

/-- The state at the end of a list with some sections. -/
def Sections.state (s : Sections) : State :=
  ((((s.reqs.foldl State.addRequired .initial).putOpt s.opts).putRest s.rest).putKey s.keys).putAux
    s.auxs

/-- The parser accepts what can be divided into sections, when the keywords have names. -/
theorem Heap.parse_iff : h.Returns .initial l out ↔
    ∃ s, h.Divided l s ∧ (∀ p ∈ s.keyParameters, p.key ≠ .nil) ∧ s.state.output = .ok out := by
  have initial := @foldl_stage _ State.addRequired (fun _ _ => rfl)
  rw [requireds_iff rfl]
  constructor
  · rintro ⟨reqs, l₁, reqsAt, hreqs, at₁, returns⟩
    rw [optional_section (initial reqs .initial) at₁] at returns
    obtain ⟨opts, l₂, optsAt, hopts, at₂, returns⟩ := returns
    rw [rest_section (State.putOpt_stage _ _) at₂] at returns
    obtain ⟨rest, l₃, restAt, -, at₃, returns⟩ := returns
    rw [key_section (State.putRest_stage _ _) at₃] at returns
    obtain ⟨keys, l₄, keysAt, hkeys, at₄, returns⟩ := returns
    rw [aux_section (State.putKey_stage _ _) at₄] at returns
    obtain ⟨auxs, auxsAt, hauxs, output⟩ := returns
    refine ⟨⟨reqs, opts, rest, keys, auxs⟩, ⟨?_, ?_⟩, fun p hp => (hkeys.1 p hp).2, output⟩
    · exact segment_append.mpr ⟨l₁, reqsAt, segment_append.mpr ⟨l₂, optsAt,
        segment_append.mpr ⟨l₃, restAt, segment_append.mpr ⟨l₄, keysAt, auxsAt⟩⟩⟩⟩
    · exact ⟨hreqs, hopts, fun p hp => (hkeys.1 p hp).1, hkeys.2, hauxs⟩
  · rintro ⟨⟨reqs, opts, rest, keys, auxs⟩, ⟨list, valid⟩, named, output⟩
    obtain ⟨l₁, reqsAt, list⟩ := segment_append.mp list
    obtain ⟨l₂, optsAt, list⟩ := segment_append.mp list
    obtain ⟨l₃, restAt, list⟩ := segment_append.mp list
    obtain ⟨l₄, keysAt, auxsAt⟩ := segment_append.mp list
    have at₄ := auxsAt.atKeyword (headed_auxPart auxs) (.inl rfl)
    have at₃ := keysAt.atKeyword (headed_keyPart keys) at₄
    have at₂ := restAt.atKeyword (headed_restPart rest) at₃
    have at₁ := optsAt.atKeyword (headed_optPart opts) at₂
    refine ⟨reqs, l₁, reqsAt, valid.reqs, at₁, ?_⟩
    rw [optional_section (initial reqs .initial) at₁]
    refine ⟨opts, l₂, optsAt, valid.opts, at₂, ?_⟩
    rw [rest_section (State.putOpt_stage _ _) at₂]
    refine ⟨rest, l₃, restAt, trivial, at₃, ?_⟩
    rw [key_section (State.putRest_stage _ _) at₃]
    refine ⟨keys, l₄, keysAt, ⟨fun p hp => ⟨valid.keys p hp, named p hp⟩, valid.others⟩, at₄, ?_⟩
    rw [aux_section (State.putKey_stage _ _) at₄]
    exact ⟨auxs, auxsAt, valid.auxs, output⟩

end

section

variable (st : State)

theorem State.foldl_addRequired (vs : List Obj) : vs.foldl addRequired st =
    { st with nreq := st.nreq + vs.length, reqs := vs.reverse ++ st.reqs } := by
  induction vs generalizing st with
  | nil => simp
  | cons v vs ih => simp [ih, addRequired, Nat.add_assoc, Nat.add_comm 1]

theorem State.foldl_addOptional (ps : List OptParameter) : ps.foldl addOptional st =
    { st with
      nopt := st.nopt + ps.length
      opts := (ps.flatMap fun p => [p.var, p.init, p.flag.getD .nil]).reverse ++ st.opts } := by
  induction ps generalizing st with
  | nil => simp
  | cons p ps ih => simp [ih, addOptional, Nat.add_assoc, Nat.add_comm 1]

theorem State.foldl_addKey (ps : List KeyParameter) : ps.foldl addKey st =
    { st with
      nkey := st.nkey + ps.length
      keys :=
        (ps.flatMap fun p => [p.key, p.var, p.init, p.flag.getD .nil]).reverse ++ st.keys } := by
  induction ps generalizing st with
  | nil => simp
  | cons p ps ih => simp [ih, addKey, Nat.add_assoc, Nat.add_comm 1]

theorem State.foldl_addAux (ps : List AuxVariable) : ps.foldl addAux st =
    { st with auxs := (ps.flatMap fun p => [p.var, p.init]).reverse ++ st.auxs } := by
  induction ps generalizing st with
  | nil => simp
  | cons p ps ih => simp [ih, addAux]

theorem State.putOpt_eq (opts : Option (List OptParameter)) : st.putOpt opts =
    { (opts.getD []).foldl addOptional st with stage := .optionals } := by
  cases opts <;> simp [putOpt, foldl_addOptional]

theorem State.putRest_eq (rest : Option Obj) : st.putRest rest =
    { st with stage := .rest, rest := rest.getD st.rest } := by
  cases rest <;> simp [putRest]

theorem State.putOther_eq (others : Option (List AuxVariable)) : st.putOther others =
    { (others.getD []).foldl addAux st with
      stage := .otherKeys
      allowOtherKeys := others.isSome || st.allowOtherKeys } := by
  cases others <;> simp [putOther, foldl_addAux]

theorem State.putAux_output (auxs : Option (List AuxVariable)) :
    (st.putAux auxs).output = ((auxs.getD []).foldl addAux st).output := by
  cases auxs with
  | none => rfl
  | some ps => simp [putAux, foldl_addAux, output]

end

theorem Sections.state_output (s : Sections) : s.state.output =
    if callArgumentsLimit ≤ s.count then .error .tooLong else .ok s.lists := by
  obtain ⟨reqs, opts, rest, keys, auxs⟩ := s
  simp only [state, State.putAux_output, State.putOpt_eq, State.putRest_eq, State.foldl_addRequired,
    State.foldl_addOptional, State.foldl_addAux]
  rcases keys with _ | ⟨keys, others⟩
  · simp [State.putKey, State.output, State.initial, count, lists, keyParameters, Sections.others]
  · simp [State.putKey, State.putOther_eq, State.foldl_addKey, State.foldl_addAux, State.output,
      State.initial, count, lists, keyParameters, Sections.others]

section

variable {h : Heap} {l : Obj}

theorem optVariables_flatMap (ps : List OptParameter) :
    optVariables (ps.flatMap fun p => [p.var, p.init, p.flag.getD .nil]) =
      ps.flatMap fun p =>
        if p.flag.getD .nil = .nil then [p.var] else [p.flag.getD .nil, p.var] := by
  induction ps with
  | nil => rfl
  | cons p ps ih => simpa [optVariables] using ih

theorem keyVariables_flatMap (ps : List KeyParameter) :
    keyVariables (ps.flatMap fun p => [p.key, p.var, p.init, p.flag.getD .nil]) =
      ps.flatMap fun p =>
        if p.flag.getD .nil = .nil then [p.var] else [p.flag.getD .nil, p.var] := by
  induction ps with
  | nil => rfl
  | cons p ps ih => simpa [keyVariables] using ih

theorem auxVariables_flatMap (ps : List AuxVariable) :
    auxVariables (ps.flatMap fun p => [p.var, p.init]) = ps.map AuxVariable.var := by
  induction ps with
  | nil => rfl
  | cons p ps ih => simpa [auxVariables] using ih

theorem Heap.flag_symbols {v x : Obj} {flag : Option Obj} (hv : h.Variable v) (hf : h.Flag flag)
    (hx : x ∈ (if flag.getD .nil = .nil then [v] else [flag.getD .nil, v])) :
    x.symbolp = true := by
  have symbol := hv.symbol.1
  rcases flag with _ | f
  · simp_all
  · rcases hf f rfl with rfl | hf
    · simp_all
    · have flagSymbol := hf.symbol
      simp_all
      rcases hx with rfl | rfl <;> simp [*]

theorem Sections.Valid.symbols {s : Sections} (valid : s.Valid h) :
    (∀ v ∈ s.lists.variables, v.symbolp = true) ↔ ∀ v ∈ s.rest, v.symbolp = true := by
  have reqs : ∀ v ∈ s.reqs, v.symbolp = true := fun v hv => (valid.reqs v hv).2.symbol.1
  have opts : ∀ v ∈ optVariables s.lists.opts.2, v.symbolp = true := by
    intro v hv
    rw [lists, optVariables_flatMap, mem_flatMap] at hv
    obtain ⟨p, hp, hv⟩ := hv
    exact Heap.flag_symbols (valid.opts p hp).var (valid.opts p hp).flag hv
  have keys : ∀ v ∈ keyVariables s.lists.keys.2, v.symbolp = true := by
    intro v hv
    rw [lists, keyVariables_flatMap, mem_flatMap] at hv
    obtain ⟨p, hp, hv⟩ := hv
    exact Heap.flag_symbols (valid.keys p hp).var (valid.keys p hp).flag hv
  have auxs : ∀ v ∈ auxVariables s.lists.auxs, v.symbolp = true := by
    intro v hv
    rw [lists, auxVariables_flatMap, mem_map] at hv
    obtain ⟨p, hp, rfl⟩ := hv
    rcases mem_append.mp hp with hp | hp
    · exact (valid.others p hp).var.symbol.1
    · exact (valid.auxs p hp).var.symbol.1
  have rest : (∀ v ∈ (if s.lists.rest = .nil then [] else [s.lists.rest]), v.symbolp = true) ↔
      ∀ v ∈ s.rest, v.symbolp = true := by
    rcases s.rest.eq_none_or_eq_some with hr | ⟨v, hr⟩
    · simp [lists, hr]
    · by_cases hv : v = .nil
      · simp [lists, hr, hv, Obj.symbolp]
      · simp [lists, hr, hv]
  rw [← rest]
  constructor
  · intro all v hv
    exact all v (by simp [LambdaList.variables, hv])
  · intro symbol v hv
    simp only [LambdaList.variables, mem_append] at hv
    rcases hv with (((hv | hv) | hv) | hv) | hv
    · exact reqs v hv
    · exact opts v hv
    · exact symbol v hv
    · split at hv
      · exact keys v hv
      · cases hv
    · exact auxs v hv

theorem Heap.accepts_iff {list : LambdaList} : h.Accepts l list ↔
    ∃ s, h.Divided l s ∧ s.Accepted ∧ list = s.lists := by
  constructor
  · rintro ⟨returns, symbols⟩
    obtain ⟨s, divided, named, output⟩ := parse_iff.mp returns
    rw [Sections.state_output] at output
    split at output
    · cases output
    · rename_i few
      cases output
      exact ⟨s, divided, ⟨by omega, divided.2.symbols.mp symbols, named⟩, rfl⟩
  · rintro ⟨s, divided, accepted, rfl⟩
    refine ⟨parse_iff.mpr ⟨s, divided, accepted.keys, ?_⟩, divided.2.symbols.mpr accepted.rest⟩
    have few := accepted.few
    rw [Sections.state_output, if_neg (by omega)]

/-- A list in sections that is treated as it should: if it is ordinary, then no keyword is NIL,
and if it is not, then there are too many parameters, the rest parameter is no symbol or a keyword
is NIL. -/
structure Sections.Treated (h : Heap) (s : Sections) : Prop where
  ordinary : s.Ordinary h → ∀ p ∈ s.keyParameters, p.key ≠ .nil
  irregular : ¬s.Ordinary h → callArgumentsLimit ≤ s.count ∨
    (∃ v ∈ s.rest, v.symbolp = false) ∨ ∃ p ∈ s.keyParameters, p.key = .nil

theorem Sections.treated_iff {s : Sections} : s.Treated h ↔ (s.Accepted ↔ s.Ordinary h) := by
  constructor
  · intro treated
    constructor
    · intro accepted
      by_contra irregular
      rcases treated.irregular irregular with many | ⟨v, hv, atom⟩ | ⟨p, hp, hk⟩
      · have few := accepted.few
        omega
      · simp [accepted.rest v hv] at atom
      · exact accepted.keys p hp hk
    · intro ordinary
      exact ⟨ordinary.few, fun v hv => (ordinary.rest v hv).symbol.1, treated.ordinary ordinary⟩
  · intro same
    constructor
    · intro ordinary
      exact (same.mpr ordinary).keys
    · intro irregular
      by_contra nothing
      simp only [not_or, not_exists, not_and] at nothing
      obtain ⟨few, symbol, named⟩ := nothing
      exact irregular (same.mp ⟨by omega, fun v hv => by simpa using symbol v hv, named⟩)

/-- The parser accepts the ordinary lambda lists, as far as the sections of a list are
treated as they should. -/
theorem Heap.lambdaLaw_iff (h : Heap) (l : Obj) :
    h.LambdaLaw l ↔ ∀ s, h.Divided l s → s.Treated h := by
  constructor
  · intro law s divided
    refine Sections.treated_iff.mpr ⟨fun accepted => ?_, fun ordinary => ?_⟩
    · obtain ⟨s', divided', ordinary, _⟩ :=
        (law s.lists).mp (accepts_iff.mpr ⟨s, divided, accepted, rfl⟩)
      rwa [divided_unique divided divided']
    · obtain ⟨s', divided', accepted, _⟩ :=
        accepts_iff.mp ((law s.lists).mpr ⟨s, divided, ordinary, rfl⟩)
      rwa [divided_unique divided divided']
  · intro treated list
    rw [accepts_iff]
    constructor
    · rintro ⟨s, divided, accepted, same⟩
      exact ⟨s, divided, (Sections.treated_iff.mp (treated s divided)).mp accepted, same⟩
    · rintro ⟨s, divided, ordinary, same⟩
      exact ⟨s, divided, (Sections.treated_iff.mp (treated s divided)).mpr ordinary, same⟩

end

/-- The list (&key &allow-other-keys x): X becomes an auxiliary variable. -/
def strayList : Heap where
  car
    | 0 => .keyword .key
    | 1 => .keyword .allowOtherKeys
    | _ => .symbol 0
  cdr
    | 0 => .cons 1
    | 1 => .cons 2
    | _ => .nil
  constant := fun _ => false
  keywordNamed := fun _ => 0

def strayResult : LambdaList where
  reqs := (0, [])
  opts := (0, [])
  rest := .nil
  keyFlag := true
  keys := (0, [])
  allowOtherKeys := true
  auxs := [.symbol 0, .nil]

def straySections : Sections where
  reqs := []
  opts := none
  rest := none
  keys := some ([], some [⟨.symbol 0, .symbol 0, .nil⟩])
  auxs := none

theorem stray_accepted : strayList.Accepts (.cons 0) strayResult :=
  ⟨⟨4, by decide⟩, by decide⟩

theorem stray_divided : strayList.Divided (.cons 0) straySections := by
  constructor
  · exact ⟨0, rfl, rfl, 1, rfl, rfl, 2, rfl, rfl, rfl⟩
  · constructor <;> simp [straySections, Sections.keyParameters, Sections.others]
    constructor
    · simp
    · exact .atom (by simp)
    · rfl

theorem lambdaLaw_counterexample : ¬strayList.LambdaLaw (.cons 0) := by
  intro law
  obtain ⟨s, divided, ordinary, _⟩ := (law strayResult).mp stray_accepted
  rw [Heap.divided_unique divided stray_divided] at ordinary
  have empty := ordinary.others _ rfl
  simp at empty

end Ecl.Lambda
