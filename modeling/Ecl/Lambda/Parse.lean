import Ecl.Lambda.Divisions

/- What the loop of si_process_lambda_list accepts from each of its stages. -/
namespace Ecl.Lambda

open Ecl.Lib

/-- The parser comes to its end with some lists. -/
def Heap.Returns (h : Heap) (st : State) (l : Obj) (out : LambdaList) : Prop :=
  ∃ n, h.loop n st l = some (.ok out)

/-- The end of a list, or a place before a lambda list keyword. -/
def Heap.AtKeyword (h : Heap) (l : Obj) : Prop :=
  l = .nil ∨ ∃ a k, l = .cons a ∧ h.car a = .keyword k

section

variable {h : Heap} {st st' : State} {l v init key : Obj} {a : Nat} {out : LambdaList}

theorem Heap.returns_nil : h.Returns st .nil out ↔ st.output = .ok out := by
  constructor
  · rintro ⟨n, hn⟩
    cases n with
    | zero => simp [loop] at hn
    | succ n => simpa [loop] using hn
  · intro hout
    exact ⟨1, by simpa [loop] using hout⟩

theorem Heap.returns_cons :
    h.Returns st (.cons a) out ↔
      ∃ next, h.iterate st a = .ok next ∧ h.Returns next.1 next.2 out := by
  constructor
  · rintro ⟨n, hn⟩
    cases n with
    | zero => simp [loop] at hn
    | succ n =>
      cases hit : h.iterate st a with
      | error e => simp [loop, hit] at hn
      | ok next =>
        simp only [loop, hit] at hn
        exact ⟨next, rfl, n, hn⟩
  · rintro ⟨next, hit, n, hn⟩
    refine ⟨n + 1, ?_⟩
    simp only [loop, hit]
    exact hn

theorem Heap.returns_list (hr : h.Returns st l out) : l = .nil ∨ ∃ a, l = .cons a := by
  obtain ⟨n, hn⟩ := hr
  cases n with
  | zero => simp [loop] at hn
  | succ n => cases l <;> simp_all [loop]

theorem Heap.iterate_plain (plain : (h.car a).Plain) :
    h.iterate st a = (h.parameter st (h.car a) >>= fun st => .ok (st, h.cdr a)) := by
  unfold iterate
  split
  · rename_i hk
    exact absurd hk (plain _)
  · rename_i hk
    exact absurd hk (plain _)
  · rename_i hk
    exact absurd hk (plain _)
  · rename_i hk
    exact absurd hk (plain _)
  · rename_i hk
    exact absurd hk (plain _)
  · rfl

/-- A stage in which the parameters are some entries reads them up to the next keyword. -/
theorem Heap.entries_iff {α : Type} {stage : Stage} {object : α → Obj} {W : α → Prop}
    {add : State → α → State} (kept : ∀ st e, (add st e).stage = st.stage)
    (plain : ∀ e, W e → (object e).Plain)
    (entry : ∀ st v st', st.stage = stage → v.Plain →
      (h.parameter st v = .ok st' ↔ ∃ e, object e = v ∧ W e ∧ add st e = st'))
    (hst : st.stage = stage) :
    h.Returns st l out ↔ ∃ (es : List α) (l' : Obj), h.Segment l (es.map object) l' ∧
      (∀ e ∈ es, W e) ∧ h.AtKeyword l' ∧ h.Returns (es.foldl add st) l' out := by
  constructor
  · rintro ⟨n, hn⟩
    induction n generalizing st l with
    | zero => simp [loop] at hn
    | succ n ih =>
      obtain rfl | ⟨a, rfl⟩ := returns_list ⟨n + 1, hn⟩
      · exact ⟨[], .nil, rfl, by simp, .inl rfl, n + 1, hn⟩
      by_cases hk : ∃ k, h.car a = .keyword k
      · obtain ⟨k, hk⟩ := hk
        exact ⟨[], .cons a, rfl, by simp, .inr ⟨a, k, rfl, hk⟩, n + 1, hn⟩
      have hplain : (h.car a).Plain := fun k h => hk ⟨k, h⟩
      simp only [loop, iterate_plain hplain] at hn
      cases hp : h.parameter st (h.car a) with
      | error e => simp [hp] at hn
      | ok st' =>
        simp only [hp, ok_bind] at hn
        obtain ⟨e, he, we, rfl⟩ := (entry st (h.car a) st' hst hplain).mp hp
        obtain ⟨es, l', segment, wes, atKeyword, returns⟩ := ih ((kept st e).trans hst) hn
        exact ⟨e :: es, l', ⟨a, rfl, he.symm, segment⟩, by simpa using ⟨we, wes⟩, atKeyword,
          returns⟩
  · rintro ⟨es, l', segment, wes, -, returns⟩
    induction es generalizing st l with
    | nil =>
      have same : l = l' := segment
      rwa [same]
    | cons e es ih =>
      obtain ⟨a, rfl, he, segment⟩ := segment
      have we := wes e (by simp)
      have hplain : (h.car a).Plain := by simpa [he] using plain e we
      have hp := (entry st (h.car a) _ hst hplain).mpr ⟨e, he.symm, we, rfl⟩
      refine returns_cons.mpr ⟨(add st e, h.cdr a), by rw [iterate_plain hplain, hp, ok_bind], ?_⟩
      exact ih ((kept st e).trans hst) segment (fun e he => wes e (by simp [he])) returns

theorem Heap.checkVar_ok : h.checkVar v = .ok () ↔ h.Variable v := by
  cases v <;> simp [checkVar, Variable]

theorem Heap.checkFlag_ok {flag : Option Obj} :
    h.checkFlag (flag.getD .nil) = .ok () ↔ h.Flag flag := by
  cases flag with
  | none => simp [checkFlag, Flag]
  | some f =>
    by_cases hf : f = .nil
    · simp [checkFlag, Flag, hf]
    · simp [checkFlag, Flag, hf, checkVar_ok]

theorem Heap.specifier_ok {spp : Obj} :
    h.specifier l = .ok (v, init, spp) ↔
      ∃ flag, h.Specifier l v init flag ∧ flag.getD .nil = spp := by
  constructor
  · intro hs
    unfold specifier at hs
    split at hs
    · rename_i a
      split at hs
      · rename_i hb
        cases hs
        exact ⟨none, .var ⟨a, rfl, rfl, hb⟩, rfl⟩
      · rename_i b hb
        split at hs
        · rename_i hc
          cases hs
          exact ⟨none, .init ⟨a, rfl, rfl, b, hb, rfl, hc⟩, rfl⟩
        · rename_i c hc
          split at hs
          · rename_i hd
            cases hs
            exact ⟨some (h.car c), .flag ⟨a, rfl, rfl, b, hb, rfl, c, hc, rfl, hd⟩, rfl⟩
          · cases hs
          · cases hs
        · cases hs
      · cases hs
    · rename_i atom
      cases hs
      exact ⟨none, .atom atom, rfl⟩
  · rintro ⟨flag, hs, rfl⟩
    cases hs with
    | atom atom => cases l <;> simp_all [specifier]
    | var written =>
      obtain ⟨a, rfl, rfl, hb⟩ := written
      simp only [segment_nil] at hb
      simp [specifier, hb]
    | init written =>
      obtain ⟨a, rfl, rfl, b, hb, rfl, hc⟩ := written
      simp only [segment_nil] at hc
      simp [specifier, hb, hc]
    | flag written =>
      obtain ⟨a, rfl, rfl, b, hb, rfl, c, hc, rfl, hd⟩ := written
      simp only [segment_nil] at hd
      simp [specifier, hb, hc, hd]

theorem Heap.assertTypeSymbol_ok :
    assertTypeSymbol v = .ok () ↔ v.symbolp = true ∧ v ≠ .nil := by
  cases v <;> simp [assertTypeSymbol, Obj.symbolp]

theorem Heap.Variable.symbol (hv : h.Variable v) : v.symbolp = true ∧ v ≠ .nil := by
  cases v <;> simp_all [Variable, Obj.symbolp]

theorem Heap.keyName_ok (hv : h.Variable v) :
    h.keyName l = .ok (key, v) ↔ h.KeyName l key v ∧ key ≠ .nil := by
  constructor
  · intro hk
    unfold keyName at hk
    split at hk
    · rename_i a
      split at hk
      · cases hk
      · rename_i b hb
        split at hk
        · rename_i hc
          obtain ⟨_, _, hk⟩ := bind_eq_ok.mp hk
          obtain ⟨_, hkey, hk⟩ := bind_eq_ok.mp hk
          cases hk
          have symbol := assertTypeSymbol_ok.mp hkey
          exact ⟨.both ⟨a, rfl, rfl, b, hb, rfl, hc⟩ symbol.1, symbol.2⟩
        · cases hk
        · cases hk
      · cases hk
    · cases hk
    · rename_i atom _
      cases hk
      exact ⟨.var atom, by simp⟩
  · rintro ⟨hk, named⟩
    cases hk with
    | var atom => cases l <;> simp_all [keyName, Variable]
    | both written symbol =>
      obtain ⟨a, rfl, rfl, b, hb, rfl, hc⟩ := written
      simp only [segment_nil] at hc
      simp [keyName, hb, hc, assertTypeSymbol_ok.mpr hv.symbol,
        assertTypeSymbol_ok.mpr ⟨symbol, named⟩]

theorem Heap.auxiliary_ok : h.auxiliary l = .ok (v, init) ↔ h.Specifier l v init none := by
  constructor
  · intro hs
    unfold auxiliary at hs
    split at hs
    · rename_i a
      split at hs
      · rename_i hb
        cases hs
        exact .var ⟨a, rfl, rfl, hb⟩
      · rename_i b hb
        split at hs
        · rename_i hc
          cases hs
          exact .init ⟨a, rfl, rfl, b, hb, rfl, hc⟩
        · cases hs
        · cases hs
      · cases hs
    · rename_i atom
      cases hs
      exact .atom atom
  · intro hs
    cases hs with
    | atom atom => cases l <;> simp_all [auxiliary]
    | var written =>
      obtain ⟨a, rfl, rfl, hb⟩ := written
      simp only [segment_nil] at hb
      simp [auxiliary, hb]
    | init written =>
      obtain ⟨a, rfl, rfl, b, hb, rfl, hc⟩ := written
      simp only [segment_nil] at hc
      simp [auxiliary, hb, hc]

end

/- The stages of si_process_lambda_list, from one lambda list keyword to the next. -/

open Ecl.Lib

namespace State

def addRequired (st : State) (v : Obj) : State :=
  { st with nreq := st.nreq + 1, reqs := v :: st.reqs }

def addOptional (st : State) (p : OptParameter) : State :=
  { st with nopt := st.nopt + 1, opts := p.flag.getD .nil :: p.init :: p.var :: st.opts }

def addKey (st : State) (p : KeyParameter) : State :=
  { st with nkey := st.nkey + 1, keys := p.flag.getD .nil :: p.init :: p.var :: p.key :: st.keys }

def addAux (st : State) (p : AuxVariable) : State :=
  { st with auxs := p.init :: p.var :: st.auxs }

/-- The state after a section, at the stage in which the next ones are accepted. -/
def putOpt (st : State) : Option (List OptParameter) → State
  | none => { st with stage := .optionals }
  | some ps => ps.foldl addOptional { st with stage := .optionals }

def putRest (st : State) : Option Obj → State
  | none => { st with stage := .rest }
  | some v => { st with stage := .rest, rest := v }

def putOther (st : State) : Option (List AuxVariable) → State
  | none => { st with stage := .otherKeys }
  | some ps => ps.foldl addAux { st with stage := .otherKeys, allowOtherKeys := true }

def putKey (st : State) : Option (List KeyParameter × Option (List AuxVariable)) → State
  | none => { st with stage := .otherKeys }
  | some (ps, others) =>
    (ps.foldl addKey { st with stage := .keys, keyFlag := true }).putOther others

def putAux (st : State) : Option (List AuxVariable) → State
  | none => st
  | some ps => ps.foldl addAux { st with stage := .auxs }

end State

theorem foldl_stage {α : Type} {add : State → α → State}
    (kept : ∀ st e, (add st e).stage = st.stage) (es : List α) (st : State) :
    (es.foldl add st).stage = st.stage := by
  induction es generalizing st with
  | nil => rfl
  | cons e es ih => exact (ih (add st e)).trans (kept st e)

@[simp] theorem State.putOpt_stage (st : State) (opts : Option (List OptParameter)) :
    (st.putOpt opts).stage = .optionals := by
  cases opts with
  | none => rfl
  | some ps => exact @foldl_stage _ addOptional (fun _ _ => rfl) ps _

@[simp] theorem State.putRest_stage (st : State) (rest : Option Obj) :
    (st.putRest rest).stage = .rest := by
  cases rest <;> rfl

@[simp] theorem State.putOther_stage (st : State) (others : Option (List AuxVariable)) :
    (st.putOther others).stage = .otherKeys := by
  cases others with
  | none => rfl
  | some ps => exact @foldl_stage _ addAux (fun _ _ => rfl) ps _

@[simp] theorem State.putKey_stage (st : State)
    (keys : Option (List KeyParameter × Option (List AuxVariable))) :
    (st.putKey keys).stage = .otherKeys := by
  rcases keys with _ | ⟨ps, others⟩
  · rfl
  · exact State.putOther_stage _ others

section

variable {h : Heap} {st : State} {l : Obj} {out : LambdaList}

theorem Heap.requireds_iff (hst : st.stage = .requireds) :
    h.Returns st l out ↔ ∃ (vs : List Obj) (l' : Obj), h.Segment l vs l' ∧
      (∀ v ∈ vs, v.Plain ∧ h.Variable v) ∧ h.AtKeyword l' ∧
        h.Returns (vs.foldl State.addRequired st) l' out := by
  have entries := @entries_iff h st l out Obj .requireds id (fun v => v.Plain ∧ h.Variable v)
    State.addRequired (fun _ _ => rfl) (fun _ hv => hv.1) ?_ hst
  · simpa using entries
  intro st v st' hst plain
  have branch : h.parameter st v = (h.checkVar v >>= fun _ => .ok (st.addRequired v)) := by
    simp only [parameter, State.addRequired, hst]
  rw [branch]
  constructor
  · intro hp
    obtain ⟨_, hv, hp⟩ := bind_eq_ok.mp hp
    cases hp
    exact ⟨v, rfl, ⟨plain, checkVar_ok.mp hv⟩, rfl⟩
  · rintro ⟨v, rfl, ⟨-, hv⟩, rfl⟩
    simp [checkVar_ok.mpr hv]

theorem Heap.optionals_iff (hst : st.stage = .optionals) :
    h.Returns st l out ↔ ∃ (ps : List OptParameter) (l' : Obj),
      h.Segment l (ps.map OptParameter.object) l' ∧ (∀ p ∈ ps, p.Written h) ∧ h.AtKeyword l' ∧
        h.Returns (ps.foldl State.addOptional st) l' out := by
  refine entries_iff (fun _ _ => rfl) (fun _ hp => hp.plain) ?_ hst
  intro st o st' hst plain
  have branch : h.parameter st o = (h.specifier o >>= fun x => h.checkVar x.1 >>= fun _ =>
      h.checkFlag x.2.2 >>= fun _ =>
        .ok { st with nopt := st.nopt + 1, opts := x.2.2 :: x.2.1 :: x.1 :: st.opts }) := by
    simp only [parameter, hst]
  rw [branch]
  constructor
  · intro hp
    obtain ⟨⟨v, init, spp⟩, hs, hp⟩ := bind_eq_ok.mp hp
    obtain ⟨_, hv, hp⟩ := bind_eq_ok.mp hp
    obtain ⟨_, hf, hp⟩ := bind_eq_ok.mp hp
    cases hp
    obtain ⟨flag, written, rfl⟩ := specifier_ok.mp hs
    exact ⟨⟨o, v, init, flag⟩, rfl, ⟨plain, written, checkVar_ok.mp hv, checkFlag_ok.mp hf⟩, rfl⟩
  · rintro ⟨p, rfl, written, rfl⟩
    rw [specifier_ok.mpr ⟨p.flag, written.specifier, rfl⟩]
    simp [checkVar_ok.mpr written.var, checkFlag_ok.mpr written.flag, State.addOptional]

theorem Heap.keys_iff (hst : st.stage = .keys) :
    h.Returns st l out ↔ ∃ (ps : List KeyParameter) (l' : Obj),
      h.Segment l (ps.map KeyParameter.object) l' ∧ (∀ p ∈ ps, p.Written h ∧ p.key ≠ .nil) ∧
        h.AtKeyword l' ∧ h.Returns (ps.foldl State.addKey st) l' out := by
  refine entries_iff (fun _ _ => rfl) (fun _ hp => hp.1.plain) ?_ hst
  intro st o st' hst plain
  have branch : h.parameter st o = (h.specifier o >>= fun x => h.keyName x.1 >>= fun y =>
      h.checkVar y.2 >>= fun _ => h.checkFlag x.2.2 >>= fun _ =>
        .ok { st with nkey := st.nkey + 1, keys := x.2.2 :: x.2.1 :: y.2 :: y.1 :: st.keys }) := by
    simp only [parameter, hst]
  rw [branch]
  constructor
  · intro hp
    obtain ⟨⟨name, init, spp⟩, hs, hp⟩ := bind_eq_ok.mp hp
    obtain ⟨⟨key, v⟩, hk, hp⟩ := bind_eq_ok.mp hp
    obtain ⟨_, hv, hp⟩ := bind_eq_ok.mp hp
    obtain ⟨_, hf, hp⟩ := bind_eq_ok.mp hp
    cases hp
    obtain ⟨flag, written, rfl⟩ := specifier_ok.mp hs
    have hv := checkVar_ok.mp hv
    have hk := (keyName_ok hv).mp hk
    exact ⟨⟨o, key, v, init, flag⟩, rfl,
      ⟨⟨plain, ⟨name, written, hk.1⟩, hv, checkFlag_ok.mp hf⟩, hk.2⟩, rfl⟩
  · rintro ⟨p, rfl, ⟨written, named⟩, rfl⟩
    obtain ⟨name, hs, hk⟩ := written.specifier
    rw [specifier_ok.mpr ⟨p.flag, hs, rfl⟩]
    simp [(keyName_ok written.var).mpr ⟨hk, named⟩, checkVar_ok.mpr written.var,
      checkFlag_ok.mpr written.flag, State.addKey]

/-- The auxiliary variables, and what comes after &allow-other-keys: both get into the branch
for the other stages. -/
theorem Heap.auxs_iff {stage : Stage} (default : stage = .otherKeys ∨ stage = .auxs)
    (hst : st.stage = stage) :
    h.Returns st l out ↔ ∃ (ps : List AuxVariable) (l' : Obj),
      h.Segment l (ps.map AuxVariable.object) l' ∧ (∀ p ∈ ps, p.Written h) ∧ h.AtKeyword l' ∧
        h.Returns (ps.foldl State.addAux st) l' out := by
  refine entries_iff (fun _ _ => rfl) (fun _ hp => hp.plain) ?_ hst
  intro st o st' hst plain
  have branch : h.parameter st o = (h.auxiliary o >>= fun x =>
      h.checkVar x.1 >>= fun _ => .ok { st with auxs := x.2 :: x.1 :: st.auxs }) := by
    rcases default with rfl | rfl <;> simp only [parameter, hst]
  rw [branch]
  constructor
  · intro hp
    obtain ⟨⟨v, init⟩, hs, hp⟩ := bind_eq_ok.mp hp
    obtain ⟨_, hv, hp⟩ := bind_eq_ok.mp hp
    cases hp
    exact ⟨⟨o, v, init⟩, rfl, ⟨plain, auxiliary_ok.mp hs, checkVar_ok.mp hv⟩, rfl⟩
  · rintro ⟨p, rfl, written, rfl⟩
    rw [auxiliary_ok.mpr written.specifier]
    simp [checkVar_ok.mpr written.var, State.addAux]

theorem Heap.returns_rest (hst : st.stage = .rest) (hr : h.Returns st l out) : h.AtKeyword l := by
  obtain rfl | ⟨a, rfl⟩ := returns_list hr
  · exact .inl rfl
  by_cases hk : ∃ k, h.car a = .keyword k
  · obtain ⟨k, hk⟩ := hk
    exact .inr ⟨a, k, rfl, hk⟩
  obtain ⟨next, hit, _⟩ := returns_cons.mp hr
  rw [iterate_plain fun k h => hk ⟨k, h⟩] at hit
  simp [parameter, hst] at hit

end

end Ecl.Lambda
