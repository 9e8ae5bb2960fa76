import Ecl.Predlib.Coherence

/- The two functions with records that are valid, and histories of calls. -/
namespace Ecl.Predlib

open Ecl.Lib Datum

variable {Obj α β : Type} [DecidableEq Obj] {image : Image Obj} {depth : Nat}
  {w : World Obj} {t1 t2 : Datum Obj}

variable (image depth) in
/-- The call returns what it returns with empty caches, and leaves valid records. -/
structure Agrees (x : Toplevel Obj α) (w : World Obj) : Prop where
  result : (x w).1 = (x (.start w.tables)).1
  valid : (x w).2.Valid image depth
  tables : (x w).2.tables = w.tables

theorem Agrees.of_returns {x : Toplevel Obj α} {outcome : Outcome Obj α} {w' : World Obj}
    (returns : x w = (outcome, w')) (start : (x (.start w.tables)).1 = outcome)
    (valid : w'.Valid image depth) (tables : w'.tables = w.tables) :
    Agrees image depth x w := by
  constructor
  · rw [returns, start]
  · rw [returns]
    exact valid
  · rw [returns]
    exact tables

omit [DecidableEq Obj] in
theorem Toplevel.map_apply (x : Toplevel Obj α) (f : α → β) (w : World Obj) :
    (x >>= fun a => pure (f a)) w = ((x w).1 >>= fun a => pure (f a), (x w).2) := by
  show Toplevel.bind x _ w = _
  rw [Toplevel.bind]
  rcases x w with ⟨result, w'⟩
  cases result <;> rfl

theorem Agrees.map {x : Toplevel Obj α} (agrees : Agrees image depth x w) (f : α → β) :
    Agrees image depth (x >>= fun a => pure (f a)) w where
  result := by
    rw [Toplevel.map_apply, Toplevel.map_apply, agrees.result]
  valid := by
    rw [Toplevel.map_apply]
    exact agrees.valid
  tables := by
    rw [Toplevel.map_apply]
    exact agrees.tables

theorem subtypepWith_of_indirect {m : Type → Type} [Monad m]
    (subclassp : ClassId → ClassId → m Bool)
    (find : m (Option (Bool × Bool))) (compare : m (Bool × Bool)) (store : Bool × Bool → m Unit)
    (indirect : direct t1 t2 = false) :
    subtypepWith subclassp find compare store t1 t2 = (do
      match ← find with
      | some values => return values
      | none =>
        let values ← compare
        store values
        return values) := by
  have differ : t1 ≠ t2 := by
    rintro rfl
    cases t1 <;> simp [direct] at indirect
  unfold subtypepWith
  rw [if_neg differ]
  split
  · cases indirect
  · rfl

theorem subtypep_of_indirect (indirect : direct t1 t2 = false) (w : World Obj) :
    subtypep image depth t1 t2 w =
      match w.record image t1 t2 with
      | some found => (.value found.1, w)
      | none =>
        match Toplevel.call image (compare image depth t1 t2) w with
        | (.value values, w') =>
          (.value values, w'.store image t1 t2 values (some w'.tables))
        | (.thrown, w') => (.thrown, w')
        | (.error e, w') => (.error e, w') := by
  rw [subtypep, subtypepWith_of_indirect _ _ _ _ indirect]
  show Toplevel.bind _ _ w = _
  rw [Toplevel.bind, Toplevel.get]
  cases w.record image t1 t2 with
  | some found => rfl
  | none =>
    show Toplevel.bind _ _ w = _
    rw [Toplevel.bind]
    dsimp only [compare]
    rcases Toplevel.call image (fastSubtypep (.within image depth) t1 t2) w with ⟨result, w'⟩
    cases result <;> rfl

theorem subtypep_start (indirect : direct t1 t2 = false) (tables : Tables) :
    (subtypep image depth t1 t2 (.start tables)).1 = compared image depth tables t1 t2 := by
  have missing : (World.start tables : World Obj).record image t1 t2 = none := rfl
  rw [subtypep_of_indirect indirect, missing, compared]
  dsimp only
  rcases Toplevel.call image (compare image depth t1 t2) (.start tables) with ⟨result, w'⟩
  cases result <;> rfl

theorem asks_subclassp (tables : Tables) {c1 c2 : ClassId} (differ : c1 ≠ c2) :
    asks image tables (subclassp c1 c2 : Lisp Obj Bool) = [.classPrecedenceList c1] := by
  unfold asks subclassp
  rw [if_neg differ]
  show Command.classPrecedenceList c1 :: Interaction.asked _ (Lisp.bind (Lisp.expect
    (tables.classPrecedenceList c1)) _ _) _ = _
  cases tables.classPrecedenceList c1 <;> rfl

theorem Agrees.call (valid : w.Valid image depth) (x : Lisp Obj α)
    (absent : ∀ q ∈ asks image w.tables x, w.Absent image q) :
    Agrees image depth (Toplevel.call image x) w where
  result := (call_of_absent valid.names x absent).1.symm
  valid := Toplevel.call_valid x valid
  tables := Toplevel.call_tables x

theorem direct_cases (isDirect : direct t1 t2 = true) :
    t1 = t2 ∨ ∃ c1 c2, t1 = .ofClass c1 ∧ t2 = .ofClass c2 := by
  unfold direct at isDirect
  split at isDirect
  · exact .inr ⟨_, _, rfl, rfl⟩
  · exact .inl (of_decide_eq_true isDirect)

theorem subtypep_direct (valid : w.Valid image depth) (isDirect : direct t1 t2 = true) :
    Agrees image depth (subtypep image depth t1 t2) w := by
  by_cases same : t1 = t2
  · have returns (v : World Obj) : subtypep image depth t1 t2 v = (.value (true, true), v) := by
      unfold subtypep subtypepWith
      rw [if_pos same]
      rfl
    exact .of_returns (returns w) (congrArg (·.1) (returns _)) valid rfl
  · obtain ⟨c1, c2, rfl, rfl⟩ := (direct_cases isDirect).resolve_left same
    have differ : c1 ≠ c2 := fun here => same (congrArg _ here)
    have agrees : Agrees image depth (Toplevel.call image (subclassp c1 c2)) w := by
      apply Agrees.call valid
      intro q member
      rw [asks_subclassp w.tables differ, List.mem_singleton] at member
      rw [member]
      trivial
    have compares : subtypep image depth (.ofClass c1 : Datum Obj) (.ofClass c2) =
        Toplevel.call image (subclassp c1 c2) >>= fun test => pure (test, true) := by
      unfold subtypep subtypepWith
      rw [if_neg same]
    rw [compares]
    exact agrees.map _

theorem compared_of_same {old new : Tables}
    (same : ∀ q ∈ asked image depth old t1 t2, old.SameFor new q) :
    compared image depth old t1 t2 = compared image depth new t1 t2 ∧
      asked image depth old t1 t2 = asked image depth new t1 t2 :=
  call_of_same (compare image depth t1 t2) same

theorem World.Valid.fresh (valid : w.Valid image depth) {found : (Bool × Bool) × Origin}
    (present : w.record image t1 t2 = some found)
    (fresh : Fresh image depth w.tables t1 t2 found.2) :
    compared image depth w.tables t1 t2 = .value found.1 := by
  obtain ⟨old, origin, same⟩ := fresh
  have value := valid.records.find present old origin
  rw [← (compared_of_same same).1]
  exact value

theorem subtypep_law (valid : w.Valid image depth)
    (current : direct t1 t2 = true ∨ w.Current image depth t1 t2) :
    Agrees image depth (subtypep image depth t1 t2) w := by
  cases isDirect : direct t1 t2 with
  | true => exact subtypep_direct valid isDirect
  | false =>
    have current := current.resolve_left (by rw [isDirect]; exact Bool.false_ne_true)
    unfold World.Current at current
    have start : _ = compared image depth w.tables t1 t2 := subtypep_start isDirect w.tables
    have returns : subtypep image depth t1 t2 w = _ := subtypep_of_indirect isDirect w
    cases present : w.record image t1 t2 with
    | some found =>
      rw [present] at current returns
      have value := valid.fresh present current
      exact .of_returns returns (start.trans value) valid rfl
    | none =>
      rw [present] at current returns
      have call := Agrees.call valid (compare image depth t1 t2) current
      have result : (Toplevel.call image (compare image depth t1 t2) w).1 =
          compared image depth w.tables t1 t2 := call.result
      have kept := call.valid
      have tables := call.tables
      rw [← result] at start
      rcases called : Toplevel.call image (compare image depth t1 t2) w with ⟨outcome, w'⟩
      rw [called] at returns start result kept tables
      cases outcome with
      | value values =>
        refine .of_returns returns start ⟨?_, kept.names, kept.upgraded⟩ tables
        apply kept.records.set
        intro old origin
        cases origin
        rw [tables]
        exact result.symm
      | thrown => exact .of_returns returns start kept tables
      | error e => exact .of_returns returns start kept tables

theorem subtypep_record (names : w.NamesKept) (indirect : direct t1 t2 = false)
    (only : ∀ q ∈ asked image depth w.tables t1 t2, q.OnlyTables) {t1' t2' : Datum Obj}
    {found : (Bool × Bool) × Origin}
    (present : (subtypep image depth t1 t2 w).2.record image t1' t2' = some found) :
    w.record image t1' t2' = some found ∨ found.2 = some w.tables := by
  have absent (q : Command Obj) (member : q ∈ asked image depth w.tables t1 t2) :
      w.Absent image q := (only q member).absent w
  have same := (call_of_absent names (compare image depth t1 t2) absent).2
  have earlier (present : (Toplevel.call image (compare image depth t1 t2) w).2.record image
      t1' t2' = some found) : w.record image t1' t2' = some found := by
    apply Toplevel.call_record (compare image depth t1 t2) _ present
    rw [← same]
    exact only
  have tables : (Toplevel.call image (compare image depth t1 t2) w).2.tables = w.tables :=
    Toplevel.call_tables _
  rw [subtypep_of_indirect indirect] at present
  cases own : w.record image t1 t2 with
  | some _ =>
    rw [own] at present
    exact .inl present
  | none =>
    rw [own] at present
    dsimp only at present
    rcases called : Toplevel.call image (compare image depth t1 t2) w with ⟨outcome, w'⟩
    rw [called] at present earlier tables
    cases outcome with
    | thrown => exact .inl (earlier present)
    | error e => exact .inl (earlier present)
    | value values =>
      dsimp only at present tables
      rw [World.record_store] at present
      split at present
      · split at present
        · cases present
          exact .inr (congrArg some tables)
        · cases present
      · exact .inl (earlier present)

theorem ForCompared.mono {tables : Tables} {type : Datum Obj} {p p' : Name → Prop}
    (weaker : ∀ v, p v → p' v) {names : List Name}
    (holds : ForCompared image depth tables type p names) :
    ForCompared image depth tables type p' names := by
  induction names with
  | nil => trivial
  | cons v rest ih => exact ⟨weaker v holds.1, fun goesOn => ih (holds.2 goesOn)⟩

theorem firstCompared_cons (tables : Tables) (type : Datum Obj) (v : Name) (rest : List Name) :
    firstCompared image depth tables type (v :: rest) =
      match compared image depth tables type (name v) with
      | .value (true, _) => .value (name v)
      | .value (false, _) => firstCompared image depth tables type rest
      | .thrown => .thrown
      | .error e => .error e := by
  unfold firstCompared
  rw [firstSupertype]
  rcases compared image depth tables type (name v) with ⟨test, sure⟩ | _ | e
  · cases test <;> rfl
  · rfl
  · rfl

variable (image depth) in
/-- The loop from outside. -/
def firstFound (type : Datum Obj) (names : List Name) : Toplevel Obj (Datum Obj) :=
  firstSupertype (fun v => do return (← subtypep image depth type (name v)).1) names

theorem firstFound_cons (type : Datum Obj) (v : Name) (rest : List Name) (w : World Obj) :
    firstFound image depth type (v :: rest) w =
      match subtypep image depth type (name v) w with
      | (.value (true, _), w') => (.value (name v), w')
      | (.value (false, _), w') => firstFound image depth type rest w'
      | (.thrown, w') => (.thrown, w')
      | (.error e, w') => (.error e, w') := by
  unfold firstFound
  rw [firstSupertype]
  show Toplevel.bind _ _ w = _
  rw [Toplevel.bind, Toplevel.map_apply]
  rcases subtypep image depth type (name v) w with ⟨⟨test, sure⟩ | _ | e, w'⟩
  · cases test <;> rfl
  · rfl
  · rfl

theorem Settled.current {type : Datum Obj} {v : Name} (settled : Settled image depth w type v) :
    w.Current image depth type (name v) := by
  unfold World.Current
  cases present : w.record image type (name v) with
  | some found => exact settled.2 found present
  | none => exact fun q member => (settled.1 q member).absent w

theorem Fresh.now (tables : Tables) (t1 t2 : Datum Obj) :
    Fresh image depth tables t1 t2 (some tables) := by
  refine ⟨tables, rfl, fun q _ => ?_⟩
  cases q <;> first | rfl | trivial

theorem firstFound_law (type : OtherType Obj) {names : List Name}
    (members : ∀ v ∈ names, v ∈ upgradedArrayElementTypes) :
    ∀ {w : World Obj}, w.Valid image depth →
      ForCompared image depth w.tables type.1 (Settled image depth w type.1) names →
      (firstFound image depth type.1 names w).1 =
          firstCompared image depth w.tables type.1 names ∧
        (firstFound image depth type.1 names w).2.Valid image depth ∧
        (firstFound image depth type.1 names w).2.tables = w.tables := by
  induction names with
  | nil => exact fun valid _ => ⟨rfl, valid, rfl⟩
  | cons v rest ih =>
    intro w valid settled
    rw [List.forall_mem_cons] at members
    have differ : type.1 ≠ name v := type.ne_name ⟨v, members.1⟩
    have indirect : direct type.1 (name v) = false := by
      unfold direct
      split
      · rename_i same
        cases same
      · exact decide_eq_false differ
    have law := subtypep_law valid (.inr settled.1.current)
    have result := law.result.trans (subtypep_start indirect w.tables)
    have kept := law.valid
    have tables := law.tables
    have records (v' : Name) (found : (Bool × Bool) × Origin)
        (present : (subtypep image depth type.1 (name v) w).2.record image type.1 (name v') =
          some found) :
        w.record image type.1 (name v') = some found ∨ found.2 = some w.tables :=
      subtypep_record valid.names indirect settled.1.1 present
    rw [firstFound_cons, firstCompared_cons, ← result]
    rcases returns : subtypep image depth type.1 (name v) w with ⟨⟨test, sure⟩ | _ | e, w'⟩
    · rw [returns] at result kept tables records
      cases test with
      | true => exact ⟨rfl, kept, tables⟩
      | false =>
        dsimp only at tables ⊢
        rw [← tables]
        apply (ih members.2 kept _).imp_right
        · exact fun both => ⟨both.1, both.2⟩
        · have goesOn := settled.2 ⟨sure, result.symm⟩
          rw [tables]
          apply goesOn.mono
          intro v' before
          refine ⟨tables ▸ before.1, fun found present => ?_⟩
          rw [tables]
          rcases records v' found present with earlier | origin
          · exact before.2 found earlier
          · rw [origin]
            exact .now ..
    · rw [returns] at kept tables
      exact ⟨rfl, kept, tables⟩
    · rw [returns] at kept tables
      exact ⟨rfl, kept, tables⟩

theorem upgraded_of_other (type : OtherType Obj) (w : World Obj) :
    upgradedArrayElementType image depth type.1 w =
      match w.upgradedRecord image type.1 with
      | some found => (.value found.1, w)
      | none =>
        match firstFound image depth type.1 upgradedArrayElementTypes w with
        | (.value answer, w') =>
          (.value answer, w'.storeUpgraded image type.1 answer (some w'.tables))
        | (.thrown, w') => (.thrown, w')
        | (.error e, w') => (.error e, w') := by
  unfold upgradedArrayElementType upgradedWith
  rw [if_neg (by rw [type.2]; exact Bool.false_ne_true)]
  show Toplevel.bind _ _ w = _
  rw [Toplevel.bind, Toplevel.get]
  cases w.upgradedRecord image type.1 with
  | some found => rfl
  | none =>
    show Toplevel.bind (firstFound image depth type.1 upgradedArrayElementTypes) _ w = _
    rw [Toplevel.bind]
    dsimp only
    rcases firstFound image depth type.1 upgradedArrayElementTypes w with ⟨outcome, w'⟩
    cases outcome <;> rfl

theorem upgraded_of_name (n : ElementName) (w : World Obj) :
    upgradedArrayElementType image depth (name n.1) w =
      match w.upgradedRecord image (name n.1) with
      | some found => (.value found.1, w)
      | none => (.value (name n.1),
          w.storeUpgraded image (name n.1) (name n.1) (some w.tables)) := by
  unfold upgradedArrayElementType upgradedWith
  rw [if_pos (by rw [elementName_name]; rfl)]
  show Toplevel.bind _ _ w = _
  rw [Toplevel.bind, Toplevel.get]
  cases w.upgradedRecord image (name n.1) <;> rfl

omit [DecidableEq Obj] in
theorem elementName_cases (type : Datum Obj) :
    (∃ n : ElementName, type = name n.1) ∨ ∃ other : OtherType Obj, type = other.1 := by
  cases named : type.elementName with
  | none => exact .inr ⟨⟨type, named⟩, rfl⟩
  | some n =>
    refine .inl ⟨n, ?_⟩
    unfold elementName at named
    split at named
    · split at named
      · cases named
        rfl
      · cases named
    · cases named

theorem upgraded_name_law (valid : w.Valid image depth) (n : ElementName) :
    Agrees image depth (upgradedArrayElementType image depth (name n.1)) w := by
  have start : (upgradedArrayElementType image depth (name n.1) (.start w.tables)).1 =
      .value (name n.1) := by
    have missing : (World.start w.tables : World Obj).upgradedRecord image (name n.1) = none := rfl
    rw [upgraded_of_name, missing]
  have returns : upgradedArrayElementType image depth (name n.1) w = _ := upgraded_of_name n w
  cases present : w.upgradedRecord image (name n.1) with
  | some found =>
    rw [present] at returns
    dsimp only at returns
    rw [valid.names.found present] at returns
    exact .of_returns returns start valid rfl
  | none =>
    rw [present] at returns
    refine .of_returns returns start ⟨valid.records, valid.names.storeName n _, ?_⟩ rfl
    apply valid.upgraded.set
    intro other
    rw [elementName_name] at other
    cases other

theorem firstCompared_of_same {old new : Tables} (type : Datum Obj) (names : List Name)
    (same : ForCompared image depth old type
      (fun v => ∀ q ∈ asked image depth old type (name v), old.SameFor new q) names) :
    firstCompared image depth old type names = firstCompared image depth new type names ∧
      (ForCompared image depth old type
          (fun v => ∀ q ∈ asked image depth old type (name v), q.OnlyTables) names →
        ForCompared image depth new type
          (fun v => ∀ q ∈ asked image depth new type (name v), q.OnlyTables) names) := by
  induction names with
  | nil => exact ⟨rfl, fun _ => trivial⟩
  | cons v rest ih =>
    obtain ⟨value, looks⟩ := compared_of_same same.1
    rw [firstCompared_cons, firstCompared_cons, ← value]
    constructor
    · rcases result : compared image depth old type (name v) with ⟨test, sure⟩ | _ | e
      · cases test with
        | true => rfl
        | false => exact (ih (same.2 ⟨sure, result⟩)).1
      · rfl
      · rfl
    · intro only
      refine ⟨fun q member => only.1 q (by rwa [looks]), ?_⟩
      rw [← value]
      exact fun goesOn => (ih (same.2 goesOn)).2 (only.2 goesOn)

theorem upgraded_start (type : OtherType Obj) (tables : Tables)
    (only : ForCompared image depth tables type.1
      (fun v => ∀ q ∈ asked image depth tables type.1 (name v), q.OnlyTables)
      upgradedArrayElementTypes) :
    (upgradedArrayElementType image depth type.1 (.start tables)).1 =
      firstCompared image depth tables type.1 upgradedArrayElementTypes := by
  have settled : ForCompared image depth tables type.1
      (Settled image depth (.start tables) type.1) upgradedArrayElementTypes := by
    apply only.mono
    intro v only
    exact ⟨only, fun found present => nomatch present⟩
  have law := (firstFound_law type (fun _ member => member) (.start tables) settled).1
  have missing : (World.start tables : World Obj).upgradedRecord image type.1 = none := rfl
  rw [upgraded_of_other, missing]
  dsimp only
  rw [← show _ = firstCompared image depth tables type.1 upgradedArrayElementTypes from law]
  rcases firstFound image depth type.1 upgradedArrayElementTypes (.start tables) with ⟨outcome, w'⟩
  cases outcome <;> rfl

theorem upgraded_law (valid : w.Valid image depth) (type : OtherType Obj)
    (current : w.UpgradedCurrent image depth type.1) :
    Agrees image depth (upgradedArrayElementType image depth type.1) w := by
  unfold World.UpgradedCurrent at current
  have returns : upgradedArrayElementType image depth type.1 w = _ := upgraded_of_other type w
  cases present : w.upgradedRecord image type.1 with
  | some found =>
    rw [present] at current returns
    obtain ⟨old, origin, same⟩ := current
    obtain ⟨value, only⟩ := valid.upgraded.find present type.2 old origin
    obtain ⟨first, still⟩ := firstCompared_of_same type.1 _ same
    have start := upgraded_start type w.tables (still only)
    rw [← first, value] at start
    exact .of_returns returns start valid rfl
  | none =>
    rw [present] at current returns
    have only := current.mono fun v settled => settled.1
    have start := upgraded_start type w.tables only
    obtain ⟨result, kept, tables⟩ := firstFound_law type (fun _ member => member) valid current
    rw [← result] at start
    rcases called : firstFound image depth type.1 upgradedArrayElementTypes w with ⟨outcome, w'⟩
    rw [called] at returns start result kept tables
    cases outcome with
    | value answer =>
      refine .of_returns returns start ⟨kept.records, kept.names.store type answer _, ?_⟩ tables
      apply kept.upgraded.set
      intro _ old origin
      cases origin
      dsimp only at tables
      rw [tables]
      exact ⟨result.symm, only⟩
    | thrown => exact .of_returns returns start kept tables
    | error e => exact .of_returns returns start kept tables

end Ecl.Predlib
