import Ecl.Packages.Tables

/- What an operation that ends in an error has changed by then. -/
namespace Ecl.Packages

open List Prod

/-- A call that ends in an error nobody can continue from leaves the state as it was. -/
def Keeps (st : State) (result : Result) : Prop := result.2 = .fatal → result.1 = st

/-- A package that is not locked, or whose lock the handler ignores. -/
def Unlocked (continues : Restart → Bool) (w : World) (p : PackageId) : Prop :=
  (w.pack p).locked = true → continues .ignoreLock = true

theorem keeps_returned (st st' : State) : Keeps st (st', .returned) := fun fatal => by cases fatal

theorem keeps_continuable (st st' : State) : Keeps st (st', .continuable) :=
  fun fatal => by cases fatal

theorem keeps_same (st : State) (outcome : Outcome) : Keeps st (st, outcome) := fun _ => rfl

variable {w : World} {next : State → Result}

theorem keeps_getLock {lock : Bool} (after : lock = false → Keeps ⟨w, lock⟩ (next ⟨w, true⟩)) :
    Keeps ⟨w, lock⟩ (getLock ⟨w, lock⟩ next) := by
  cases lock with
  | true => exact keeps_same _ _
  | false => exact after rfl

variable {st : State} {designator : Designator}

theorem keeps_coerce {next : PackageId → Result}
    (after : ∀ p, Coerces st.world designator p → Keeps st (next p)) :
    Keeps st (coerceToPackage st designator next) := by
  unfold coerceToPackage
  split
  · exact after _ rfl
  · split
    · rename_i found
      exact after _ found
    · exact keeps_same _ _
  · exact keeps_continuable _ _

theorem keeps_clString {st' : State} {next : String → Result}
    (after : ∀ name, designator = .string name → Keeps st (next name)) :
    Keeps st (clString st' designator next) := by
  unfold clString
  split
  · exact after _ rfl
  · exact keeps_continuable _ _
  · exact keeps_continuable _ _

theorem keeps_continuableError {st' : State} {continued : Bool}
    (after : continued = true → Keeps st (next st')) :
    Keeps st (continuableError st' continued next) := by
  unfold continuableError
  split
  · rename_i yes
    exact after yes
  · exact keeps_continuable _ _

variable {continues : Restart → Bool} {p : PackageId}

theorem keeps_checkLocked (after : Unlocked continues st.world p → Keeps st (next st)) :
    Keeps st (checkLocked st continues p next) := by
  unfold checkLocked
  split
  · exact keeps_continuableError fun continued => after fun _ => continued
  · rename_i unlocked
    exact after fun locked => absurd locked unlocked

theorem giveupLock_held (w : World) (next : State → Result) :
    giveupLock ⟨w, true⟩ next = next ⟨w, false⟩ := rfl

theorem giveupLock_free (w : World) (next : State → Result) :
    giveupLock ⟨w, false⟩ next = (⟨w, false⟩, .fatal) := rfl

theorem coerceToPackage_eq (coerced : Coerces st.world designator p) (next : PackageId → Result) :
    coerceToPackage st designator next = next p := by
  cases designator with
  | package q =>
    cases coerced
    rfl
  | string name =>
    have found : st.world.findPackage name = some p := coerced
    simp only [coerceToPackage, found]
  | other => cases coerced

theorem checkLocked_eq (unlocked : Unlocked continues st.world p) (next : State → Result) :
    checkLocked st continues p next = next st := by
  unfold checkLocked continuableError
  split
  · rename_i locked
    rw [if_pos (unlocked locked)]
  · rfl

section Operations

variable (continues : Restart → Bool) (st : State)

theorem keeps_usePackage (x p : Designator) : Keeps st (usePackage continues x p st) := by
  apply keeps_coerce
  intro x' _
  split
  · exact keeps_same _ _
  · apply keeps_coerce
    intro p' _
    apply keeps_checkLocked
    intro _
    split
    · exact keeps_same _ _
    · split
      · exact keeps_same _ _
      · split
        · exact keeps_same _ _
        · obtain ⟨w, lock⟩ := st
          apply keeps_getLock
          rintro rfl
          split
          · exact keeps_same _ _
          · exact keeps_returned _ _

theorem keeps_unintern (s : Symbol) (p : Designator) : Keeps st (unintern s p st) := by
  apply keeps_coerce
  intro p' _
  obtain ⟨w, lock⟩ := st
  apply keeps_getLock
  rintro rfl
  split
  · exact keeps_returned _ _
  · split
    · exact keeps_continuable _ _
    · split
      · split
        · exact keeps_same _ _
        · exact keeps_returned _ _
      · exact keeps_returned _ _

theorem keeps_unexport (s : Symbol) (p : Designator) : Keeps st (unexport2 continues s p st) := by
  apply keeps_coerce
  intro p' _
  split
  · exact keeps_same _ _
  · apply keeps_checkLocked
    intro _
    obtain ⟨w, lock⟩ := st
    apply keeps_getLock
    rintro rfl
    dsimp only
    split
    · exact keeps_same _ _
    · split
      · exact keeps_returned _ _
      · exact keeps_returned _ _

theorem keeps_shadowingImport (s : Symbol) (p : Designator) :
    Keeps st (shadowingImport continues s p st) := by
  apply keeps_coerce
  intro p' _
  apply keeps_checkLocked
  intro _
  obtain ⟨w, lock⟩ := st
  apply keeps_getLock
  rintro rfl
  dsimp only
  split
  · split
    · split
      · exact keeps_returned _ _
      · exact keeps_returned _ _
    · exact keeps_returned _ _
  · exact keeps_returned _ _

end Operations

/-- IMPORT goes on after a conflict with an inherited symbol, without the lock. -/
def ImportSlips (continues : Restart → Bool) (s : Symbol) (p : Designator) (st : State) : Prop :=
  st.lock = false ∧ continues .ignoreConflict = true ∧ ∃ p' x, Coerces st.world p p' ∧
    Unlocked continues st.world p' ∧ st.world.findSymbolInner s.name p' = (x, .inherited) ∧ x ≠ s

theorem keeps_import_iff (continues : Restart → Bool) (s : Symbol) (p : Designator) (st : State) :
    Keeps st (import2 continues s p st) ↔ ¬ ImportSlips continues s p st := by
  constructor
  · rintro keeps ⟨free, continued, p', x, coerced, unlocked, found, differ⟩
    obtain ⟨w, lock⟩ := st
    cases free
    have run : import2 continues s p ⟨w, false⟩ =
        (⟨(w.enter s p').symbolAddPackage s p', false⟩, .fatal) := by
      rw [import2, coerceToPackage_eq coerced, checkLocked_eq unlocked]
      simp [getLock, found, differ, continuableError, continued, giveupLock]
    rw [Keeps, run] at keeps
    -- the symbol has entered the internal table
    have same := congrArg (fun st => gethash s.name (st.world.pack p').internal) (keeps rfl)
    have finds := findSymbolInner_finds found
    have other : p' ≠ keywordPackage := by
      intro keyword
      rcases finds.keyword keyword with none | none <;> cases none
    have absent := finds.internal (by decide) other
    dsimp only at same
    rw [absent, World.symbolAddPackage] at same
    have entered : gethash s.name ((w.enter s p').pack p').internal = some s := by
      rw [World.enter, pack_modify_self, gethash_sethash, if_pos rfl]
    split at same
    · exact absurd (entered.symm.trans same) (by simp)
    · exact absurd (entered.symm.trans same) (by simp)
  · intro safe
    apply keeps_coerce
    intro p' coerced
    apply keeps_checkLocked
    intro unlocked
    obtain ⟨w, lock⟩ := st
    apply keeps_getLock
    rintro rfl
    rcases found : w.findSymbolInner s.name p' with ⟨x, flag⟩
    dsimp only
    split
    · rename_i conflict
      rw [giveupLock_held]
      apply keeps_continuableError
      intro continued
      split
      · exact keeps_same _ _
      · rename_i absent
        refine absurd ⟨rfl, continued, p', x, coerced, unlocked, ?_, conflict.2⟩ safe
        show w.findSymbolInner s.name p' = _
        rw [found]
        cases flag with
        | nothing => exact absurd rfl conflict.1
        | internal => exact absurd (.inl rfl) absent
        | external => exact absurd (.inr rfl) absent
        | inherited => rfl
    · split
      · exact keeps_returned _ _
      · exact keeps_returned _ _

/-- EXPORT takes NIL, where no symbol was found, for the symbol that was asked for, and
goes on without the lock. -/
def ExportSlips (continues : Restart → Bool) (s : Symbol) (p : Designator) (st : State) : Prop :=
  st.lock = false ∧ continues .importFirst = true ∧ s = nilSymbol ∧ ∃ p', Coerces st.world p p' ∧
    Unlocked continues st.world p' ∧ (st.world.findSymbolInner s.name p').2 = .nothing ∧
    st.world.exportConflict s p' = false

theorem findSymbolInner_nothing {name : String} {x : Symbol}
    (found : w.findSymbolInner name p = (x, .nothing)) : x = nilSymbol := by
  unfold World.findSymbolInner at found
  split at found
  · cases found
  · split at found
    · cases found
      rfl
    · split at found
      · cases found
      · split at found
        · cases found
        · cases found
          rfl

theorem keeps_export_iff (continues : Restart → Bool) (s : Symbol) (p : Designator) (st : State) :
    Keeps st (export2 continues s p st) ↔ ¬ ExportSlips continues s p st := by
  constructor
  · rintro keeps ⟨free, continued, isNil, p', coerced, unlocked, missing, clear⟩
    obtain ⟨w, lock⟩ := st
    cases free
    rcases found : w.findSymbolInner s.name p' with ⟨x, flag⟩
    have nothing : flag = .nothing := by
      rw [← missing]
      exact (congrArg snd found).symm
    subst nothing
    have same : x = s := (findSymbolInner_nothing found).trans isNil.symm
    subst same
    have run : export2 continues x p ⟨w, false⟩ =
        (⟨w.makeExternal x p' .nothing, false⟩, .fatal) := by
      rw [export2, coerceToPackage_eq coerced, checkLocked_eq unlocked]
      have clear : w.exportConflict x p' = false := clear
      simp [getLock, found, continuableError, continued, giveupLock, clear]
    rw [Keeps, run] at keeps
    have same := congrArg (fun st => gethash x.name (st.world.pack p').external) (keeps rfl)
    have absent := (findSymbolInner_finds found).external
    have entered : gethash x.name ((w.makeExternal x p' .nothing).pack p').external = some x := by
      rw [World.makeExternal, pack_modify_self, gethash_sethash, if_pos rfl]
    dsimp only at same
    rw [absent, entered] at same
    cases same
  · intro safe
    apply keeps_coerce
    intro p' coerced
    apply keeps_checkLocked
    intro unlocked
    obtain ⟨w, lock⟩ := st
    apply keeps_getLock
    rintro rfl
    rcases found : w.findSymbolInner s.name p' with ⟨x, flag⟩
    dsimp only
    split
    · rename_i nothing
      subst nothing
      rw [giveupLock_held]
      apply keeps_continuableError
      intro continued
      split
      · exact keeps_same _ _
      · rename_i same
        split
        · exact keeps_same _ _
        · split
          · exact keeps_same _ _
          · rename_i clear
            have isNil := (not_not.mp same).symm.trans (findSymbolInner_nothing found)
            refine absurd ⟨rfl, continued, isNil, p', coerced, unlocked, ?_, ?_⟩ safe
            · show (w.findSymbolInner s.name p').2 = _
              rw [found]
            · exact Bool.not_eq_true _ ▸ clear
    · split
      · exact keeps_same _ _
      · split
        · exact keeps_returned _ _
        · split
          · exact keeps_same _ _
          · exact keeps_returned _ _

/-- MAKE-PACKAGE gets to the name of an unknown package in the use list. -/
def MakeSlips (name : Designator) (nicknames useList : DesignatorList) (st : State) : Prop :=
  st.lock = false ∧ Makes st.world name nicknames useList ∧
    (st.world.coerceAll useList.elements).2 = some .fatal

section Making

variable {continues : Restart → Bool} {w : World} (new : w.packageCount ∉ w.packages)
  {name : String} {next : State → Result}

include new

theorem keeps_makeNicknames {st : State} (list : List Designator)
    (after : (∀ designator ∈ list, FreeName w designator) → ∀ nicknames,
      Keeps st (next ⟨w.fresh name nicknames, true⟩)) (nicknames : List String) :
    Keeps st (makeNicknames continues w.packageCount ⟨w.fresh name nicknames, true⟩ next list) := by
  induction list generalizing nicknames with
  | nil => exact after (by simp) nicknames
  | cons designator list ih =>
    apply keeps_clString
    intro nick designates
    simp only [findPackage_fresh new]
    cases found : w.findPackage nick with
    | some other =>
      rw [giveupLock_held]
      exact keeps_continuableError fun _ => keeps_returned _ _
    | none =>
      simp only [nickname_fresh]
      apply ih
      intro rest
      apply after
      intro d member
      rcases mem_cons.mp member with rfl | later
      · exact ⟨nick, designates, found⟩
      · exact rest d later

theorem makeNicknames_eq {list : List Designator}
    (free : ∀ designator ∈ list, FreeName w designator) (nicknames : List String) :
    ∃ nicks, makeNicknames continues w.packageCount ⟨w.fresh name nicknames, true⟩ next list =
      next ⟨w.fresh name nicks, true⟩ := by
  induction list generalizing nicknames with
  | nil => exact ⟨nicknames, rfl⟩
  | cons designator list ih =>
    obtain ⟨nick, rfl, found⟩ := free _ (mem_cons_self ..)
    obtain ⟨nicks, run⟩ :=
      ih (fun d member => free d (mem_cons_of_mem _ member)) (nick :: nicknames)
    refine ⟨nicks, ?_⟩
    simp only [makeNicknames, clString, findPackage_fresh new, found, nickname_fresh]
    exact run

end Making

theorem keeps_makePackage_iff (continues : Restart → Bool) (name : Designator)
    (nicknames useList : DesignatorList)
    (new : st.world.packageCount ∉ st.world.packages) :
    Keeps st (makePackage continues name nicknames useList st) ↔
      ¬ MakeSlips name nicknames useList st := by
  obtain ⟨w, lock⟩ := st
  constructor
  · rintro keeps ⟨free, makes, unknown⟩
    cases free
    obtain ⟨n, rfl, missing⟩ := makes.name
    let next (st : State) : Result :=
      makeUses w.packageCount st
        (fun st => giveupLock (st.register w.packageCount) fun st => (st, .returned))
        useList.elements
    obtain ⟨nicks, run⟩ := @makeNicknames_eq continues w new n next _ makes.nicknames []
    have coerced := coerceAll_congr (findPackage_fresh new n nicks) useList.elements
    have ends : makePackage continues (.string n) nicknames useList ⟨w, false⟩ =
        (⟨(w.fresh n nicks).linkAll w.packageCount (w.coerceAll useList.elements).1, true⟩,
          .fatal) := by
      have missing : w.findPackage n = none := missing
      rw [makePackage]
      simp only [clString, makes.properNicknames, makes.properUses, Bool.not_true, Bool.or_self,
        Bool.false_eq_true, if_false, getLock, missing]
      refine run.trans ?_
      show makeUses w.packageCount ⟨w.fresh n nicks, true⟩ _ useList.elements = _
      rw [makeUses_eq, coerced]
      rcases listed : w.coerceAll useList.elements with ⟨used, outcome⟩
      have fatal : outcome = some .fatal := by
        rw [← unknown]
        exact (congrArg snd listed).symm
      rw [fatal]
    rw [Keeps, ends] at keeps
    exact absurd (congrArg State.lock (keeps rfl)) (by simp)
  · intro safe
    apply keeps_clString
    intro n designates
    split
    · exact keeps_same _ _
    · rename_i proper
      simp only [Bool.or_eq_true, Bool.not_eq_true', not_or, Bool.not_eq_false] at proper
      apply keeps_getLock
      rintro rfl
      cases found : w.findPackage n with
      | some other =>
        rw [giveupLock_held]
        exact keeps_continuableError fun _ => keeps_returned _ _
      | none =>
        apply keeps_makeNicknames new
        intro all nicks
        have makes : Makes w name nicknames useList :=
          ⟨proper.1, proper.2, ⟨n, designates, found⟩, all⟩
        have coerced := coerceAll_congr (findPackage_fresh new n nicks) useList.elements
        simp only [makeUses_eq, coerced]
        rcases listed : w.coerceAll useList.elements with ⟨used, outcome⟩
        cases outcome with
        | none => exact keeps_returned _ _
        | some outcome =>
          intro fatal
          refine absurd ⟨rfl, makes, ?_⟩ safe
          show (w.coerceAll useList.elements).2 = _
          rw [listed]
          exact congrArg some fatal

/-- RENAME-PACKAGE gets to the end of a list of nicknames that ends in an atom. -/
def RenameSlips (continues : Restart → Bool) (x name : Designator) (nicknames : DesignatorList)
    (st : State) : Prop :=
  st.lock = false ∧ nicknames.proper = false ∧ ∃ x' n, Coerces st.world x x' ∧ name = .string n ∧
    Unlocked continues st.world x' ∧
    (st.world.findPackage n = none ∨ st.world.findPackage n = some x') ∧
    ∀ d ∈ nicknames.elements, d = .package x' ∨ ∃ nick, d = .string nick

/-- The loop over the nicknames ends in an error only at an atom in the place of the rest. -/
theorem keeps_renameNicknames {x : PackageId} {name : String} {proper : Bool}
    {list : List Designator}
    (safe : proper = true ∨ ¬ ∀ d ∈ list, d = .package x ∨ ∃ nick, d = .string nick)
    (nicknames : List String) :
    Keeps st (renameNicknames x ⟨w.rename x name nicknames, true⟩ proper list) := by
  induction list generalizing nicknames with
  | nil =>
    have yes : proper = true := safe.resolve_right (by simp)
    simp only [renameNicknames, yes, if_true, giveupLock_held]
    exact keeps_returned _ _
  | cons designator list ih =>
    cases designator with
    | other => exact keeps_continuable _ _
    | package q =>
      simp only [renameNicknames]
      split
      · rename_i self
        apply ih
        refine safe.imp id (mt ?_)
        intro rest d member
        rcases mem_cons.mp member with rfl | later
        · exact .inl (congrArg Designator.package self)
        · exact rest d later
      · exact keeps_continuable _ _
    | string nick =>
      have rest : proper = true ∨ ¬ ∀ d ∈ list, d = .package x ∨ ∃ nick, d = .string nick := by
        refine safe.imp id (mt ?_)
        intro rest d member
        rcases mem_cons.mp member with rfl | later
        · exact .inr ⟨nick, rfl⟩
        · exact rest d later
      simp only [renameNicknames]
      split
      · exact ih rest nicknames
      · rw [nickname_renamed]
        exact ih rest (nick :: nicknames)

theorem renameNicknames_eq {x : PackageId} {name : String} {list : List Designator}
    (strings : ∀ d ∈ list, d = .package x ∨ ∃ nick, d = .string nick) (nicknames : List String) :
    ∃ nicks, renameNicknames x ⟨w.rename x name nicknames, true⟩ false list =
      (⟨w.rename x name nicks, false⟩, .fatal) := by
  induction list generalizing nicknames with
  | nil => exact ⟨nicknames, rfl⟩
  | cons designator list ih =>
    have rest := ih fun d member => strings d (mem_cons_of_mem _ member)
    rcases strings designator (mem_cons_self ..) with rfl | ⟨nick, rfl⟩
    · simp only [renameNicknames, if_true]
      exact rest nicknames
    · simp only [renameNicknames]
      split
      · exact rest nicknames
      · rw [nickname_renamed]
        exact rest (nick :: nicknames)

theorem keeps_renamePackage {x name : Designator}
    {nicknames : DesignatorList} (safe : ¬ RenameSlips continues x name nicknames st) :
    Keeps st (renamePackage continues x name nicknames st) := by
  apply keeps_clString
  intro n designates
  apply keeps_coerce
  intro x' coerced
  apply keeps_checkLocked
  intro unlocked
  obtain ⟨w, lock⟩ := st
  apply keeps_getLock
  rintro rfl
  dsimp only
  split
  · exact keeps_same _ _
  · rename_i free
    apply keeps_renameNicknames
    by_contra slips
    rw [not_or, not_not] at slips
    refine safe ⟨rfl, Bool.eq_false_iff.mpr slips.1, x', n, coerced, designates, unlocked, ?_,
      slips.2⟩
    by_contra taken
    rw [not_or] at taken
    exact free taken

theorem renamed_of_keeps {x name : Designator}
    {nicknames : DesignatorList} (slips : RenameSlips continues x name nicknames st)
    (keeps : Keeps st (renamePackage continues x name nicknames st)) :
    ∃ x' n, Coerces st.world x x' ∧ name = .string n ∧ (st.world.pack x').name = some n := by
  obtain ⟨free, improper, x', n, coerced, rfl, unlocked, available, strings⟩ := slips
  obtain ⟨w, lock⟩ := st
  cases free
  obtain ⟨nicks, run⟩ := @renameNicknames_eq w x' n _ strings []
  have ends : renamePackage continues x (.string n) nicknames ⟨w, false⟩ =
      (⟨w.rename x' n nicks, false⟩, .fatal) := by
    have names : ¬ (w.findPackage n ≠ none ∧ w.findPackage n ≠ some x') := by
      rintro ⟨some, other⟩
      exact available.elim some other
    rw [renamePackage, clString, coerceToPackage_eq coerced, checkLocked_eq unlocked]
    simp only [getLock, Bool.false_eq_true, if_false, if_neg names, improper]
    exact run
  rw [Keeps, ends] at keeps
  have same := congrArg (fun st => (st.world.pack x').name) (keeps rfl)
  refine ⟨x', n, coerced, rfl, ?_⟩
  have renamed : ((w.rename x' n nicks).pack x').name = some n := by
    rw [World.rename, pack_modify_self]
  exact same.symm.trans renamed

/-- The states that calls reach, whatever the handlers do. -/
inductive Reached : State → Prop where
  | initial : Reached initialState
  | step (op : Op) (continues : Restart → Bool) (st : State) (reached : Reached st)
      (here : op.Exists st.world) : Reached (op.run continues st).1

theorem Reached.allocated (reached : Reached st) : Allocated st.world := by
  induction reached with
  | initial => exact initialState_allocated
  | step op continues st _ here ih => exact ih.run here st.lock

/-- The calls that are to undo what they did. -/
def Op.undoes : Op → Bool
  | .makePackage _ _ _ | .renamePackage _ _ _ | .usePackage _ _ | .unintern _ _ | .imports _ _
  | .shadowingImport _ _ | .exports _ _ | .unexport _ _ => true
  | _ => false

/-- The calls that get to an error after they have changed something. -/
def Slips (continues : Restart → Bool) : Op → State → Prop
  | .makePackage name nicknames useList => MakeSlips name nicknames useList
  | .renamePackage x name nicknames => RenameSlips continues x name nicknames
  | .imports s p => ImportSlips continues s p
  | .exports s p => ExportSlips continues s p
  | _ => fun _ => False

/-- A package is renamed to the name that it has. -/
def RenamesBack (w : World) : Op → Prop
  | .renamePackage x name _ => ∃ x' n, Coerces w x x' ∧ name = .string n ∧ (w.pack x').name = some n
  | _ => False

theorem fatal_error_atomic {st : State} (reached : Reached st) (continues : Restart → Bool)
    {op : Op} (undoes : op.undoes = true) :
    (¬ Slips continues op st → Keeps st (op.run continues st)) ∧
    (Keeps st (op.run continues st) → ¬ Slips continues op st ∨ RenamesBack st.world op) := by
  cases op with
  | makePackage name nicknames useList =>
    have exact := keeps_makePackage_iff continues name nicknames useList reached.allocated.new
    exact ⟨exact.mpr, fun keeps => .inl (exact.mp keeps)⟩
  | renamePackage x name nicknames =>
    refine ⟨keeps_renamePackage, ?_⟩
    intro keeps
    by_cases slips : RenameSlips continues x name nicknames st
    · exact .inr (renamed_of_keeps slips keeps)
    · exact .inl slips
  | usePackage x p => exact ⟨fun _ => keeps_usePackage continues st x p, fun _ => .inl id⟩
  | unintern s p => exact ⟨fun _ => keeps_unintern st s p, fun _ => .inl id⟩
  | imports s p =>
    have exact := keeps_import_iff continues s p st
    exact ⟨exact.mpr, fun keeps => .inl (exact.mp keeps)⟩
  | shadowingImport s p => exact ⟨fun _ => keeps_shadowingImport continues st s p, fun _ => .inl id⟩
  | exports s p =>
    have exact := keeps_export_iff continues s p st
    exact ⟨exact.mpr, fun keeps => .inl (exact.mp keeps)⟩
  | unexport s p => exact ⟨fun _ => keeps_unexport continues st s p, fun _ => .inl id⟩
  | _ => cases undoes

/-- KEYWORD is not used by other packages. -/
theorem fatal_error_atomic_useKeyword :
    (usePackage never (.string "KEYWORD") (.string "USER") initialState).2 = .fatal ∧
      Keeps initialState (usePackage never (.string "KEYWORD") (.string "USER") initialState) :=
  ⟨by decide +kernel,
    (@fatal_error_atomic _ .initial never (.usePackage (.string "KEYWORD") (.string "USER")) rfl).1
      id⟩

/-- An unknown package in the use list, nicknames that end in an atom, a handler that
imports in spite of a conflict, and one that exports NIL. -/
theorem fatal_error_not_atomic :
    let always (_ : Restart) : Bool := true
    let st := (Op.run never (.makeSymbol "T") initialState).1
    Reached st ∧
    ∀ op ∈ [Op.makePackage (.string "A") ⟨[], true⟩ ⟨[.string "NOWHERE"], true⟩,
      Op.renamePackage (.string "USER") (.string "ME") ⟨[], false⟩,
      Op.imports ⟨"T", 2⟩ (.string "USER"),
      Op.exports nilSymbol (.string "KEYWORD")],
    op.Exists st.world ∧ op.undoes = true ∧ ¬ Keeps st (op.run always st) := by
  intro always st
  refine ⟨Reached.step (.makeSymbol "T") never initialState .initial trivial, ?_⟩
  intro op member
  -- the lock and what the calls are about
  let seen (st : State) := (st.lock, (st.world.pack userPackage).name,
    (st.world.pack userPackage).internal, (st.world.pack keywordPackage).external)
  have differ (changed : (op.run always st).2 = .fatal ∧ seen (op.run always st).1 ≠ seen st) :
      ¬ Keeps st (op.run always st) :=
    fun keeps => changed.2 (congrArg seen (keeps changed.1))
  simp only [mem_cons, not_mem_nil, or_false] at member
  rcases member with rfl | rfl | rfl | rfl
  · exact ⟨by simp [Op.Exists], rfl, differ (by decide +kernel)⟩
  · exact ⟨by simp [Op.Exists], rfl, differ (by decide +kernel)⟩
  · exact ⟨⟨by decide +kernel, by simp⟩, rfl, differ (by decide +kernel)⟩
  · exact ⟨⟨by decide +kernel, by simp⟩, rfl, differ (by decide +kernel)⟩

end Ecl.Packages
