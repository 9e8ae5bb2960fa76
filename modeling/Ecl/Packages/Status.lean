import Ecl.Packages.Atomic
import Ecl.Packages.Effects

/- EXPORT and UNEXPORT against what a search through the package finds. -/
namespace Ecl.Packages

/-- Only whether the symbol is internal, external or inherited in the package changes. -/
structure OnlyStatus (w w' : World) (s : Symbol) (p : PackageId) : Prop where
  found : ∀ name, (w'.findSymbolInner name p).1 = (w.findSymbolInner name p).1
  accessible : ∀ name,
    (w'.findSymbolInner name p).2 = .nothing ↔ (w.findSymbolInner name p).2 = .nothing
  otherNames : ∀ name, name ≠ s.name →
    (w'.findSymbolInner name p).2 = (w.findSymbolInner name p).2
  package : w'.pack p =
    { w.pack p with internal := (w'.pack p).internal, external := (w'.pack p).external }
  others : ∀ q, q ≠ p → w'.pack q = w.pack q
  packages : w'.packages = w.packages
  hpack : w'.hpack = w.hpack

theorem OnlyStatus.refl (w : World) (s : Symbol) (p : PackageId) : OnlyStatus w w s p :=
  ⟨fun _ => rfl, fun _ => Iff.rfl, fun _ _ => rfl, rfl, fun _ _ => rfl, rfl, rfl⟩

variable {w : World} {name : String}

theorem findInherited_congr {w' : World} {uses : List PackageId}
    (external : ∀ q, gethash name (w'.pack q).external = gethash name (w.pack q).external) :
    w'.findInherited name uses = w.findInherited name uses := by
  induction uses with
  | nil => rfl
  | cons q uses ih => rw [World.findInherited, World.findInherited, external q, ih]

variable {p : PackageId}

theorem Changes.find_other {w' : World} {changed : String}
    (changes : Changes w w' changed p) (differ : name ≠ changed) :
    w'.findSymbolInner name p = w.findSymbolInner name p := by
  have external (q : PackageId) :
      gethash name (w'.pack q).external = gethash name (w.pack q).external := by
    by_cases same : q = p
    · rw [same]
      exact (changes.tables name differ).2
    · rw [changes.others q same]
  unfold World.findSymbolInner
  rw [external p, (changes.tables name differ).1, changes.quiet.uses p,
    findInherited_congr external]

theorem find_external {x : Symbol} (here : gethash name (w.pack p).external = some x) :
    w.findSymbolInner name p = (x, .external) := by
  unfold World.findSymbolInner
  rw [here]

theorem find_internal {x : Symbol}
    (missing : gethash name (w.pack p).external = none) (other : p ≠ keywordPackage)
    (here : gethash name (w.pack p).internal = some x) :
    w.findSymbolInner name p = (x, .internal) := by
  unfold World.findSymbolInner
  rw [missing]
  dsimp only
  rw [if_neg other, here]

variable {s : Symbol}

/-- A change under one name, after which the search there finds what it found before. -/
theorem onlyStatus_of_modify {change : Package → Package}
    {flag flag' : World.Flag} (changes : Changes w (w.modify p change) s.name p)
    (tables : change (w.pack p) = { w.pack p with
      internal := (change (w.pack p)).internal, external := (change (w.pack p)).external })
    (before : w.findSymbolInner s.name p = (s, flag)) (accessible : flag ≠ .nothing)
    (after : (w.modify p change).findSymbolInner s.name p = (s, flag'))
    (accessible' : flag' ≠ .nothing) :
    OnlyStatus w (w.modify p change) s p where
  found name := by
    by_cases same : name = s.name
    · rw [same, before, after]
    · rw [changes.find_other same]
  accessible name := by
    by_cases same : name = s.name
    · rw [same, before, after]
      exact ⟨fun nothing => absurd nothing accessible', fun nothing => absurd nothing accessible⟩
    · rw [changes.find_other same]
  otherNames name differ := by rw [changes.find_other differ]
  package := by
    rw [pack_modify_self]
    exact tables
  others := changes.others
  packages := rfl
  hpack := rfl

theorem onlyStatus_makeExternal {flag : World.Flag}
    (found : w.findSymbolInner s.name p = (s, flag)) (accessible : flag ≠ .nothing)
    (notExternal : flag ≠ .external) : OnlyStatus w (w.makeExternal s p flag) s p := by
  have other : p ≠ keywordPackage := by
    intro keyword
    rcases (findSymbolInner_finds found).keyword keyword with nothing | external
    · exact accessible nothing
    · exact notExternal external
  have effect := effect_export found notExternal other
  apply onlyStatus_of_modify effect.changes rfl found accessible
  · exact find_external effect.entries.external
  · decide

theorem onlyStatus_makeInternal
    (found : w.findSymbolInner s.name p = (s, .external)) (other : p ≠ keywordPackage) :
    OnlyStatus w (w.makeInternal s p) s p := by
  have effect := effect_unexport w s p
  apply onlyStatus_of_modify effect.changes rfl found
  · decide
  · exact find_internal effect.entries.external other effect.entries.internal
  · decide

variable {continues : Restart → Bool} {st : State}

theorem checkLocked_returned
    {next : State → Result} (returned : (checkLocked st continues p next).2 = .returned) :
    checkLocked st continues p next = next st := by
  apply checkLocked_eq
  intro locked
  by_contra refused
  rw [checkLocked, if_pos locked, continuableError, if_neg refused] at returned
  cases returned

theorem getLock_returned {lock : Bool} {next : State → Result}
    (returned : (getLock ⟨w, lock⟩ next).2 = .returned) :
    getLock ⟨w, lock⟩ next = next ⟨w, true⟩ := by
  cases lock with
  | true => cases returned
  | false => rfl

variable {d : Designator}

/-- Where the symbol is not accessible the call goes on without the lock and cannot give it
up. -/
theorem export_returned (coerced : Coerces st.world d p)
    (returned : (export2 continues s d st).2 = .returned) :
    ∃ flag, st.world.findSymbolInner s.name p = (s, flag) ∧ flag ≠ .nothing ∧
      (flag = .external ∧ (export2 continues s d st).1.world = st.world ∨
        flag ≠ .external ∧
          (export2 continues s d st).1.world = st.world.makeExternal s p flag) := by
  obtain ⟨w, lock⟩ := st
  rw [export2, coerceToPackage_eq coerced] at returned ⊢
  have unlocked := checkLocked_returned returned
  rw [unlocked] at returned ⊢
  have free := getLock_returned returned
  rw [free] at returned ⊢
  rcases found : w.findSymbolInner s.name p with ⟨x, flag⟩
  simp only [found, giveupLock_held] at returned ⊢
  by_cases accessible : flag = .nothing
  · rw [if_pos accessible, continuableError] at returned
    simp only [giveupLock_free] at returned
    split at returned
    · split at returned
      · cases returned
      · split at returned
        · cases returned
        · split at returned <;> cases returned
    · cases returned
  · rw [if_neg accessible] at returned ⊢
    by_cases same : x = s
    · rw [if_neg (not_not.mpr same)] at returned ⊢
      refine ⟨flag, by rw [same], accessible, ?_⟩
      by_cases external : flag = .external
      · rw [if_pos external]
        exact .inl ⟨external, rfl⟩
      · rw [if_neg external] at returned ⊢
        split at returned
        · cases returned
        · rename_i clear
          rw [if_neg clear]
          exact .inr ⟨external, rfl⟩
    · rw [if_pos same] at returned
      cases returned

theorem unexport_returned (coerced : Coerces st.world d p)
    (returned : (unexport2 continues s d st).2 = .returned) :
    ∃ x flag, st.world.findSymbolInner s.name p = (x, flag) ∧ p ≠ keywordPackage ∧
      (flag ≠ .external ∧ (unexport2 continues s d st).1.world = st.world ∨
        flag = .external ∧
          (unexport2 continues s d st).1.world = st.world.makeInternal s p) := by
  obtain ⟨w, lock⟩ := st
  rw [unexport2, coerceToPackage_eq coerced] at returned ⊢
  by_cases keyword : p = keywordPackage
  · rw [if_pos keyword] at returned
    cases returned
  · rw [if_neg keyword] at returned ⊢
    have unlocked := checkLocked_returned returned
    rw [unlocked] at returned ⊢
    have free := getLock_returned returned
    rw [free] at returned ⊢
    rcases found : w.findSymbolInner s.name p with ⟨x, flag⟩
    simp only [found, giveupLock_held] at returned ⊢
    refine ⟨x, flag, rfl, keyword, ?_⟩
    by_cases nothing : flag = .nothing
    · rw [if_pos nothing] at returned
      cases returned
    · rw [if_neg nothing]
      by_cases external : flag = .external
      · rw [if_neg (not_not.mpr external)]
        exact .inr ⟨external, rfl⟩
      · rw [if_pos external]
        exact .inl ⟨external, rfl⟩

/-- Another symbol is external under the name of the one that UNEXPORT is given. -/
def HidesAnother (w : World) (s : Symbol) (p : PackageId) : Prop :=
  ∃ x, w.findSymbolInner s.name p = (x, .external) ∧ x ≠ s

theorem export_onlyStatus (coerced : Coerces st.world d p)
    (returned : (export2 continues s d st).2 = .returned) :
    OnlyStatus st.world (export2 continues s d st).1.world s p := by
  obtain ⟨flag, found, accessible, ⟨_, same⟩ | ⟨notExternal, changed⟩⟩ :=
    export_returned coerced returned
  · rw [same]
    exact OnlyStatus.refl _ s p
  · rw [changed]
    exact onlyStatus_makeExternal found accessible notExternal

theorem unexport_onlyStatus_iff (coerced : Coerces st.world d p)
    (returned : (unexport2 continues s d st).2 = .returned) :
    OnlyStatus st.world (unexport2 continues s d st).1.world s p ↔
      ¬ HidesAnother st.world s p := by
  obtain ⟨x, flag, found, other, ⟨notExternal, same⟩ | ⟨external, changed⟩⟩ :=
    unexport_returned coerced returned
  · rw [same]
    refine ⟨fun _ => ?_, fun _ => OnlyStatus.refl _ s p⟩
    rintro ⟨y, external, _⟩
    rw [found] at external
    cases external
    exact notExternal rfl
  · subst external
    rw [changed]
    constructor
    · rintro only ⟨y, another, differ⟩
      have effect := effect_unexport st.world s p
      have after := find_internal effect.entries.external other effect.entries.internal
      have kept := only.found s.name
      rw [after, another] at kept
      exact differ kept.symm
    · intro itself
      have same : x = s := by
        by_contra differ
        exact itself ⟨x, found, differ⟩
      rw [same] at found
      exact onlyStatus_makeInternal found other

/-- The search through the package finds the same symbols after a call that returns, unless
UNEXPORT is given the name of another external symbol. -/
theorem export_unexport_status (continues : Restart → Bool) {s : Symbol} {d : Designator}
    {p : PackageId} {st : State} (coerced : Coerces st.world d p) :
    ((export2 continues s d st).2 = .returned →
      OnlyStatus st.world (export2 continues s d st).1.world s p) ∧
    ((unexport2 continues s d st).2 = .returned →
      (OnlyStatus st.world (unexport2 continues s d st).1.world s p ↔
        ¬ HidesAnother st.world s p)) :=
  ⟨export_onlyStatus coerced, unexport_onlyStatus_iff coerced⟩

/-- X of COMMON-LISP-USER is external, and there is a symbol X of no package. -/
def exportedX : State :=
  runAll [.intern "X" (.string "USER"), .exports ⟨"X", 2⟩ (.string "USER"), .makeSymbol "X"]
    initialState

/-- X itself is hidden. -/
theorem export_unexport_status_hide :
    (unexport2 never ⟨"X", 2⟩ (.package userPackage) exportedX).2 = .returned ∧
      OnlyStatus exportedX.world
        (unexport2 never ⟨"X", 2⟩ (.package userPackage) exportedX).1.world ⟨"X", 2⟩
          userPackage := by
  have returned : (unexport2 never ⟨"X", 2⟩ (.package userPackage) exportedX).2 = .returned := by
    decide +kernel
  have here : exportedX.world.findSymbolInner "X" userPackage = (⟨"X", 2⟩, .external) := by
    decide +kernel
  have coerced : Coerces exportedX.world (.package userPackage) userPackage := rfl
  refine ⟨returned, ((export_unexport_status never coerced).2 returned).mpr ?_⟩
  rintro ⟨x, found, differ⟩
  rw [here] at found
  cases found
  exact differ rfl

/-- Another symbol takes the place of X. -/
theorem unexport_takes_place :
    Reached exportedX ∧ (Op.unexport ⟨"X", 3⟩ (.package userPackage)).Exists exportedX.world ∧
    (unexport2 never ⟨"X", 3⟩ (.package userPackage) exportedX).2 = .returned ∧
    ¬ OnlyStatus exportedX.world
        (unexport2 never ⟨"X", 3⟩ (.package userPackage) exportedX).1.world ⟨"X", 3⟩
          userPackage := by
  have reached : Reached exportedX := by
    apply Reached.step (.makeSymbol "X") never _ _ trivial
    apply Reached.step (.exports ⟨"X", 2⟩ (.string "USER")) never _ _ ⟨by decide +kernel, by simp⟩
    exact Reached.step (.intern "X" (.string "USER")) never _ .initial (by simp [Op.Exists])
  refine ⟨reached, ⟨by decide +kernel, ?_⟩, by decide +kernel, ?_⟩
  · intro q same
    cases same
    decide +kernel
  · intro only
    exact absurd (only.found "X") (by decide +kernel)

end Ecl.Packages
