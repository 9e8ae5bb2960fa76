import Mathlib.Data.List.Find
import Ecl.Packages.Operations

/- What an operation can do to the packages: one rule for each, for any property of the
packages. -/
namespace Ecl.Packages

open List

variable {continues : Restart → Bool}

def Coerces (w : World) : Designator → PackageId → Prop
  | .package q, p => q = p
  | .string name, p => w.findPackage name = some p
  | .other, _ => False

section Rules

variable {P : World → Prop} {w : World} {lock : Bool} (before : P w)

include before

variable {next : State → Result}

theorem getLock_keeps (after : P (next ⟨w, true⟩).1.world) :
    P (getLock ⟨w, lock⟩ next).1.world := by
  unfold getLock
  split
  · exact before
  · exact after

theorem giveupLock_keeps (after : P (next ⟨w, false⟩).1.world) :
    P (giveupLock ⟨w, lock⟩ next).1.world := by
  unfold giveupLock
  split
  · exact after
  · exact before

theorem giveupLock_ends (outcome : Outcome) :
    P (giveupLock ⟨w, lock⟩ fun st => (st, outcome)).1.world :=
  giveupLock_keeps before before

theorem coerce_keeps {designator : Designator} {next : PackageId → Result}
    (after : ∀ p, Coerces w designator p → P (next p).1.world) :
    P (coerceToPackage ⟨w, lock⟩ designator next).1.world := by
  unfold coerceToPackage
  split
  · exact after _ rfl
  · split
    · rename_i found
      exact after _ found
    · exact before
  · exact before

theorem clString_keeps {designator : Designator} {next : String → Result}
    (after : ∀ name, designator = .string name → P (next name).1.world) :
    P (clString ⟨w, lock⟩ designator next).1.world := by
  unfold clString
  split
  · exact after _ rfl
  · exact before
  · exact before

theorem continuableError_keeps {continued : Bool}
    (after : continued = true → P (next ⟨w, lock⟩).1.world) :
    P (continuableError ⟨w, lock⟩ continued next).1.world := by
  unfold continuableError
  split
  · rename_i yes
    exact after yes
  · exact before

theorem continuableError_ends (continued : Bool) (outcome : Outcome) :
    P (continuableError ⟨w, lock⟩ continued fun st => (st, outcome)).1.world :=
  continuableError_keeps before fun _ => before

theorem checkLocked_keeps {p : PackageId}
    (after : P (next ⟨w, lock⟩).1.world) : P (checkLocked ⟨w, lock⟩ continues p next).1.world := by
  unfold checkLocked
  split
  · exact continuableError_keeps before fun _ => after
  · exact after

end Rules

/-- What USE-PACKAGE does to the two packages. -/
def World.link (w : World) (x p : PackageId) : World :=
  (w.modify p fun package => { package with uses := x :: package.uses }).modify x
    fun package => { package with usedby := p :: package.usedby }

/-- What UNUSE-PACKAGE does to the two packages. -/
def World.unlink (w : World) (x p : PackageId) : World :=
  (w.modify p fun package => { package with uses := removeEq x package.uses }).modify x
    fun package => { package with usedby := removeEq p package.usedby }

section UseLists

variable {P : World → Prop} {w : World} {lock : Bool} (before : P w)

include before

theorem usePackage_keeps {x p : Designator}
    (effect : ∀ x' p', Coerces w x x' → Coerces w p p' → x' ≠ keywordPackage →
      p' ≠ keywordPackage → p' ≠ x' → x' ∉ (w.pack p').uses → w.useConflict x' p' = false →
      P (w.link x' p')) :
    P (usePackage continues x p ⟨w, lock⟩).1.world := by
  apply coerce_keeps before
  intro x' coercedX
  split
  · exact before
  · rename_i usable
    apply coerce_keeps before
    intro p' coercedP
    apply checkLocked_keeps before
    split
    · exact before
    · rename_i user
      split
      · exact before
      · rename_i differ
        split
        · exact before
        · rename_i new
          apply getLock_keeps before
          split
          · exact giveupLock_ends before _
          · rename_i clear
            have after := effect x' p' coercedX coercedP usable user differ new
              (Bool.not_eq_true _ ▸ clear)
            exact giveupLock_ends after _

theorem unuse_keeps {x p : PackageId} {next : State → Result} (effect : P (w.unlink x p))
    (after : P (next ⟨w.unlink x p, false⟩).1.world) :
    P (unuse continues x p ⟨w, lock⟩ next).1.world := by
  apply checkLocked_keeps before
  apply getLock_keeps before
  exact giveupLock_keeps effect after

theorem unusePackage_keeps {x p : Designator}
    (effect : ∀ x' p', Coerces w x x' → Coerces w p p' → P (w.unlink x' p')) :
    P (unusePackage continues x p ⟨w, lock⟩).1.world := by
  apply coerce_keeps before
  intro x' coercedX
  apply coerce_keeps before
  intro p' coercedP
  exact unuse_keeps before (effect x' p' coercedX coercedP) (effect x' p' coercedX coercedP)

end UseLists

section Deletion

variable {P : List PackageId → World → Prop} {Q : World → Prop} {p : PackageId}
  (weakens : ∀ list w, P list w → Q w)

include weakens

theorem unuseUses_keeps {list : List PackageId} {next : State → Result}
    (unlinks : ∀ w x list, P (x :: list) w → P list (w.unlink x p))
    (after : ∀ w lock, P [] w → Q (next ⟨w, lock⟩).1.world) {w : World} {lock : Bool}
    (before : P list w) : Q (unuseUses continues p ⟨w, lock⟩ next list).1.world := by
  induction list generalizing w lock with
  | nil => exact after w lock before
  | cons x list ih =>
    have unlinked := unlinks w x list before
    exact unuse_keeps (weakens _ _ before) (weakens _ _ unlinked) (ih unlinked)

theorem unuseUsedby_keeps {list : List PackageId} {next : State → Result}
    (unlinks : ∀ w user list, P (user :: list) w → P list (w.unlink p user))
    (after : ∀ w lock, P [] w → Q (next ⟨w, lock⟩).1.world) {w : World} {lock : Bool}
    (before : P list w) : Q (unuseUsedby continues p ⟨w, lock⟩ next list).1.world := by
  induction list generalizing w lock with
  | nil => exact after w lock before
  | cons user list ih =>
    have unlinked := unlinks w user list before
    exact unuse_keeps (weakens _ _ before) (weakens _ _ unlinked) (ih unlinked)

end Deletion

section PackOf

variable (w : World) (p q : PackageId) (change : Package → Package)

theorem pack_modify :
    (w.modify p change).pack q = if q = p then change (w.pack q) else w.pack q := rfl

theorem pack_modify_self : (w.modify p change).pack p = change (w.pack p) := if_pos rfl

theorem pack_modify_of_ne {p q : PackageId} (differ : q ≠ p) :
    (w.modify p change).pack q = w.pack q :=
  if_neg differ

theorem uses_unlink (x : PackageId) :
    ((w.unlink x p).pack q).uses =
      if q = p then removeEq x (w.pack q).uses else (w.pack q).uses := by
  simp only [World.unlink, pack_modify]
  split <;> split <;> rfl

theorem usedby_unlink (x : PackageId) :
    ((w.unlink x p).pack q).usedby =
      if q = x then removeEq p (w.pack q).usedby else (w.pack q).usedby := by
  simp only [World.unlink, pack_modify]
  split <;> split <;> rfl

end PackOf

theorem mem_removeEq {α : Type} [DecidableEq α] {x y : α} {l : List α} :
    y ∈ removeEq x l ↔ y ∈ l ∧ y ≠ x := by
  simp only [removeEq, mem_filter, decide_eq_true_eq]

variable {P : World → Prop} {w : World} {lock : Bool}

theorem deletePackage_keeps {designator : Designator}
    (before : P w) (unlinks : ∀ w x p, P w → P (w.unlink x p))
    (clears : ∀ w p, P w → p ≠ lispPackage → p ≠ keywordPackage → (w.pack p).uses = [] →
      (w.pack p).usedby = [] → P (w.clear p)) :
    P (deletePackage continues designator ⟨w, lock⟩).1.world := by
  have deletes (p : PackageId) : P (deletePackage.delete continues p ⟨w, lock⟩).1.world := by
    apply checkLocked_keeps before
    split
    · exact before
    · rename_i other
      split
      · exact before
      · -- what is left in the use list of `p` is what the loop still has to do
        refine unuseUses_keeps (P := fun list w => P w ∧ ∀ x ∈ (w.pack p).uses, x ∈ list)
          (fun _ _ both => both.1) ?_ ?_ ⟨before, fun _ member => member⟩
        · rintro w x list ⟨holds, within⟩
          refine ⟨unlinks w x p holds, ?_⟩
          intro y member
          rw [uses_unlink, if_pos rfl, mem_removeEq] at member
          exact (mem_cons.mp (within y member.1)).resolve_left member.2
        · rintro w lock ⟨holds, within⟩
          have emptied : (w.pack p).uses = [] := by
            apply eq_nil_iff_forall_not_mem.mpr
            intro x member
            cases within x member
          refine unuseUsedby_keeps
            (P := fun list w => P w ∧ (w.pack p).uses = [] ∧ ∀ x ∈ (w.pack p).usedby, x ∈ list)
            (fun _ _ all => all.1) ?_ ?_ ⟨holds, emptied, fun _ member => member⟩
          · rintro w user list ⟨holds, emptied, within⟩
            refine ⟨unlinks w p user holds, ?_, ?_⟩
            · rw [uses_unlink, emptied]
              split <;> rfl
            · intro y member
              rw [usedby_unlink, if_pos rfl, mem_removeEq] at member
              exact (mem_cons.mp (within y member.1)).resolve_left member.2
          · rintro w lock ⟨holds, emptied, within⟩
            have unused : (w.pack p).usedby = [] := by
              apply eq_nil_iff_forall_not_mem.mpr
              intro x member
              cases within x member
            have cleared := clears w p holds (fun same => other (.inl same))
              (fun same => other (.inr same)) emptied unused
            apply getLock_keeps holds
            exact giveupLock_ends cleared _
  unfold deletePackage
  split
  · exact before
  · split
    · exact continuableError_ends before _ _
    · exact deletes _
  · exact deletes _

/-- The packages that a use list stands for, up to the first designator that stands for
none, and the error for that one. -/
def World.coerceAll (w : World) : List Designator → List PackageId × Option Outcome
  | [] => ([], none)
  | .other :: _ => ([], some .continuable)
  | .package y :: useList => ((y :: (w.coerceAll useList).1), (w.coerceAll useList).2)
  | .string name :: useList =>
    match w.findPackage name with
    | none => ([], some .fatal)
    | some y => ((y :: (w.coerceAll useList).1), (w.coerceAll useList).2)

def World.linkAll (w : World) (x : PackageId) (used : List PackageId) : World :=
  used.foldl (fun w y => w.link y x) w

/-- A package object that is in no list yet. -/
def World.fresh (w : World) (name : String) (nicknames : List String) : World :=
  { w.modify w.packageCount fun _ => { Package.empty (some name) with nicknames := nicknames } with
    packageCount := w.packageCount + 1 }

def World.register (w : World) (x : PackageId) : World := { w with packages := x :: w.packages }

theorem findPackage_congr (w w' : World) (packages : w'.packages = w.packages)
    (names : ∀ p ∈ w.packages, ∀ name, w'.Named p name ↔ w.Named p name) (name : String) :
    w'.findPackage name = w.findPackage name := by
  unfold World.findPackage
  rw [packages]
  apply List.find?_congr
  intro p member
  exact decide_eq_decide.mpr (names p member name)

theorem named_link (w : World) (x p q : PackageId) (name : String) :
    (w.link x p).Named q name ↔ w.Named q name := by
  simp only [World.Named, World.link, pack_modify]
  split <;> split <;> rfl

theorem coerceAll_congr {w' : World} (find : ∀ name, w'.findPackage name = w.findPackage name)
    (useList : List Designator) : w'.coerceAll useList = w.coerceAll useList := by
  induction useList with
  | nil => rfl
  | cons designator useList ih =>
    cases designator with
    | string name => simp only [World.coerceAll, find, ih]
    | package y => simp only [World.coerceAll, ih]
    | other => rfl

theorem makeUses_eq (x : PackageId) (w : World) (lock : Bool) (next : State → Result)
    (useList : List Designator) :
    makeUses x ⟨w, lock⟩ next useList =
      match w.coerceAll useList with
      | (used, none) => next ⟨w.linkAll x used, lock⟩
      | (used, some outcome) => (⟨w.linkAll x used, lock⟩, outcome) := by
  induction useList generalizing w with
  | nil => rfl
  | cons designator useList ih =>
    have find (y : PackageId) := findPackage_congr w (w.link y x) rfl
      fun p _ => named_link w y x p
    have recurse (y : PackageId) :
        makeUses x ⟨w.link y x, lock⟩ next useList =
          match (y :: (w.coerceAll useList).1, (w.coerceAll useList).2) with
          | (used, none) => next ⟨w.linkAll x used, lock⟩
          | (used, some outcome) => (⟨w.linkAll x used, lock⟩, outcome) := by
      rw [ih, coerceAll_congr (find y)]
      rcases w.coerceAll useList with ⟨used, outcome⟩
      cases outcome with
      | none => rfl
      | some outcome => rfl
    cases designator with
    | string name =>
      simp only [makeUses, coerceToPackage, World.coerceAll]
      cases found : w.findPackage name with
      | none => rfl
      | some y => exact recurse y
    | package y => exact recurse y
    | other => rfl

theorem findPackage_fresh (new : w.packageCount ∉ w.packages) (name : String)
    (nicknames : List String) (wanted : String) :
    (w.fresh name nicknames).findPackage wanted = w.findPackage wanted := by
  refine findPackage_congr w (w.fresh name nicknames) rfl ?_ wanted
  intro p member name
  have differ : p ≠ w.packageCount := fun same => new (same ▸ member)
  simp only [World.Named, World.fresh, pack_modify_of_ne _ _ differ]

/-- A designator of a nickname that names no package. -/
def FreeName (w : World) (designator : Designator) : Prop :=
  ∃ nick, designator = .string nick ∧ w.findPackage nick = none

theorem nickname_fresh (w : World) (name nick : String) (nicknames : List String) (lock : Bool) :
    (State.modify ⟨w.fresh name nicknames, lock⟩ w.packageCount
      fun package => { package with nicknames := nick :: package.nicknames }) =
    ⟨w.fresh name (nick :: nicknames), lock⟩ := by
  simp only [State.modify, World.fresh, World.modify]
  congr 2
  funext q
  split <;> rfl

theorem makeNicknames_keeps (new : w.packageCount ∉ w.packages) {name : String}
    {next : State → Result}
    (allocates : ∀ nicknames, P (w.fresh name nicknames)) (list : List Designator)
    (after : (∀ designator ∈ list, FreeName w designator) → ∀ nicknames lock,
      (∀ nick ∈ nicknames, w.findPackage nick = none) →
      P (next ⟨w.fresh name nicknames, lock⟩).1.world)
    (nicknames : List String) (lock : Bool)
    (free : ∀ nick ∈ nicknames, w.findPackage nick = none) :
    P (makeNicknames continues w.packageCount ⟨w.fresh name nicknames, lock⟩ next
      list).1.world := by
  induction list generalizing nicknames with
  | nil => exact after (by simp) nicknames lock free
  | cons designator list ih =>
    apply clString_keeps (allocates nicknames)
    intro nick designates
    simp only [findPackage_fresh new]
    cases found : w.findPackage nick with
    | some other =>
      exact giveupLock_keeps (allocates nicknames) (continuableError_ends (allocates nicknames) _ _)
    | none =>
      simp only [nickname_fresh]
      apply ih
      · intro rest
        refine after ?_
        intro d member
        rcases mem_cons.mp member with rfl | later
        · exact ⟨nick, designates, found⟩
        · exact rest d later
      · intro other member
        rcases mem_cons.mp member with rfl | old
        · exact found
        · exact free other old

/-- The arguments with which MAKE-PACKAGE gets to the packages used. -/
structure Makes (w : World) (name : Designator) (nicknames useList : DesignatorList) : Prop where
  properNicknames : nicknames.proper = true
  properUses : useList.proper = true
  name : FreeName w name
  nicknames : ∀ designator ∈ nicknames.elements, FreeName w designator

theorem makePackage_keeps (before : P w)
    (new : w.packageCount ∉ w.packages) {name : Designator} {nicknames useList : DesignatorList}
    (allocates : ∀ name nicknames, P (w.fresh name nicknames))
    (stops : Makes w name nicknames useList → ∀ name nicknames used outcome,
      w.coerceAll useList.elements = (used, some outcome) →
      P ((w.fresh name nicknames).linkAll w.packageCount used))
    (registers : Makes w name nicknames useList → ∀ name nicknames used,
      w.findPackage name = none → (∀ nick ∈ nicknames, w.findPackage nick = none) →
      w.coerceAll useList.elements = (used, none) →
      P (((w.fresh name nicknames).linkAll w.packageCount used).register w.packageCount)) :
    P (makePackage continues name nicknames useList ⟨w, lock⟩).1.world := by
  apply clString_keeps before
  intro n designates
  split
  · exact before
  · rename_i proper
    simp only [Bool.or_eq_true, Bool.not_eq_true', not_or, Bool.not_eq_false] at proper
    apply getLock_keeps before
    cases found : w.findPackage n with
    | some other => exact giveupLock_keeps before (continuableError_ends before _ _)
    | none =>
      refine makeNicknames_keeps new (allocates n) nicknames.elements ?_ [] true (by simp)
      intro all nicks lock free
      have makes : Makes w name nicknames useList :=
        ⟨proper.1, proper.2, ⟨n, designates, found⟩, all⟩
      have coerced := coerceAll_congr (findPackage_fresh new n nicks) useList.elements
      simp only [makeUses_eq, coerced]
      rcases listed : w.coerceAll useList.elements with ⟨used, outcome⟩
      cases outcome with
      | none => exact giveupLock_ends (registers makes n nicks used found free listed) _
      | some outcome => exact stops makes n nicks used outcome listed

/-- A package with the name and the nicknames that RENAME-PACKAGE gives it. -/
def World.rename (w : World) (x : PackageId) (name : String) (nicknames : List String) : World :=
  w.modify x fun package => { package with name := some name, nicknames := nicknames }

theorem nickname_renamed (w : World) (x : PackageId) (name nick : String)
    (nicknames : List String) (lock : Bool) :
    (State.modify ⟨w.rename x name nicknames, lock⟩ x
      fun package => { package with nicknames := nick :: package.nicknames }) =
    ⟨w.rename x name (nick :: nicknames), lock⟩ := by
  simp only [State.modify, World.rename, World.modify]
  congr 2
  funext q
  split <;> rfl

theorem renameNicknames_keeps {x : PackageId} {name : String} {elements : List Designator}
    (effect : ∀ nicknames, (∀ nick ∈ nicknames, .string nick ∈ elements) →
      P (w.rename x name nicknames))
    (proper : Bool) (list : List Designator) (within : ∀ d ∈ list, d ∈ elements)
    (nicknames : List String) (taken : ∀ nick ∈ nicknames, .string nick ∈ elements)
    (lock : Bool) :
    P (renameNicknames x ⟨w.rename x name nicknames, lock⟩ proper list).1.world := by
  induction list generalizing nicknames with
  | nil =>
    have renamed := effect nicknames taken
    simp only [renameNicknames]
    split
    · exact giveupLock_ends renamed _
    · exact giveupLock_ends renamed _
  | cons designator list ih =>
    have later : ∀ d ∈ list, d ∈ elements :=
      fun d member => within d (mem_cons_of_mem _ member)
    cases designator with
    | other => exact effect nicknames taken
    | package q =>
      simp only [renameNicknames]
      split
      · exact ih later nicknames taken
      · exact effect nicknames taken
    | string nick =>
      simp only [renameNicknames]
      split
      · exact ih later nicknames taken
      · rw [nickname_renamed]
        apply ih later
        intro other member
        rcases mem_cons.mp member with rfl | old
        · exact within _ (mem_cons_self ..)
        · exact taken other old

theorem renamePackage_keeps (before : P w) {x name : Designator} {nicknames : DesignatorList}
    (effect : ∀ x' n nicks, Coerces w x x' → name = .string n →
      (w.findPackage n = none ∨ w.findPackage n = some x') →
      (∀ nick ∈ nicks, .string nick ∈ nicknames.elements) →
      P (w.rename x' n nicks)) :
    P (renamePackage continues x name nicknames ⟨w, lock⟩).1.world := by
  apply clString_keeps before
  intro n designates
  apply coerce_keeps before
  intro x' coerced
  apply checkLocked_keeps before
  apply getLock_keeps before
  dsimp only
  split
  · exact giveupLock_ends before _
  · rename_i free
    have unused : w.findPackage n = none ∨ w.findPackage n = some x' := by
      by_contra taken
      rw [not_or] at taken
      exact free taken
    exact renameNicknames_keeps
      (fun nicks taken => effect x' n nicks coerced designates unused taken)
      nicknames.proper nicknames.elements (fun _ member => member) [] (by simp) true

section Symbols

variable {P : World → Prop} {w : World} {lock : Bool} (before : P w)

include before

variable {p : Designator}

theorem packageLock_keeps {locked : Bool}
    (effect : ∀ p', P (w.modify p' fun package => { package with locked := locked })) :
    P (packageLock p locked ⟨w, lock⟩).1.world := by
  apply coerce_keeps before
  intro p' _
  exact effect p'

theorem intern_keeps {name : String}
    (effect : ∀ p', Coerces w p p' → (w.findSymbolInner name p').2 = .nothing →
      P (w.internNew name p')) :
    P (intern name p ⟨w, lock⟩).1.world := by
  apply coerce_keeps before
  intro p' coerced
  split
  · exact before
  · rename_i missing
    split
    · exact before
    · apply getLock_keeps before
      exact giveupLock_ends (effect p' coerced (not_not.mp missing)) _

variable {s : Symbol}

theorem unintern_keeps
    (plain : ∀ p', Coerces w p p' → w.holds s p' ≠ .nothing → s ∉ (w.pack p').shadowings →
      P (w.remove s p'))
    (shadowing : ∀ p', Coerces w p p' → w.holds s p' ≠ .nothing → s ∈ (w.pack p').shadowings →
      w.inheritedConflict s.name p' = false →
      P ((w.remove s p').modify p' fun package =>
        { package with shadowings := removeEq s package.shadowings })) :
    P (unintern s p ⟨w, lock⟩).1.world := by
  apply coerce_keeps before
  intro p' coerced
  apply getLock_keeps before
  split
  · exact giveupLock_ends before _
  · rename_i held
    split
    · exact giveupLock_ends before _
    · split
      · rename_i shadows
        split
        · exact giveupLock_ends before _
        · rename_i clear
          exact giveupLock_ends (shadowing p' coerced held shadows (Bool.not_eq_true _ ▸ clear)) _
      · rename_i notShadowing
        exact giveupLock_ends (plain p' coerced held notShadowing) _

theorem export_keeps (effect : ∀ p' flag, Coerces w p p' → w.findSymbolInner s.name p' = (s, flag) →
      (flag = .nothing → continues .importFirst = true) → flag ≠ .external →
      w.exportConflict s p' = false → P (w.makeExternal s p' flag)) :
    P (export2 continues s p ⟨w, lock⟩).1.world := by
  apply coerce_keeps before
  intro p' coerced
  apply checkLocked_keeps before
  apply getLock_keeps before
  rcases found : w.findSymbolInner s.name p' with ⟨x, flag⟩
  have proceeds (lock : Bool) (goesOn : flag = .nothing → continues .importFirst = true) :
      P (if x ≠ s then giveupLock ⟨w, lock⟩ fun st => (st, .fatal)
        else if flag = .external then giveupLock ⟨w, lock⟩ fun st => (st, .returned)
        else if w.exportConflict s p' then giveupLock ⟨w, lock⟩ fun st => (st, .fatal)
        else giveupLock ⟨w.makeExternal s p' flag, lock⟩ fun st => (st, .returned)).1.world := by
    split
    · exact giveupLock_ends before _
    · rename_i same
      rw [not_not.mp same] at found
      split
      · exact giveupLock_ends before _
      · rename_i notExternal
        split
        · exact giveupLock_ends before _
        · rename_i clear
          exact giveupLock_ends
            (effect p' flag coerced found goesOn notExternal (Bool.not_eq_true _ ▸ clear)) _
  dsimp only
  split
  · apply giveupLock_keeps before
    exact continuableError_keeps before fun continued => proceeds false fun _ => continued
  · rename_i accessible
    exact proceeds true fun nothing => absurd nothing accessible

theorem unexport_keeps (effect : ∀ p' x, Coerces w p p' → p' ≠ keywordPackage →
      w.findSymbolInner s.name p' = (x, .external) → P (w.makeInternal s p')) :
    P (unexport2 continues s p ⟨w, lock⟩).1.world := by
  apply coerce_keeps before
  intro p' coerced
  split
  · exact before
  · rename_i other
    apply checkLocked_keeps before
    apply getLock_keeps before
    rcases found : w.findSymbolInner s.name p' with ⟨x, flag⟩
    dsimp only
    split
    · exact giveupLock_ends before _
    · split
      · exact giveupLock_ends before _
      · rename_i external
        rw [not_not.mp external] at found
        exact giveupLock_ends (effect p' x coerced other found) _

theorem import_keeps
    (effect : ∀ p' x flag, Coerces w p p' → w.findSymbolInner s.name p' = (x, flag) →
      (flag = .nothing ∨ flag = .inherited ∧ (x ≠ s → continues .ignoreConflict = true)) →
      P ((w.enter s p').symbolAddPackage s p')) :
    P (import2 continues s p ⟨w, lock⟩).1.world := by
  apply coerce_keeps before
  intro p' coerced
  apply checkLocked_keeps before
  apply getLock_keeps before
  rcases found : w.findSymbolInner s.name p' with ⟨x, flag⟩
  have proceeds (lock : Bool)
      (goesOn : flag ≠ .nothing ∧ x ≠ s → continues .ignoreConflict = true) :
      P (if flag = .internal ∨ flag = .external then giveupLock ⟨w, lock⟩ fun st => (st, .returned)
        else giveupLock ⟨(w.enter s p').symbolAddPackage s p', lock⟩
          fun st => (st, .returned)).1.world := by
    split
    · exact giveupLock_ends before _
    · rename_i absent
      refine giveupLock_ends (effect p' x flag coerced found ?_) _
      cases flag with
      | nothing => exact .inl rfl
      | internal => exact absurd (.inl rfl) absent
      | external => exact absurd (.inr rfl) absent
      | inherited => exact .inr ⟨rfl, fun differ => goesOn ⟨by decide, differ⟩⟩
  dsimp only
  split
  · apply giveupLock_keeps before
    exact continuableError_keeps before fun continued => proceeds false fun _ => continued
  · rename_i agree
    exact proceeds true fun conflict => absurd conflict agree

theorem shadowingImport_keeps
    (present : ∀ p' flag, Coerces w p p' → w.findSymbolInner s.name p' = (s, flag) →
      (flag = .internal ∨ flag = .external) → P (w.shadowWith s p'))
    (replaces : ∀ p' x flag, Coerces w p p' → w.findSymbolInner s.name p' = (x, flag) →
      (flag = .internal ∨ flag = .external) → x ≠ s →
      P (((w.displace x p' flag).shadowWith s p').enter s p'))
    (enters : ∀ p' x flag, Coerces w p p' → w.findSymbolInner s.name p' = (x, flag) →
      ¬ (flag = .internal ∨ flag = .external) → P ((w.shadowWith s p').enter s p')) :
    P (shadowingImport continues s p ⟨w, lock⟩).1.world := by
  apply coerce_keeps before
  intro p' coerced
  apply checkLocked_keeps before
  apply getLock_keeps before
  rcases found : w.findSymbolInner s.name p' with ⟨x, flag⟩
  dsimp only
  split
  · rename_i here
    split
    · rename_i same
      subst same
      split
      · exact giveupLock_ends before _
      · exact giveupLock_ends (present p' flag coerced found here) _
    · rename_i differ
      exact giveupLock_ends (replaces p' x flag coerced found here differ) _
  · rename_i absent
    exact giveupLock_ends (enters p' x flag coerced found absent) _

theorem shadow_keeps {name : Designator}
    (present : ∀ n p' x flag, name = .string n → Coerces w p p' →
      w.findSymbolInner n p' = (x, flag) → (flag = .internal ∨ flag = .external) →
      P (w.shadowWith x p'))
    (enters : ∀ n p' x flag, name = .string n → Coerces w p p' →
      w.findSymbolInner n p' = (x, flag) → ¬ (flag = .internal ∨ flag = .external) →
      P ((((w.makeSymbol n).1.enter (w.makeSymbol n).2 p').setHome (w.makeSymbol n).2
        (some p')).shadowWith (w.makeSymbol n).2 p')) :
    P (shadow continues name p ⟨w, lock⟩).1.world := by
  apply clString_keeps before
  intro n designates
  apply coerce_keeps before
  intro p' coerced
  apply checkLocked_keeps before
  apply getLock_keeps before
  rcases found : w.findSymbolInner n p' with ⟨x, flag⟩
  dsimp only
  split
  · rename_i here
    exact giveupLock_ends (present n p' x flag designates coerced found here) _
  · rename_i absent
    exact giveupLock_ends (enters n p' x flag designates coerced found absent) _

end Symbols

end Ecl.Packages
