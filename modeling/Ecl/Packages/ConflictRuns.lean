import Ecl.Packages.Changes

/- The operations on packages, and runs without name conflicts. -/
namespace Ecl.Packages

open Option

theorem Clean.fewer {w w' : World} {name : String} {p : PackageId} (clean : Clean w name p)
    (internal : (w'.pack p).internal = (w.pack p).internal)
    (external : (w'.pack p).external = (w.pack p).external)
    (shadowings : (w'.pack p).shadowings = (w.pack p).shadowings)
    (registered : p ∈ w'.packages → p ∈ w.packages)
    (inherits : ∀ a, Inherits w' name p a → Inherits w name p a) : Clean w' name p where
  disjoint := by
    rw [internal, external]
    exact clean.disjoint
  shadowing := by
    rw [internal, external, shadowings]
    exact clean.shadowing
  conflictFree := by
    rw [internal, external, shadowings]
    intro here
    exact (clean.conflictFree (registered here)).mono inherits fun _ member _ => member

theorem clean_of_empty {w : World} {name : String} {p : PackageId}
    (internal : (w.pack p).internal = []) (external : (w.pack p).external = [])
    (shadowings : (w.pack p).shadowings = []) (agree : p ∈ w.packages →
      ∀ a b, Inherits w name p a → Inherits w name p b → a = b) : Clean w name p where
  disjoint _ := by
    rw [internal]
    exact .inl rfl
  shadowing _ c := by
    rw [shadowings]
    intro member
    cases member
  conflictFree here := by
    rw [internal, external]
    intro a b accessA accessB differ
    simp only [gethash_nil, reduceCtorEq, false_or] at accessA accessB
    exact absurd (agree here a b accessA accessB) differ

namespace Sound

variable {w : World} (sound : Sound w)

include sound

theorem same {w' : World} (packages : w'.packages = w.packages)
    (packageCount : w'.packageCount = w.packageCount)
    (pack : ∀ p, (w'.pack p).uses = (w.pack p).uses ∧ (w'.pack p).usedby = (w.pack p).usedby ∧
      (w'.pack p).internal = (w.pack p).internal ∧ (w'.pack p).external = (w.pack p).external ∧
      (w'.pack p).shadowings = (w.pack p).shadowings) : Sound w' where
  allocated := by
    refine ⟨?_, ?_, ?_, ?_⟩
    · rw [packageCount]
      exact sound.allocated.keyword
    · rw [packages, packageCount]
      exact sound.allocated.registered
    · intro p
      rw [(pack p).1, packageCount]
      exact sound.allocated.uses p
    · intro p
      rw [(pack p).2.1, packageCount]
      exact sound.allocated.usedby p
  linked p q := by
    rw [(pack p).1, (pack q).2.1]
    exact sound.linked p q
  irreflexive p := by
    rw [(pack p).1]
    exact sound.irreflexive p
  keyword := by
    rw [(pack keywordPackage).1]
    exact sound.keyword
  clean name p := by
    obtain ⟨uses, _, internal, external, shadowings⟩ := pack p
    apply (sound.clean name p).fewer internal external shadowings
    · rw [packages]
      exact id
    · rintro a ⟨q, member, found⟩
      rw [uses] at member
      rw [(pack q).2.2.2.1] at found
      exact ⟨q, member, found⟩

theorem link {x p : PackageId} (hereX : x < w.packageCount) (hereP : p < w.packageCount)
    (other : p ≠ keywordPackage) (differ : p ≠ x) (clear : w.useConflict x p = false) :
    Sound (w.link x p) := by
  have only := OnlyLists.link w x p
  refine ⟨sound.allocated.link hereX hereP, ?_, ?_, ?_, ?_⟩
  · intro q y member
    rw [mem_usedby_link]
    rcases (mem_uses_link w x p q y).mp member with ⟨rfl, rfl⟩ | old
    · exact .inl ⟨rfl, rfl⟩
    · exact .inr (sound.linked q y old)
  · intro q member
    rcases (mem_uses_link w x p q q).mp member with ⟨rfl, same⟩ | old
    · exact differ same
    · exact sound.irreflexive q old
  · rw [uses_link, if_neg (Ne.symm other)]
    exact sound.keyword
  · intro name q
    have inherits {a : Symbol} (now : Inherits (w.link x p) name q a) :
        Inherits w name q a ∨ q = p ∧ gethash name (w.pack x).external = some a := by
      obtain ⟨y, member, found⟩ := now
      rw [only.external] at found
      rcases (mem_uses_link w x p q y).mp member with ⟨rfl, rfl⟩ | old
      · exact .inr ⟨rfl, found⟩
      · exact .inl ⟨y, old, found⟩
    have clean := sound.clean name q
    by_cases user : q = p
    · subst user
      refine ⟨?_, ?_, ?_⟩
      · rw [only.internal, only.external]
        exact clean.disjoint
      · rw [only.internal, only.external, only.shadowings]
        exact clean.shadowing
      · rw [only.internal, only.external, only.shadowings, only.packages]
        intro here
        -- a symbol that is external in `x` agrees with all others, or one shadows them
        have new {a : Symbol} (external : gethash name (w.pack x).external = some a) :
            (∀ b, gethash name (w.pack q).internal = some b ∨
              gethash name (w.pack q).external = some b ∨ Inherits w name q b → b = a) ∨
            ∃ c ∈ (w.pack q).shadowings, gethash name (w.pack q).internal = some c ∨
              gethash name (w.pack q).external = some c := by
          apply sound.harmless_of_find here other rfl
          have checked := List.any_eq_false.mp clear a (mem_of_gethash external)
          rw [gethash_name external] at checked
          by_contra conflict
          simp only [not_or] at conflict
          obtain ⟨something, distinct, notShadowing⟩ := conflict
          exact checked (by simpa using ⟨something, Ne.symm distinct, notShadowing⟩)
        intro a b accessA accessB distinct
        have access {s : Symbol} (now : gethash name (w.pack q).internal = some s ∨
            gethash name (w.pack q).external = some s ∨ Inherits (w.link x q) name q s) :
            (gethash name (w.pack q).internal = some s ∨
              gethash name (w.pack q).external = some s ∨ Inherits w name q s) ∨
            gethash name (w.pack x).external = some s := by
          rcases now with internal | external | inherited
          · exact .inl (.inl internal)
          · exact .inl (.inr (.inl external))
          · rcases inherits inherited with old | ⟨_, found⟩
            · exact .inl (.inr (.inr old))
            · exact .inr found
        rcases access accessA with oldA | newA
        · rcases access accessB with oldB | newB
          · exact clean.conflictFree here a b oldA oldB distinct
          · rcases new newB with alone | shadowed
            · exact absurd (alone a oldA) distinct
            · exact shadowed
        · rcases new newA with alone | shadowed
          · rcases access accessB with oldB | newB
            · exact absurd (alone b oldB).symm distinct
            · exact absurd (some.inj (newA.symm.trans newB)) distinct
          · exact shadowed
    · apply clean.fewer (only.internal q) (only.external q) (only.shadowings q)
      · rw [only.packages]
        exact id
      · intro a now
        exact (inherits now).resolve_right fun both => user both.1

theorem unlink (x p : PackageId) : Sound (w.unlink x p) := by
  have only := OnlyLists.unlink w x p
  refine ⟨sound.allocated.unlink x p, ?_, ?_, ?_, ?_⟩
  · intro q y member
    obtain ⟨old, kept⟩ := (mem_uses_unlink w x p q y).mp member
    rw [mem_usedby_unlink]
    exact ⟨sound.linked q y old, fun same => kept ⟨same.2, same.1⟩⟩
  · intro q member
    exact sound.irreflexive q ((mem_uses_unlink w x p q q).mp member).1
  · apply List.eq_nil_iff_forall_not_mem.mpr
    intro y member
    have old := ((mem_uses_unlink w x p keywordPackage y).mp member).1
    rw [sound.keyword] at old
    cases old
  · intro name q
    apply (sound.clean name q).fewer (only.internal q) (only.external q) (only.shadowings q)
    · rw [only.packages]
      exact id
    · rintro a ⟨y, member, found⟩
      rw [only.external] at found
      exact ⟨y, ((mem_uses_unlink w x p q y).mp member).1, found⟩

theorem clear {p : PackageId} (other : p ≠ keywordPackage) (usedby : (w.pack p).usedby = []) :
    Sound (w.clear p) := by
  have clears := clear_clears w p
  have lists (q : PackageId) : ((w.clear p).pack q).uses = (w.pack q).uses ∧
      ((w.clear p).pack q).usedby = (w.pack q).usedby := by
    by_cases same : q = p
    · rw [same, clears.self]
      exact ⟨rfl, rfl⟩
    · rw [clears.others q same]
      exact ⟨rfl, rfl⟩
  refine ⟨sound.allocated.clear p, ?_, ?_, ?_, ?_⟩
  · intro q y
    rw [(lists q).1, (lists y).2]
    exact sound.linked q y
  · intro q
    rw [(lists q).1]
    exact sound.irreflexive q
  · rw [(lists keywordPackage).1]
    exact sound.keyword
  · intro name q
    by_cases same : q = p
    · subst same
      apply clean_of_empty
      · rw [clears.self]
      · rw [clears.self]
      · rw [clears.self]
      · rw [clears.packages]
        intro member
        exact absurd rfl (mem_removeEq.mp member).2
    · have pack := clears.others q same
      apply (sound.clean name q).fewer (by rw [pack]) (by rw [pack]) (by rw [pack])
      · rw [clears.packages]
        exact fun member => (mem_removeEq.mp member).1
      · rintro a ⟨y, member, found⟩
        rw [pack] at member
        have kept : y ≠ p := by
          rintro rfl
          have user := sound.linked q y member
          rw [usedby] at user
          cases user
        rw [clears.others y kept] at found
        exact ⟨y, member, found⟩

theorem makes {name : String} {nicknames : List String} {used : List PackageId}
    (here : ∀ y ∈ used, y < w.packageCount) :
    Sound ((w.fresh name nicknames).linkAll w.packageCount used) := by
  have only := OnlyLists.linkAll (w.fresh name nicknames) w.packageCount used
  have old {q y : PackageId} (member : y ∈ (w.pack q).uses) : q ≠ w.packageCount :=
    ne_of_lt (sound.allocated.uses q y member).1
  have uses {q y : PackageId}
      (member : y ∈ (((w.fresh name nicknames).linkAll w.packageCount used).pack q).uses) :
      q = w.packageCount ∧ y ∈ used ∨ y ∈ (w.pack q).uses := by
    rcases (mem_uses_linkAll _ _ _ _ _).mp member with new | before
    · exact .inl new
    · by_cases self : q = w.packageCount
      · rw [self, pack_fresh_self] at before
        cases before
      · rw [pack_fresh_of_ne self] at before
        exact .inr before
  refine ⟨?_, ?_, ?_, ?_, ?_⟩
  · exact (sound.allocated.fresh name nicknames).linkAll (Nat.lt_succ_self _)
      fun y member => Nat.lt_succ_of_lt (here y member)
  · intro q y member
    rw [mem_usedby_linkAll]
    rcases uses member with new | before
    · exact .inl new
    · right
      rw [pack_fresh_of_ne (ne_of_lt (sound.allocated.uses q y before).2)]
      exact sound.linked q y before
  · intro q member
    rcases uses member with ⟨rfl, listed⟩ | before
    · exact lt_irrefl _ (here _ listed)
    · exact sound.irreflexive q before
  · apply List.eq_nil_iff_forall_not_mem.mpr
    intro y member
    rcases uses member with ⟨same, _⟩ | before
    · exact absurd same (ne_of_lt sound.allocated.keyword)
    · rw [sound.keyword] at before
      cases before
  · intro wanted q
    by_cases self : q = w.packageCount
    · subst self
      apply clean_of_empty
      · rw [only.internal, pack_fresh_self]
        rfl
      · rw [only.external, pack_fresh_self]
        rfl
      · rw [only.shadowings, pack_fresh_self]
        rfl
      · rw [only.packages]
        exact fun member => absurd member sound.allocated.new
    · apply (sound.clean wanted q).fewer
      · rw [only.internal, pack_fresh_of_ne self]
      · rw [only.external, pack_fresh_of_ne self]
      · rw [only.shadowings, pack_fresh_of_ne self]
      · rw [only.packages]
        exact id
      · rintro a ⟨y, member, found⟩
        have before := (uses member).resolve_left fun new => self new.1
        rw [only.external, pack_fresh_of_ne (ne_of_lt (sound.allocated.uses q y before).2)] at found
        exact ⟨y, before, found⟩

theorem register {x : PackageId} (here : x < w.packageCount) (internal : (w.pack x).internal = [])
    (external : (w.pack x).external = []) (shadowings : (w.pack x).shadowings = [])
    (agree : ∀ name a b, Inherits w name x a → Inherits w name x b → a = b) :
    Sound (w.register x) where
  allocated := sound.allocated.register here
  linked := sound.linked
  irreflexive := sound.irreflexive
  keyword := sound.keyword
  clean name q := by
    by_cases self : q = x
    · subst self
      exact clean_of_empty internal external shadowings fun _ => agree name
    · refine (sound.clean name q).fewer rfl rfl rfl ?_ fun _ inherits => inherits
      intro member
      exact (List.mem_cons.mp member).resolve_left self

end Sound

/-- The calls that make no conflict. MAKE-PACKAGE is given packages to use whose external
symbols agree, UNEXPORT the symbol that is external, and a new keyword has a name that is
free or shadowed. -/
def AvoidsConflict : Op → World → Prop
  | .makePackage name nicknames useList, w =>
    Makes w name nicknames useList → (w.coerceAll useList.elements).2 = none →
      ∀ y ∈ (w.coerceAll useList.elements).1, ∀ z ∈ (w.coerceAll useList.elements).1,
      ∀ wanted a b, gethash wanted (w.pack y).external = some a →
        gethash wanted (w.pack z).external = some b → a = b
  | .unexport s p, w =>
    ∀ p', Coerces w p p' → p' ≠ keywordPackage →
      ∀ x, w.findSymbolInner s.name p' = (x, .external) → x = s
  | .intern name p, w =>
    Coerces w p keywordPackage → (w.findSymbolInner name keywordPackage).2 = .nothing →
      FreeKeyword w name
  | _, _ => True

namespace Sound

variable {w : World} (sound : Sound w)

include sound

theorem run_makePackage {name : Designator} {nicknames useList : DesignatorList}
    (here : Op.Exists w (.makePackage name nicknames useList))
    (meets : AvoidsConflict (.makePackage name nicknames useList) w) (lock : Bool) :
    Sound (makePackage never name nicknames useList ⟨w, lock⟩).1.world := by
  have all := sound.allocated.coerceAll here
  apply makePackage_keeps sound sound.allocated.new
  · intro name nicknames
    have made : Sound ((w.fresh name nicknames).linkAll w.packageCount []) :=
      sound.makes (by simp)
    exact made
  · intro _ name nicknames used outcome listed
    rw [listed] at all
    exact sound.makes all
  · intro makes name nicknames used _ _ listed
    have agree := meets makes
    rw [listed] at all agree
    have only := OnlyLists.linkAll (w.fresh name nicknames) w.packageCount used
    have made : Sound ((w.fresh name nicknames).linkAll w.packageCount used) := sound.makes all
    -- the new package inherits from the packages listed
    have inherits {wanted : String} {a : Symbol} (now : Inherits
        ((w.fresh name nicknames).linkAll w.packageCount used) wanted w.packageCount a) :
        ∃ y ∈ used, gethash wanted (w.pack y).external = some a := by
      obtain ⟨y, member, found⟩ := now
      rw [mem_uses_linkAll, pack_fresh_self] at member
      rcases member with ⟨_, listed⟩ | none
      · rw [only.external, pack_fresh_of_ne (ne_of_lt (all y listed))] at found
        exact ⟨y, listed, found⟩
      · cases none
    apply made.register
    · rw [only.packageCount]
      exact Nat.lt_succ_self _
    · rw [only.internal, pack_fresh_self]
      rfl
    · rw [only.external, pack_fresh_self]
      rfl
    · rw [only.shadowings, pack_fresh_self]
      rfl
    · intro wanted a b inheritsA inheritsB
      obtain ⟨y, memberY, foundA⟩ := inherits inheritsA
      obtain ⟨z, memberZ, foundB⟩ := inherits inheritsB
      exact agree rfl y memberY z memberZ wanted a b foundA foundB

theorem run_symbols {op : Op} (symbols : op.onSymbols = true) (meets : AvoidsConflict op w)
    (lock : Bool) : Sound (op.run never ⟨w, lock⟩).1.world := by
  cases op with
  | intern name p =>
    apply intern_keeps sound
    intro p' coerced missing
    by_cases keyword : p' = keywordPackage
    · subst keyword
      exact sound_intern_keyword sound (meets coerced missing)
    · exact sound_intern sound keyword missing
  | unintern s p =>
    apply unintern_keeps sound
    · intro p' _ held plain
      exact sound_unintern sound held plain
    · intro p' _ held _ clear
      exact sound_unintern_shadowing sound held clear
  | exports s p =>
    apply export_keeps sound
    intro p' flag _ found goesOn notExternal clear
    have accessible : flag ≠ .nothing := fun nothing => absurd (goesOn nothing) (by decide)
    exact sound_export sound found accessible notExternal clear
  | unexport s p =>
    apply unexport_keeps sound
    intro p' x coerced other found
    rw [meets p' coerced other x found] at found
    exact sound_unexport sound found other
  | imports s p =>
    apply import_keeps sound
    intro p' x flag _ found absent
    have agrees : flag = .nothing ∨ flag = .inherited ∧ x = s := by
      refine absent.imp id ?_
      rintro ⟨inherited, goesOn⟩
      exact ⟨inherited, by_contra fun differ => absurd (goesOn differ) (by decide)⟩
    apply sound_import sound found agrees
    · exact (Quiet.enter w s p').trans (Quiet.symbolAddPackage _ s p')
    · exact pack_symbolAddPackage _ s p'
  | shadowingImport s p =>
    apply shadowingImport_keeps sound
    · intro p' flag _ found here
      exact sound_shadowWith sound found here
    · intro p' x flag _ found here _
      exact sound_displace sound found here
    · intro p' x flag _ found absent
      exact sound_enter_shadowing sound found absent
        ((Quiet.shadowWith w s p').trans (Quiet.enter _ s p')) rfl
  | shadow name p =>
    apply shadow_keeps sound
    · intro n p' x flag _ _ found here
      exact sound_shadowWith sound found here
    · intro n p' x flag _ _ found absent
      apply sound_enter_shadowing sound (s := (w.makeSymbol n).2) found absent
      · exact (((Quiet.makeSymbol w n).trans (Quiet.enter _ _ p')).trans
          (Quiet.setHome _ _ _)).trans (Quiet.shadowWith _ _ p')
      · funext q
        simp only [World.shadowWith, World.enter, World.setHome, pack_modify]
        split <;> rfl
  | packageLock p locked =>
    apply packageLock_keeps sound
    intro p'
    refine sound.same rfl rfl ?_
    intro q
    rw [pack_modify]
    split <;> exact ⟨rfl, rfl, rfl, rfl, rfl⟩
  | makeSymbol name => exact sound.same rfl rfl fun _ => ⟨rfl, rfl, rfl, rfl, rfl⟩
  | makePackage => cases symbols
  | renamePackage => cases symbols
  | deletePackage => cases symbols
  | usePackage => cases symbols
  | unusePackage => cases symbols

theorem run {op : Op} (here : op.Exists w) (meets : AvoidsConflict op w) (lock : Bool) :
    Sound (op.run never ⟨w, lock⟩).1.world := by
  by_cases symbols : op.onSymbols = true
  · exact sound.run_symbols symbols meets lock
  · cases op with
    | makePackage name nicknames useList => exact sound.run_makePackage here meets lock
    | renamePackage x name nicknames =>
      apply renamePackage_keeps sound
      intro x' n nicks _ _ _ _
      refine sound.same rfl rfl ?_
      intro q
      rw [World.rename, pack_modify]
      split <;> exact ⟨rfl, rfl, rfl, rfl, rfl⟩
    | deletePackage p =>
      apply deletePackage_keeps sound
      · intro w x p sound
        exact sound.unlink x p
      · intro w p sound _ other _ usedby
        exact sound.clear other usedby
    | usePackage x p =>
      apply usePackage_keeps sound
      intro x' p' coercedX coercedP _ user differ _ clear
      exact sound.link (sound.allocated.coerces coercedX here.1)
        (sound.allocated.coerces coercedP here.2) user differ clear
    | unusePackage x p =>
      apply unusePackage_keeps sound
      intro x' p' _ _
      exact sound.unlink x' p'
    | _ => exact absurd rfl symbols

end Sound

theorem initialState_tables (p : PackageId) :
    (initialState.world.pack p).internal = [] ∧ (initialState.world.pack p).shadowings = [] ∧
    ((initialState.world.pack p).external = [] ∨ (initialState.world.pack p).uses = []) ∧
    ∀ q ∈ (initialState.world.pack p).uses, q = lispPackage := by
  match p with
  | 0 => exact ⟨rfl, rfl, .inr rfl, by decide⟩
  | 1 | 2 | 3 | 4 | 5 | 6 => exact ⟨rfl, rfl, .inl rfl, by decide⟩
  | _ + 7 => exact ⟨rfl, rfl, .inl rfl, by simp [initialState, initialPackage, Package.empty]⟩

theorem initialState_sound : Sound initialState.world where
  allocated := initialState_allocated
  linked p q member := by
    have inside : ∀ r < 7, ∀ y ∈ (initialState.world.pack r).uses,
        r ∈ (initialState.world.pack y).usedby := by decide
    exact inside p (initialState_allocated.uses p q member).1 q member
  irreflexive p member := by
    have inside : ∀ r < 7, r ∉ (initialState.world.pack r).uses := by decide
    exact inside p (initialState_allocated.uses p p member).1 member
  keyword := rfl
  clean name p := by
    obtain ⟨internal, shadowings, side, lisp⟩ := initialState_tables p
    refine ⟨?_, ?_, ?_⟩
    · rw [internal]
      exact fun _ => .inl rfl
    · rw [shadowings]
      intro _ c member
      cases member
    · rw [internal]
      intro _ a b accessA accessB differ
      exfalso
      apply differ
      simp only [gethash_nil, reduceCtorEq, false_or] at accessA accessB
      rcases side with external | uses
      · rw [external] at accessA accessB
        simp only [gethash_nil, reduceCtorEq, false_or] at accessA accessB
        obtain ⟨q, memberQ, foundA⟩ := accessA
        obtain ⟨r, memberR, foundB⟩ := accessB
        rw [lisp q memberQ] at foundA
        rw [lisp r memberR] at foundB
        exact some.inj (foundA.symm.trans foundB)
      · have inside {x : Symbol} (access : gethash name (initialState.world.pack p).external =
            some x ∨ Inherits initialState.world name p x) :
            gethash name (initialState.world.pack p).external = some x := by
          apply access.resolve_right
          rintro ⟨q, member, _⟩
          rw [uses] at member
          cases member
        exact some.inj ((inside accessA).symm.trans (inside accessB))

theorem Reachable.sound {st : State} (reached : Reachable AvoidsConflict st) : Sound st.world := by
  induction reached with
  | initial => exact initialState_sound
  | step op st _ here meets ih => exact ih.run here meets st.lock

theorem reachable_conflictFree {st : State} (reached : Reachable AvoidsConflict st)
    {p : PackageId} (here : p ∈ st.world.packages) : ConflictFree st.world p :=
  conflictFree_of_clean (fun name => reached.sound.clean name p) here

/-- A package that uses COMMON-LISP gets a symbol. -/
def useLisp : List Op :=
  [.makePackage (.string "A") ⟨[], true⟩ ⟨[.string "CL"], true⟩, .intern "X" (.string "A")]

theorem reachable_conflictFree_useLisp :
    7 ∈ (runAll useLisp initialState).world.packages ∧
      ConflictFree (runAll useLisp initialState).world 7 := by
  have member : 7 ∈ (runAll useLisp initialState).world.packages := by decide +kernel
  refine ⟨member, reachable_conflictFree (Reachable.initial.runAll ?_) member⟩
  refine ⟨by simp [Op.Exists], ?_, by simp [Op.Exists], ?_, trivial⟩
  · intro _ _ y memberY z memberZ wanted a b foundA foundB
    have only : (initialState.world.coerceAll [.string "CL"]).1 = [lispPackage] := by
      decide +kernel
    rw [only, List.mem_singleton] at memberY memberZ
    rw [memberY] at foundA
    rw [memberZ] at foundB
    exact Option.some.inj (foundA.symm.trans foundB)
  · intro coerced
    have found : World.findPackage _ "A" = some keywordPackage := coerced
    exact absurd found (by decide +kernel)

/-- Two packages that export a symbol X each, and a third that is made to use both. -/
def useBoth : List Op :=
  [ .makePackage (.string "A") ⟨[], true⟩ ⟨[], true⟩,
    .makePackage (.string "B") ⟨[], true⟩ ⟨[], true⟩,
    .intern "X" (.string "A"),
    .intern "X" (.string "B"),
    .exports ⟨"X", 2⟩ (.string "A"),
    .exports ⟨"X", 3⟩ (.string "B"),
    .makePackage (.string "C") ⟨[], true⟩ ⟨[.string "A", .string "B"], true⟩ ]

theorem conflict_useBoth :
    Reachable (fun _ _ => True) (runAll useBoth initialState) ∧
      9 ∈ (runAll useBoth initialState).world.packages ∧
      ¬ ConflictFree (runAll useBoth initialState).world 9 := by
  refine ⟨?_, by decide +kernel, ?_⟩
  · apply Reachable.initial.runAll
    refine ⟨by simp [Op.Exists], trivial, by simp [Op.Exists], trivial, by simp [Op.Exists],
      trivial, by simp [Op.Exists], trivial, ⟨by decide +kernel, by simp⟩, trivial,
      ⟨by decide +kernel, by simp⟩, trivial, by simp [Op.Exists], trivial, trivial⟩
  · intro free
    have package : (runAll useBoth initialState).world.pack 9 =
        { Package.empty (some "C") with uses := [8, 7] } := by decide +kernel
    have external : ((runAll useBoth initialState).world.pack 7).external = [⟨"X", 2⟩] ∧
        ((runAll useBoth initialState).world.pack 8).external = [⟨"X", 3⟩] := by decide +kernel
    obtain ⟨c, _, _, shadows⟩ := free ⟨"X", 2⟩ ⟨"X", 3⟩ rfl
      (.inr ⟨7, by rw [package]; decide, by rw [external.1]; decide⟩)
      (.inr ⟨8, by rw [package]; decide, by rw [external.2]; decide⟩) (by decide)
    rw [package] at shadows
    cases shadows

end Ecl.Packages
