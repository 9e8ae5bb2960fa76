import Ecl.Packages.Changes

/- The home package of a symbol holds it. -/
namespace Ecl.Packages

/-- Symbols are present in their home packages, and no package holds a name twice. The
internal table of KEYWORD, which no search reads, is empty. -/
structure Housed (w : World) : Prop where
  allocated : Allocated w
  homes : ∀ s p, w.hpack s = some p → p < w.packageCount
  present : ∀ s p, w.hpack s = some p → p ∈ w.packages → w.Present p s
  disjoint : ∀ name p, gethash name (w.pack p).internal = none ∨
    gethash name (w.pack p).external = none
  keyword : (w.pack keywordPackage).internal = []

variable {w : World} {p : PackageId}

/-- What must be shown of an operation on symbols: new homes are in the package that
changes, and the symbols at home there are still present under the name. -/
theorem Effect.housed {w' : World} {name : String} {i e : Option Symbol}
    {shadows : Symbol → Prop} (effect : Effect w w' name p i e shadows) (housed : Housed w)
    (here : p < w.packageCount) (disjoint : i = none ∨ e = none)
    (keyword : p = keywordPackage → (w'.pack p).internal = [])
    (homes : ∀ s q, w'.hpack s = some q → w.hpack s = some q ∨ q = p ∧ s.name = name)
    (present : ∀ s, w'.hpack s = some p → p ∈ w.packages → s.name = name →
      i = some s ∨ e = some s) : Housed w' where
  allocated := housed.allocated.quiet effect.changes.quiet
  homes s q home := by
    rw [effect.changes.quiet.packageCount]
    rcases homes s q home with old | ⟨rfl, _⟩
    · exact housed.homes s q old
    · exact here
  present s q home registered := by
    rw [effect.changes.quiet.packages] at registered
    by_cases self : q = p
    · subst self
      by_cases named : s.name = name
      · rw [World.Present, named, effect.entries.internal, effect.entries.external]
        exact present s home registered named
      · have old := (homes s q home).resolve_right fun both => named both.2
        obtain ⟨internal, external⟩ := effect.changes.tables s.name named
        rw [World.Present, internal, external]
        exact housed.present s q old registered
    · have old := (homes s q home).resolve_right fun both => self both.1
      rw [World.Present, effect.changes.others q self]
      exact housed.present s q old registered
  disjoint m q := by
    by_cases self : q = p
    · subst self
      by_cases named : m = name
      · rw [named, effect.entries.internal, effect.entries.external]
        exact disjoint
      · obtain ⟨internal, external⟩ := effect.changes.tables m named
        rw [internal, external]
        exact housed.disjoint m q
    · rw [effect.changes.others q self]
      exact housed.disjoint m q
  keyword := by
    by_cases self : keywordPackage = p
    · rw [self]
      exact keyword self.symm
    · rw [effect.changes.others _ self]
      exact housed.keyword

theorem hpack_setHome (w : World) (s t : Symbol) (home : Option PackageId) :
    (w.setHome s home).hpack t = if t = s then home else w.hpack t := rfl

theorem hpack_symbolRemovePackage {s t : Symbol} {q : PackageId}
    (home : (w.symbolRemovePackage s p).hpack t = some q) :
    w.hpack t = some q ∧ ¬ (t = s ∧ q = p) := by
  unfold World.symbolRemovePackage at home
  split at home
  · rename_i was
    rw [hpack_setHome] at home
    split at home
    · cases home
    · rename_i differ
      exact ⟨home, fun both => differ both.1⟩
  · rename_i elsewhere
    refine ⟨home, ?_⟩
    rintro ⟨rfl, rfl⟩
    exact elsewhere home

theorem hpack_symbolAddPackage {s t : Symbol} {q : PackageId}
    (home : (w.symbolAddPackage s p).hpack t = some q) :
    w.hpack t = some q ∨ q = p ∧ t = s := by
  unfold World.symbolAddPackage at home
  split at home
  · rw [hpack_setHome] at home
    split at home
    · rename_i same
      cases home
      exact .inr ⟨rfl, same⟩
    · exact .inl home
  · exact .inl home

namespace Housed

variable {w : World} (housed : Housed w)

include housed

variable {s : Symbol} {p : PackageId}

theorem finds (home : w.hpack s = some p) (here : p ∈ w.packages) :
    w.findSymbolInner s.name p = (s, .internal) ∨ w.findSymbolInner s.name p = (s, .external) := by
  rcases housed.present s p home here with internal | external
  · have missing : gethash s.name (w.pack p).external = none := by
      apply (housed.disjoint s.name p).resolve_left
      rw [internal]
      simp
    have other : p ≠ keywordPackage := by
      rintro rfl
      rw [housed.keyword] at internal
      cases internal
    left
    rw [World.findSymbolInner, missing]
    simp only [if_neg other, internal]
  · right
    rw [World.findSymbolInner, external]

theorem present_unique {t : Symbol} (presentS : w.Present p s)
    (presentT : w.Present p t) (same : t.name = s.name) : t = s := by
  rw [World.Present, same] at presentT
  have disjoint := housed.disjoint s.name p
  rcases presentS with internal | external
  · rcases presentT with found | found
    · exact Option.some.inj (found.symm.trans internal)
    · rw [internal, found] at disjoint
      simp at disjoint
  · rcases presentT with found | found
    · rw [external, found] at disjoint
      simp at disjoint
    · exact Option.some.inj (found.symm.trans external)

variable {name : String} {x : Symbol} {flag : World.Flag}

theorem absent_of_find (found : w.findSymbolInner name p = (x, flag))
    (absent : ¬ (flag = .internal ∨ flag = .external)) :
    gethash name (w.pack p).internal = none ∧ gethash name (w.pack p).external = none := by
  have finds := findSymbolInner_finds found
  rw [not_or] at absent
  refine ⟨?_, ?_⟩
  · by_cases keyword : p = keywordPackage
    · rw [keyword, housed.keyword]
      rfl
    · rw [finds.internal absent.2 keyword, if_neg absent.1]
  · rw [finds.external, if_neg absent.2]

theorem no_home
    (absent : gethash s.name (w.pack p).internal = none ∧ gethash s.name (w.pack p).external = none)
    (here : p ∈ w.packages) : w.hpack s ≠ some p := by
  intro home
  rcases housed.present s p home here with found | found
  · rw [absent.1] at found
    cases found
  · rw [absent.2] at found
    cases found

variable {w' : World}

/-- A symbol enters the internal table under a name that nothing is present under; it may
get the package as its home. -/
theorem enter {shadows : Symbol → Prop}
    (effect : Effect w w' s.name p (some s) (gethash s.name (w.pack p).external) shadows)
    (here : p < w.packageCount) (other : p ≠ keywordPackage)
    (absent : gethash s.name (w.pack p).internal = none ∧
      gethash s.name (w.pack p).external = none)
    (homes : ∀ t q, w'.hpack t = some q → w.hpack t = some q ∨ q = p ∧ t = s) : Housed w' := by
  apply effect.housed housed here (.inr absent.2) (fun keyword => absurd keyword other)
  · intro t q home
    refine (homes t q home).imp id ?_
    rintro ⟨same, rfl⟩
    exact ⟨same, rfl⟩
  · intro t home registered named
    rcases homes t p home with old | ⟨_, rfl⟩
    · rw [← named] at absent
      exact absurd old (housed.no_home absent registered)
    · exact .inl rfl

theorem run_intern (here : p < w.packageCount)
    (missing : (w.findSymbolInner name p).2 = .nothing) : Housed (w.internNew name p) := by
  have found : w.findSymbolInner name p = ((w.findSymbolInner name p).1, .nothing) := by
    rw [← missing]
  have absent := housed.absent_of_find found (by decide)
  have homes (t : Symbol) (q : PackageId) (home : (w.internNew name p).hpack t = some q) :
      w.hpack t = some q ∨ q = p ∧ t = ⟨name, w.symbolCount⟩ := by
    have set : (w.internNew name p).hpack t =
        if t = ⟨name, w.symbolCount⟩ then some p else w.hpack t := by
      simp only [World.internNew]
      split <;> rfl
    rw [set] at home
    split at home
    · rename_i same
      cases home
      exact .inr ⟨rfl, same⟩
    · exact .inl home
  by_cases keyword : p = keywordPackage
  · subst keyword
    apply (effect_intern_keyword w name).housed housed here (.inl absent.1)
      (fun _ => housed.keyword)
    · intro t q home
      refine (homes t q home).imp id ?_
      rintro ⟨same, rfl⟩
      exact ⟨same, rfl⟩
    · intro t home registered named
      rcases homes t keywordPackage home with old | ⟨_, rfl⟩
      · rw [← named] at absent
        exact absurd old (housed.no_home absent registered)
      · exact .inr rfl
  · have pack : (w.internNew name p).pack = (w.enter ⟨name, w.symbolCount⟩ p).pack := by
      simp only [World.internNew, if_neg keyword]
      rfl
    have effect := effect_enter (Quiet.internNew w name p) pack
    exact housed.enter effect here keyword absent homes

theorem run_import (here : p < w.packageCount)
    (other : p ≠ keywordPackage) (found : w.findSymbolInner s.name p = (x, flag))
    (absent : ¬ (flag = .internal ∨ flag = .external)) :
    Housed ((w.enter s p).symbolAddPackage s p) := by
  have effect := effect_enter ((Quiet.enter w s p).trans (Quiet.symbolAddPackage _ s p))
    (pack_symbolAddPackage _ s p)
  apply housed.enter effect here other (housed.absent_of_find found absent)
  intro t q home
  exact hpack_symbolAddPackage (w := w.enter s p) home

theorem run_export (here : p < w.packageCount)
    (found : w.findSymbolInner s.name p = (s, flag)) (accessible : flag ≠ .nothing)
    (notExternal : flag ≠ .external) : Housed (w.makeExternal s p flag) := by
  have finds := findSymbolInner_finds found
  have other : p ≠ keywordPackage := by
    intro keyword
    rcases finds.keyword keyword with nothing | external
    · exact accessible nothing
    · exact notExternal external
  apply (effect_export found notExternal other).housed housed here (.inl rfl)
    (fun keyword => absurd keyword other)
  · intro t q home
    exact .inl home
  · intro t home registered named
    -- a symbol at home here is present, so it is the one found
    right
    by_cases internal : flag = .internal
    · have presentS : w.Present p s :=
        .inl (by rw [finds.internal notExternal other, if_pos internal])
      rw [housed.present_unique presentS (housed.present t p home registered) named]
    · have absent := housed.absent_of_find found (by rw [not_or]; exact ⟨internal, notExternal⟩)
      rw [← named] at absent
      exact absurd home (housed.no_home absent registered)

theorem run_unexport (here : p < w.packageCount)
    (other : p ≠ keywordPackage) (found : w.findSymbolInner s.name p = (s, .external)) :
    Housed (w.makeInternal s p) := by
  apply (effect_unexport w s p).housed housed here (.inr rfl) (fun keyword => absurd keyword other)
  · intro t q home
    exact .inl home
  · intro t home registered named
    left
    have presentS : w.Present p s := .inr (findSymbolInner_finds found).external
    rw [housed.present_unique presentS (housed.present t p home registered) named]

theorem leave {shadows : Symbol → Prop} (effect : Effect w w' s.name p
      (if w.holds s p = .internal then none else gethash s.name (w.pack p).internal)
      (if w.holds s p = .internal then gethash s.name (w.pack p).external else none) shadows)
    (here : p < w.packageCount) (held : w.holds s p ≠ .nothing)
    (keyword : p = keywordPackage → (w'.pack p).internal = [])
    (homes : ∀ t q, w'.hpack t = some q → w.hpack t = some q ∧ ¬ (t = s ∧ q = p)) :
    Housed w' := by
  have presentS : w.Present p s := by
    by_contra absent
    rw [World.Present, not_or] at absent
    exact held (by rw [World.holds, if_neg absent.1, if_neg absent.2])
  apply effect.housed housed here ?_ keyword
  · exact fun t q home => .inl (homes t q home).1
  · intro t home registered named
    obtain ⟨old, differ⟩ := homes t p home
    have same := housed.present_unique presentS (housed.present t p old registered) named
    exact absurd ⟨same, rfl⟩ differ
  · split
    · exact .inl rfl
    · exact .inr rfl

theorem keyword_leaveTable (s : Symbol) (flag : World.Flag) :
    (leaveTable s flag (w.pack keywordPackage)).internal = [] := by
  unfold leaveTable
  split
  · simp only [housed.keyword]
    rfl
  · exact housed.keyword

theorem run_unintern (here : p < w.packageCount) (held : w.holds s p ≠ .nothing) :
    Housed (w.remove s p) := by
  apply housed.leave (effect_unintern w s p) here held
  · rintro rfl
    rw [pack_remove, pack_modify_self]
    exact housed.keyword_leaveTable s _
  · intro t q home
    exact hpack_symbolRemovePackage (w := w.modify p _) home

theorem run_unintern_shadowing (here : p < w.packageCount) (held : w.holds s p ≠ .nothing) :
    Housed ((w.remove s p).modify p fun package =>
      { package with shadowings := removeEq s package.shadowings }) := by
  apply housed.leave (effect_unintern_shadowing w s p) here held
  · rintro rfl
    rw [pack_modify_self, pack_remove, pack_modify_self]
    exact housed.keyword_leaveTable s _
  · intro t q home
    exact hpack_symbolRemovePackage (w := w.modify p _) home

theorem run_shadowWith (here : p < w.packageCount) : Housed (w.shadowWith x p) := by
  apply (effect_shadowWith w rfl p).housed housed here (housed.disjoint x.name p)
  · rintro rfl
    rw [World.shadowWith, pack_modify_self]
    exact housed.keyword
  · intro t q home
    exact .inl home
  · intro t home registered named
    rw [← named]
    exact housed.present t p home registered

theorem run_enter_shadowing (here : p < w.packageCount) (other : p ≠ keywordPackage)
    (found : w.findSymbolInner s.name p = (x, flag))
    (absent : ¬ (flag = .internal ∨ flag = .external)) (quiet : Quiet w w')
    (pack : w'.pack = ((w.shadowWith s p).enter s p).pack)
    (homes : ∀ t q, w'.hpack t = some q → w.hpack t = some q ∨ q = p ∧ t = s) : Housed w' :=
  housed.enter (effect_enter_shadowing quiet pack) here other
    (housed.absent_of_find found absent) homes

theorem run_displace (here : p < w.packageCount) (other : p ≠ keywordPackage)
    (found : w.findSymbolInner s.name p = (x, flag))
    (present : flag = .internal ∨ flag = .external) :
    Housed (((w.displace x p flag).shadowWith s p).enter s p) := by
  have finds := findSymbolInner_finds found
  have named : x.name = s.name := by
    apply name_of_find found
    rcases present with rfl | rfl <;> decide
  have presentX : w.Present p x := by
    rw [World.Present, named]
    rcases present with rfl | rfl
    · exact .inl (finds.internal (by decide) other)
    · exact .inr finds.external
  have homes (t : Symbol) (q : PackageId)
      (home : (((w.displace x p flag).shadowWith s p).enter s p).hpack t = some q) :
      w.hpack t = some q ∧ ¬ (t = x ∧ q = p) :=
    hpack_symbolRemovePackage (w := w.modify p _) home
  apply (effect_displace w named p flag).housed housed here ?_ (fun keyword => absurd keyword other)
  · exact fun t q home => .inl (homes t q home).1
  · intro t home registered sameName
    obtain ⟨old, differ⟩ := homes t p home
    have same := housed.present_unique presentX (housed.present t p old registered)
      (sameName.trans named.symm)
    exact absurd ⟨same, rfl⟩ differ
  · right
    split
    · rename_i internal
      rw [finds.external, internal]
      rfl
    · rfl

/-- The tables stay, or are those of a package without symbols that no registered symbol
is at home in. -/
theorem relisted (allocated : Allocated w') (count : w.packageCount ≤ w'.packageCount)
    (homes : ∀ s q, w'.hpack s = some q → w.hpack s = some q)
    (registered : ∀ q ∈ w'.packages, q ∈ w.packages ∨ ∀ s, w.hpack s ≠ some q)
    (tables : ∀ q, (w'.pack q).internal = (w.pack q).internal ∧
        (w'.pack q).external = (w.pack q).external ∨
      (w'.pack q).internal = [] ∧ (w'.pack q).external = [] ∧
        ∀ s, w'.hpack s = some q → q ∉ w'.packages) : Housed w' where
  allocated := allocated
  homes s q home := lt_of_lt_of_le (housed.homes s q (homes s q home)) count
  present s q home here := by
    have old := homes s q home
    have listed := (registered q here).resolve_right fun none => none s old
    rcases tables q with ⟨internal, external⟩ | ⟨_, _, gone⟩
    · rw [World.Present, internal, external]
      exact housed.present s q old listed
    · exact absurd here (gone s home)
  disjoint name q := by
    rcases tables q with ⟨internal, external⟩ | ⟨internal, _, _⟩
    · rw [internal, external]
      exact housed.disjoint name q
    · rw [internal]
      exact .inl rfl
  keyword := by
    rcases tables keywordPackage with ⟨internal, _⟩ | ⟨internal, _, _⟩
    · rw [internal]
      exact housed.keyword
    · exact internal

theorem onlyLists (only : OnlyLists w w') (allocated : Allocated w') : Housed w' := by
  apply housed.relisted allocated (le_of_eq only.packageCount.symm)
  · rw [only.hpack]
    exact fun _ _ home => home
  · rw [only.packages]
    exact fun _ member => .inl member
  · exact fun q => .inl ⟨only.internal q, only.external q⟩

theorem run_unlink (x p : PackageId) : Housed (w.unlink x p) :=
  housed.onlyLists (OnlyLists.unlink w x p) (housed.allocated.unlink x p)

theorem run_clear (p : PackageId) : Housed (w.clear p) := by
  have clears := clear_clears w p
  apply housed.relisted (housed.allocated.clear p) (le_of_eq clears.packageCount.symm)
  · intro s q home
    rcases clears.hpack s with same | ⟨_, lost⟩
    · exact same ▸ home
    · rw [lost] at home
      cases home
  · rw [clears.packages]
    exact fun q member => .inl (mem_removeEq.mp member).1
  · intro q
    by_cases same : q = p
    · subst same
      rw [clears.self, clears.packages]
      exact .inr ⟨rfl, rfl, fun _ _ member => (mem_removeEq.mp member).2 rfl⟩
    · rw [clears.others q same]
      exact .inl ⟨rfl, rfl⟩

theorem run_makes {nicknames : List String} {used : List PackageId} (allocated : Allocated w')
    (pack : w'.pack = ((w.fresh name nicknames).linkAll w.packageCount used).pack)
    (hpack : w'.hpack = w.hpack) (count : w.packageCount ≤ w'.packageCount)
    (packages : ∀ q ∈ w'.packages, q ∈ w.packages ∨ q = w.packageCount) : Housed w' := by
  have only := OnlyLists.linkAll (w.fresh name nicknames) w.packageCount used
  have new (s : Symbol) : w.hpack s ≠ some w.packageCount :=
    fun home => lt_irrefl _ (housed.homes s _ home)
  apply housed.relisted allocated count
  · rw [hpack]
    exact fun _ _ home => home
  · intro q member
    refine (packages q member).imp id ?_
    rintro rfl
    exact new
  · intro q
    rw [pack, hpack, only.internal, only.external]
    by_cases self : q = w.packageCount
    · subst self
      rw [pack_fresh_self]
      exact .inr ⟨rfl, rfl, fun s home => absurd home (new s)⟩
    · rw [pack_fresh_of_ne self]
      exact .inl ⟨rfl, rfl⟩

end Housed

/-- The calls that keep symbols at home. UNEXPORT is given the symbol that is external, and
no symbol is entered in the internal table of KEYWORD. -/
def KeepsHomes : Op → World → Prop
  | .unexport s p, w =>
    ∀ p', Coerces w p p' → p' ≠ keywordPackage →
      ∀ x, w.findSymbolInner s.name p' = (x, .external) → x = s
  | .imports s p, w =>
    Coerces w p keywordPackage → (w.findSymbolInner s.name keywordPackage).2 ≠ .nothing
  | .shadowingImport s p, w =>
    Coerces w p keywordPackage → w.findSymbolInner s.name keywordPackage = (s, .external)
  | .shadow name p, w =>
    ∀ n, name = .string n → Coerces w p keywordPackage →
      (w.findSymbolInner n keywordPackage).2 ≠ .nothing
  | _, _ => True

namespace Housed

variable {w : World} (housed : Housed w)

include housed

theorem run_makePackage {name : Designator} {nicknames useList : DesignatorList}
    (here : Op.Exists w (.makePackage name nicknames useList)) (lock : Bool) :
    Housed (makePackage never name nicknames useList ⟨w, lock⟩).1.world := by
  have all := housed.allocated.coerceAll here
  have made (name : String) (nicknames : List String) (used : List PackageId)
      (listed : ∀ y ∈ used, y < w.packageCount) :
      Housed ((w.fresh name nicknames).linkAll w.packageCount used) := by
    have only := OnlyLists.linkAll (w.fresh name nicknames) w.packageCount used
    apply housed.run_makes (housed.allocated.makes name nicknames listed) rfl only.hpack
    · rw [only.packageCount]
      exact Nat.le_succ _
    · rw [only.packages]
      exact fun _ member => .inl member
  apply makePackage_keeps housed housed.allocated.new
  · intro name nicknames
    exact made name nicknames [] (by simp)
  · intro _ name nicknames used outcome listed
    rw [listed] at all
    exact made name nicknames used all
  · intro _ name nicknames used _ _ listed
    rw [listed] at all
    have only := OnlyLists.linkAll (w.fresh name nicknames) w.packageCount used
    have new :
      w.packageCount < ((w.fresh name nicknames).linkAll w.packageCount used).packageCount := by
      rw [only.packageCount]
      exact Nat.lt_succ_self _
    apply housed.run_makes ((housed.allocated.makes name nicknames all).register new) rfl only.hpack
      (le_of_lt new)
    intro q member
    rcases List.mem_cons.mp member with same | old
    · exact .inr same
    · rw [only.packages] at old
      exact .inl old

theorem run_symbols {op : Op} (symbols : op.onSymbols = true) (here : op.Exists w)
    (meets : KeepsHomes op w) (lock : Bool) : Housed (op.run never ⟨w, lock⟩).1.world := by
  cases op with
  | intern name p =>
    apply intern_keeps housed
    intro p' coerced missing
    exact housed.run_intern (housed.allocated.coerces coerced here) missing
  | unintern s p =>
    apply unintern_keeps housed
    · intro p' coerced held _
      exact housed.run_unintern (housed.allocated.coerces coerced here.2) held
    · intro p' coerced held _ _
      exact housed.run_unintern_shadowing (housed.allocated.coerces coerced here.2) held
  | exports s p =>
    apply export_keeps housed
    intro p' flag coerced found goesOn notExternal _
    have accessible : flag ≠ .nothing := fun nothing => absurd (goesOn nothing) (by decide)
    exact housed.run_export (housed.allocated.coerces coerced here.2) found accessible notExternal
  | unexport s p =>
    apply unexport_keeps housed
    intro p' x coerced other found
    rw [meets p' coerced other x found] at found
    exact housed.run_unexport (housed.allocated.coerces coerced here.2) other found
  | imports s p =>
    apply import_keeps housed
    intro p' x flag coerced found absent
    have other : p' ≠ keywordPackage := by
      rintro rfl
      have something := meets coerced
      rw [found] at something
      rcases absent with nothing | ⟨inherited, _⟩
      · exact something nothing
      · rcases (findSymbolInner_finds found).keyword rfl with nothing | external
        · exact something nothing
        · exact absurd (inherited.symm.trans external) (by decide)
    apply housed.run_import (housed.allocated.coerces coerced here.2) other found
    rcases absent with rfl | ⟨rfl, _⟩ <;> decide
  | shadowingImport s p =>
    apply shadowingImport_keeps housed
    · intro p' flag coerced _ _
      exact housed.run_shadowWith (housed.allocated.coerces coerced here.2)
    · intro p' x flag coerced found present differ
      have other : p' ≠ keywordPackage := by
        rintro rfl
        have same := meets coerced
        rw [found] at same
        exact differ (congrArg Prod.fst same)
      exact housed.run_displace (housed.allocated.coerces coerced here.2) other found present
    · intro p' x flag coerced found absent
      have other : p' ≠ keywordPackage := by
        rintro rfl
        have same := meets coerced
        rw [found] at same
        exact absent (.inr (congrArg Prod.snd same))
      apply housed.run_enter_shadowing (housed.allocated.coerces coerced here.2) other found absent
        ((Quiet.shadowWith w s p').trans (Quiet.enter _ s p')) rfl
      exact fun t q home => .inl home
  | shadow name p =>
    apply shadow_keeps housed
    · intro n p' x flag _ coerced _ _
      exact housed.run_shadowWith (housed.allocated.coerces coerced here)
    · intro n p' x flag designates coerced found absent
      have other : p' ≠ keywordPackage := by
        rintro rfl
        have something := meets n designates coerced
        rw [found] at something
        rcases (findSymbolInner_finds found).keyword rfl with nothing | external
        · exact something nothing
        · exact absent (.inr external)
      apply housed.run_enter_shadowing (s := (w.makeSymbol n).2)
        (housed.allocated.coerces coerced here) other found absent
      · exact (((Quiet.makeSymbol w n).trans (Quiet.enter _ _ p')).trans
          (Quiet.setHome _ _ _)).trans (Quiet.shadowWith _ _ p')
      · funext q
        simp only [World.shadowWith, World.enter, World.setHome, pack_modify]
        split <;> rfl
      · intro t q home
        have set : (if t = (w.makeSymbol n).2 then some p' else w.hpack t) = some q := home
        split at set
        · rename_i same
          cases set
          exact .inr ⟨rfl, same⟩
        · exact .inl set
  | packageLock p locked =>
    apply packageLock_keeps housed
    intro p'
    have quiet : Quiet w (w.modify p' fun package => { package with locked := locked }) :=
      Quiet.modify _ _ (fun _ => rfl) (fun _ => rfl) (fun _ => rfl) (fun _ => rfl)
    apply housed.relisted (housed.allocated.quiet quiet) (le_refl _)
    · exact fun _ _ home => home
    · exact fun _ member => .inl member
    · intro q
      left
      rw [pack_modify]
      split <;> exact ⟨rfl, rfl⟩
  | makeSymbol name =>
    apply housed.relisted (housed.allocated.quiet (Quiet.makeSymbol w name)) (le_refl _)
    · exact fun _ _ home => home
    · exact fun _ member => .inl member
    · exact fun q => .inl ⟨rfl, rfl⟩
  | makePackage => cases symbols
  | renamePackage => cases symbols
  | deletePackage => cases symbols
  | usePackage => cases symbols
  | unusePackage => cases symbols

theorem run {op : Op} (here : op.Exists w) (meets : KeepsHomes op w) (lock : Bool) :
    Housed (op.run never ⟨w, lock⟩).1.world := by
  by_cases symbols : op.onSymbols = true
  · exact housed.run_symbols symbols here meets lock
  · cases op with
    | makePackage name nicknames useList => exact housed.run_makePackage here lock
    | renamePackage x name nicknames =>
      apply renamePackage_keeps housed
      intro x' n nicks _ _ _ _
      apply housed.relisted (housed.allocated.rename x' n nicks) (le_refl _)
      · exact fun _ _ home => home
      · exact fun _ member => .inl member
      · intro q
        left
        rw [World.rename, pack_modify]
        split <;> exact ⟨rfl, rfl⟩
    | deletePackage p =>
      apply deletePackage_keeps housed
      · intro w x p housed
        exact housed.run_unlink x p
      · intro w p housed _ _ _ _
        exact housed.run_clear p
    | usePackage x p =>
      apply usePackage_keeps housed
      intro x' p' coercedX coercedP _ _ _ _ _
      exact housed.onlyLists (OnlyLists.link w x' p')
        (housed.allocated.link (housed.allocated.coerces coercedX here.1)
          (housed.allocated.coerces coercedP here.2))
    | unusePackage x p =>
      apply unusePackage_keeps housed
      intro x' p' _ _
      exact housed.run_unlink x' p'
    | _ => exact absurd rfl symbols

end Housed

theorem initialState_housed : Housed initialState.world where
  allocated := initialState_allocated
  homes s p home := by
    simp only [initialState] at home
    split at home
    · cases home
      decide
    · cases home
  present s p home _ := by
    simp only [initialState] at home
    split at home
    · rename_i same
      cases home
      rcases same with rfl | rfl
      · exact .inr (by decide)
      · exact .inr (by decide)
    · cases home
  disjoint name p := by
    left
    have none : (initialState.world.pack p).internal = [] := by
      match p with
      | 0 | 1 | 2 | 3 | 4 | 5 | 6 => rfl
      | _ + 7 => rfl
    rw [none]
    rfl
  keyword := rfl

theorem Reachable.housed {st : State} (reached : Reachable KeepsHomes st) : Housed st.world := by
  induction reached with
  | initial => exact initialState_housed
  | step op st _ here meets ih => exact ih.run here meets st.lock

/-- The search in the home package finds the symbol, and no package holds a name twice. -/
def HomesConsistent (w : World) : Prop :=
  (∀ s p, w.hpack s = some p → p ∈ w.packages →
    w.findSymbolInner s.name p = (s, .internal) ∨ w.findSymbolInner s.name p = (s, .external)) ∧
  ∀ p name, gethash name (w.pack p).internal = none ∨ gethash name (w.pack p).external = none

theorem reachable_homes_consistent {st : State} (reached : Reachable KeepsHomes st) :
    HomesConsistent st.world :=
  ⟨fun _ _ home here => reached.housed.finds home here,
    fun p name => reached.housed.disjoint name p⟩

/-- A symbol of COMMON-LISP-USER is exported and hidden again. -/
def exportAndHide : List Op :=
  [ .intern "X" (.string "USER"),
    .exports ⟨"X", 2⟩ (.string "USER"),
    .unexport ⟨"X", 2⟩ (.string "USER") ]

theorem reachable_homes_consistent_exportAndHide :
    Reachable KeepsHomes (runAll exportAndHide initialState) ∧
      HomesConsistent (runAll exportAndHide initialState).world := by
  have reached : Reachable KeepsHomes (runAll exportAndHide initialState) := by
    apply Reachable.initial.runAll
    refine ⟨by simp [Op.Exists], trivial, ⟨by decide +kernel, by simp⟩, trivial,
      ⟨by decide +kernel, by simp⟩, ?_, trivial⟩
    intro p' coerced _ x found
    have user : World.findPackage _ "USER" = some p' := coerced
    have search : World.findPackage
        (Op.run never (.exports ⟨"X", 2⟩ (.string "USER"))
          (Op.run never (.intern "X" (.string "USER")) initialState).1).1.world "USER" =
        some userPackage := by decide +kernel
    rw [search] at user
    cases user
    have external : World.findSymbolInner
        (Op.run never (.exports ⟨"X", 2⟩ (.string "USER"))
          (Op.run never (.intern "X" (.string "USER")) initialState).1).1.world "X" userPackage =
        (⟨"X", 2⟩, .external) := by decide +kernel
    exact (congrArg Prod.fst (found.symm.trans external))
  exact ⟨reached, reachable_homes_consistent reached⟩

/-- Another symbol of the name is hidden in its place. -/
def hideAnother : List Op :=
  [ .intern "X" (.string "USER"),
    .exports ⟨"X", 2⟩ (.string "USER"),
    .makeSymbol "X",
    .unexport ⟨"X", 3⟩ (.string "USER") ]

/-- An uninterned symbol is imported into KEYWORD. -/
def importKeyword : List Op :=
  [.makeSymbol "X", .imports ⟨"X", 2⟩ (.string "KEYWORD")]

theorem homes_inconsistent_calls :
    (Reachable (fun _ _ => True) (runAll hideAnother initialState) ∧
      ¬ HomesConsistent (runAll hideAnother initialState).world) ∧
    Reachable (fun _ _ => True) (runAll importKeyword initialState) ∧
      ¬ HomesConsistent (runAll importKeyword initialState).world := by
  refine ⟨⟨?_, ?_⟩, ?_, ?_⟩
  · apply Reachable.initial.runAll
    exact ⟨by simp [Op.Exists], trivial, ⟨by decide +kernel, by simp⟩, trivial, trivial, trivial,
      ⟨by decide +kernel, by simp⟩, trivial, trivial⟩
  · rintro ⟨finds, _⟩
    have home := finds ⟨"X", 2⟩ userPackage (by decide +kernel) (by decide +kernel)
    exact absurd home (by decide +kernel)
  · apply Reachable.initial.runAll
    exact ⟨trivial, trivial, ⟨by decide +kernel, by simp⟩, trivial, trivial⟩
  · rintro ⟨finds, _⟩
    have home := finds ⟨"X", 2⟩ keywordPackage (by decide +kernel) (by decide +kernel)
    exact absurd home (by decide +kernel)

end Ecl.Packages
