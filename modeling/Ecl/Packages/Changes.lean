import Ecl.Packages.Effects

/- What each operation on symbols changes, and that it makes no conflict. -/
namespace Ecl.Packages

open Option

variable {w : World} {s : Symbol} {p : PackageId}

/-- A symbol enters the internal table under a name that nothing else is present under. -/
theorem sound_enter {w' : World} (sound : Sound w)
    {shadows : Symbol → Prop} (effect : Effect w w' s.name p (some s) none shadows)
    (shadowing : p ≠ keywordPackage → ∀ c, c.name = s.name → shadows c → c = s)
    (safe : p ∈ w.packages → shadows s ∨ ∀ a, Inherits w s.name p a → a = s) : Sound w' := by
  apply effect.sound sound
  · exact fun _ => .inr rfl
  · intro other c named isShadowing
    rw [shadowing other c named isShadowing]
    exact .inl rfl
  · intro here a b accessA accessB differ
    rcases safe here with shadowed | alone
    · exact ⟨s, shadowed, .inl rfl⟩
    · have only {x : Symbol} (access : some s = some x ∨ none = some x ∨ Inherits w s.name p x) :
          x = s := by
        rcases access with same | none | inherited
        · cases same
          rfl
        · cases none
        · exact alone x inherited
      exact absurd ((only accessA).trans (only accessB).symm) differ
  · intro u _ _ _ a external
    cases external

variable {name : String}

theorem Sound.unshadowed (sound : Sound w)
    (other : p ≠ keywordPackage) (internal : gethash name (w.pack p).internal = none)
    (external : gethash name (w.pack p).external = none) {c : Symbol} (named : c.name = name) :
    c ∉ (w.pack p).shadowings := by
  intro member
  rcases (sound.clean name p).shadowing other c member named with found | found
  · rw [internal] at found
    cases found
  · rw [external] at found
    cases found

variable {a : Symbol}

theorem Sound.inherits_unique (sound : Sound w)
    (here : p ∈ w.packages) (internal : gethash name (w.pack p).internal = none)
    (external : gethash name (w.pack p).external = none) {b : Symbol}
    (inheritsA : Inherits w name p a) (inheritsB : Inherits w name p b) : a = b := by
  by_contra differ
  obtain ⟨c, _, found | found⟩ := (sound.clean name p).conflictFree here a b
    (.inr (.inr inheritsA)) (.inr (.inr inheritsB)) differ
  · rw [internal] at found
    cases found
  · rw [external] at found
    cases found

theorem Sound.keyword_inherits (sound : Sound w) : ¬ Inherits w name keywordPackage a := by
  rintro ⟨q, member, _⟩
  rw [sound.keyword] at member
  cases member

variable {x : Symbol} {flag : World.Flag}

theorem sound_import {w' : World} (sound : Sound w) (found : w.findSymbolInner s.name p = (x, flag))
    (absent : flag = .nothing ∨ flag = .inherited ∧ x = s) (quiet : Quiet w w')
    (pack : w'.pack = (w.enter s p).pack) : Sound w' := by
  have finds := findSymbolInner_finds found
  have missing : gethash s.name (w.pack p).external = none := by
    rw [finds.external, if_neg]
    rintro rfl
    rcases absent with same | ⟨same, _⟩ <;> cases same
  have effect := effect_enter quiet pack
  rw [missing] at effect
  by_cases keyword : p = keywordPackage
  · subst keyword
    apply sound_enter sound effect (fun other => absurd rfl other)
    intro _
    exact .inr fun a inherits => absurd inherits sound.keyword_inherits
  · have notHere : gethash s.name (w.pack p).internal = none := by
      rw [finds.internal ?_ keyword, if_neg]
      · rintro rfl
        rcases absent with same | ⟨same, _⟩ <;> cases same
      · rintro rfl
        rcases absent with same | ⟨same, _⟩ <;> cases same
    apply sound_enter sound effect
    · intro _ c named member
      exact absurd member (sound.unshadowed keyword notHere missing named)
    · intro here
      refine .inr ?_
      intro a inherits
      rcases absent with nothing | ⟨inherited, rfl⟩
      · obtain ⟨q, member, holds⟩ := inherits
        rw [finds.nothing nothing keyword q member] at holds
        cases holds
      · exact sound.inherits_unique here notHere missing inherits (finds.inherited inherited)

theorem sound_intern (sound : Sound w)
    (other : p ≠ keywordPackage) (missing : (w.findSymbolInner name p).2 = .nothing) :
    Sound (w.internNew name p) := by
  have found : w.findSymbolInner name p = ((w.findSymbolInner name p).1, .nothing) := by
    rw [← missing]
  apply sound_import (s := ⟨name, w.symbolCount⟩) sound found (.inl rfl) (Quiet.internNew w name p)
  simp only [World.internNew, if_neg other]
  rfl

theorem accessible_of_find (found : w.findSymbolInner name p = (x, flag)) (some : flag ≠ .nothing) :
    gethash name (w.pack p).internal = .some x ∨ gethash name (w.pack p).external = .some x ∨
      Inherits w name p x := by
  have finds := findSymbolInner_finds found
  by_cases keyword : p = keywordPackage
  · have external := (finds.keyword keyword).resolve_left some
    rw [finds.external, if_pos external]
    exact .inr (.inl rfl)
  · cases flag with
    | nothing => exact absurd rfl some
    | internal => exact .inl (finds.internal (by decide) keyword)
    | external => exact .inr (.inl finds.external)
    | inherited => exact .inr (.inr (finds.inherited rfl))

theorem name_of_find (found : w.findSymbolInner name p = (x, flag)) (some : flag ≠ .nothing) :
    x.name = name := by
  rcases accessible_of_find found some with internal | external | ⟨q, _, holds⟩
  · exact gethash_name internal
  · exact gethash_name external
  · exact gethash_name holds

/-- The check of EXPORT and USE-PACKAGE: nothing is found, or the symbol itself, or one that
shadows the name. -/
theorem Sound.harmless_of_find (sound : Sound w) {u : PackageId}
    (here : u ∈ w.packages) (other : u ≠ keywordPackage)
    (found : w.findSymbolInner name u = (x, flag))
    (checked : flag = .nothing ∨ x = a ∨ x ∈ (w.pack u).shadowings) :
    (∀ b, gethash name (w.pack u).internal = some b ∨ gethash name (w.pack u).external = some b ∨
      Inherits w name u b → b = a) ∨
    ∃ c ∈ (w.pack u).shadowings, gethash name (w.pack u).internal = some c ∨
      gethash name (w.pack u).external = some c := by
  have finds := findSymbolInner_finds found
  have clean := sound.clean name u
  by_cases nothing : flag = .nothing
  · subst nothing
    left
    rintro b (internal | external | ⟨q, member, holds⟩)
    · rw [finds.internal (by decide) other] at internal
      cases internal
    · rw [finds.external] at external
      cases external
    · rw [finds.nothing rfl other q member] at holds
      cases holds
  · have access := accessible_of_find found nothing
    rcases checked.resolve_left nothing with same | shadows
    · subst same
      by_cases alone : ∀ b, gethash name (w.pack u).internal = some b ∨
          gethash name (w.pack u).external = some b ∨ Inherits w name u b → b = x
      · exact .inl alone
      · simp only [not_forall] at alone
        obtain ⟨b, accessB, differ⟩ := alone
        exact .inr (clean.conflictFree here b x accessB access differ)
    · have named := name_of_find found nothing
      exact .inr ⟨x, shadows, clean.shadowing other x shadows named⟩

theorem Sound.user_ne_keyword (sound : Sound w) {u q : PackageId}
    (uses : q ∈ (w.pack u).uses) : u ≠ keywordPackage := by
  rintro rfl
  rw [sound.keyword] at uses
  cases uses

/-- A new keyword: the name is free or shadowed in KEYWORD and in the packages that use it. -/
def FreeKeyword (w : World) (name : String) : Prop :=
  (∀ x, gethash name (w.pack keywordPackage).internal = some x →
    x ∈ (w.pack keywordPackage).shadowings) ∧
  ∀ u ∈ w.packages, keywordPackage ∈ (w.pack u).uses →
    (w.findSymbolInner name u).2 = .nothing ∨
    (w.findSymbolInner name u).1 ∈ (w.pack u).shadowings

theorem sound_intern_keyword (sound : Sound w)
    (free : FreeKeyword w name) : Sound (w.internNew name keywordPackage) := by
  apply (effect_intern_keyword w name).sound sound (fun other => absurd rfl other)
    (fun other => absurd rfl other)
  · intro _ a b accessA accessB differ
    have either {x : Symbol} (access : gethash name (w.pack keywordPackage).internal = some x ∨
        some ⟨name, w.symbolCount⟩ = some x ∨ Inherits w name keywordPackage x) :
        gethash name (w.pack keywordPackage).internal = some x ∨ x = ⟨name, w.symbolCount⟩ := by
      rcases access with internal | external | inherited
      · exact .inl internal
      · cases external
        exact .inr rfl
      · exact absurd inherited sound.keyword_inherits
    rcases either accessA with internal | sameA
    · exact ⟨a, free.1 a internal, .inl internal⟩
    · rcases either accessB with internal | sameB
      · exact ⟨b, free.1 b internal, .inl internal⟩
      · exact absurd (sameA.trans sameB.symm) differ
  · intro u here _ uses a _
    apply Or.inr
    apply sound.harmless_of_find here (sound.user_ne_keyword uses) rfl
    rcases free.2 u here uses with nothing | shadows
    · exact .inl nothing
    · exact .inr (.inr shadows)

theorem sound_export (sound : Sound w) (found : w.findSymbolInner s.name p = (s, flag))
    (accessible : flag ≠ .nothing) (notExternal : flag ≠ .external)
    (clear : w.exportConflict s p = false) : Sound (w.makeExternal s p flag) := by
  have finds := findSymbolInner_finds found
  have other : p ≠ keywordPackage := by
    intro keyword
    rcases finds.keyword keyword with nothing | external
    · exact accessible nothing
    · exact notExternal external
  have missing : gethash s.name (w.pack p).external = none := by
    rw [finds.external, if_neg notExternal]
  have internal := finds.internal notExternal other
  -- what was present under the name is the symbol itself
  have present {c : Symbol} (before : gethash s.name (w.pack p).internal = some c ∨
      gethash s.name (w.pack p).external = some c) : c = s := by
    rcases before with here | here
    · rw [internal] at here
      split at here
      · cases here
        rfl
      · cases here
    · rw [missing] at here
      cases here
  apply (effect_export found notExternal other).sound sound (fun _ => .inl rfl)
  · intro other c named shadows
    rw [present ((sound.clean s.name p).shadowing other c shadows named)]
    exact .inr rfl
  · intro here a b accessA accessB differ
    have before {x : Symbol} (access : none = some x ∨ some s = some x ∨ Inherits w s.name p x) :
        gethash s.name (w.pack p).internal = some x ∨
          gethash s.name (w.pack p).external = some x ∨ Inherits w s.name p x := by
      rcases access with none | same | inherited
      · cases none
      · cases same
        exact accessible_of_find found accessible
      · exact .inr (.inr inherited)
    obtain ⟨c, shadows, was⟩ := (sound.clean s.name p).conflictFree here a b (before accessA)
      (before accessB) differ
    refine ⟨c, shadows, .inr ?_⟩
    rw [present was]
  · intro u here _ uses a same
    cases same
    apply Or.inr
    apply sound.harmless_of_find here (sound.user_ne_keyword uses) rfl
    have checked := List.any_eq_false.mp clear u (sound.linked u p uses)
    by_contra conflict
    simp only [not_or] at conflict
    obtain ⟨something, differ, notShadowing⟩ := conflict
    exact checked (by simpa using ⟨something, Ne.symm differ, notShadowing⟩)

theorem sound_unexport (sound : Sound w)
    (found : w.findSymbolInner s.name p = (s, .external)) (other : p ≠ keywordPackage) :
    Sound (w.makeInternal s p) := by
  have external := (findSymbolInner_finds found).external
  rw [if_pos rfl] at external
  have internal : gethash s.name (w.pack p).internal = none := by
    apply ((sound.clean s.name p).disjoint other).resolve_right
    rw [external]
    simp
  have present {c : Symbol} (before : gethash s.name (w.pack p).internal = some c ∨
      gethash s.name (w.pack p).external = some c) : c = s := by
    rw [internal, external] at before
    rcases before with here | here
    · cases here
    · cases here
      rfl
  apply (effect_unexport w s p).sound sound (fun _ => .inr rfl)
  · intro other c named shadows
    rw [present ((sound.clean s.name p).shadowing other c shadows named)]
    exact .inl rfl
  · intro here a b accessA accessB differ
    have before {x : Symbol} (access : some s = some x ∨ none = some x ∨ Inherits w s.name p x) :
        gethash s.name (w.pack p).internal = some x ∨
          gethash s.name (w.pack p).external = some x ∨ Inherits w s.name p x := by
      rcases access with same | none | inherited
      · cases same
        exact .inr (.inl external)
      · cases none
      · exact .inr (.inr inherited)
    obtain ⟨c, shadows, was⟩ := (sound.clean s.name p).conflictFree here a b (before accessA)
      (before accessB) differ
    refine ⟨c, shadows, .inl ?_⟩
    rw [present was]
  · intro u _ _ _ a none
    cases none

/- UNINTERN, SHADOWING-IMPORT and SHADOW make no conflict. -/

/-- What is left under the name when a symbol leaves one of the tables. -/
structure Leaves (w : World) (s : Symbol) (p : PackageId) (i e : Option Symbol) : Prop where
  internal : i = none ∨ i = gethash s.name (w.pack p).internal
  external : e = none ∨ e = gethash s.name (w.pack p).external
  others : ∀ c, c ≠ s → gethash s.name (w.pack p).internal = some c ∨
    gethash s.name (w.pack p).external = some c → i = some c ∨ e = some c
  one : i = none ∨ e = none
  none : p ≠ keywordPackage → i = none ∧ e = none

variable {w : World} {s : Symbol} {p : PackageId}

theorem leaves_of_holds (sound : Sound w) (held : w.holds s p ≠ .nothing) : Leaves w s p
      (if w.holds s p = .internal then none else gethash s.name (w.pack p).internal)
      (if w.holds s p = .internal then gethash s.name (w.pack p).external else none) := by
  have disjoint := (sound.clean s.name p).disjoint
  by_cases internal : gethash s.name (w.pack p).internal = some s
  · have flag : w.holds s p = .internal := if_pos internal
    rw [if_pos flag, if_pos flag]
    refine ⟨.inl rfl, .inr rfl, ?_, .inl rfl, ?_⟩
    · intro c differ was
      refine .inr (was.resolve_left ?_)
      rw [internal, some.injEq]
      exact Ne.symm differ
    · intro other
      refine ⟨rfl, (disjoint other).resolve_left ?_⟩
      rw [internal]
      simp
  · have external : gethash s.name (w.pack p).external = some s := by
      by_contra missing
      exact held (by rw [World.holds, if_neg internal, if_neg missing])
    have flag : w.holds s p ≠ .internal := by
      rw [World.holds, if_neg internal, if_pos external]
      decide
    rw [if_neg flag, if_neg flag]
    refine ⟨.inr rfl, .inl rfl, ?_, .inr rfl, ?_⟩
    · intro c differ was
      refine .inl (was.resolve_right ?_)
      rw [external, some.injEq]
      exact Ne.symm differ
    · intro other
      refine ⟨(disjoint other).resolve_right ?_, rfl⟩
      rw [external]
      simp

theorem sound_leaves {w' : World} (sound : Sound w)
    {i e : Option Symbol} {shadows : Symbol → Prop} (effect : Effect w w' s.name p i e shadows)
    (leaves : Leaves w s p i e)
    (left : ∀ c, shadows c ↔ c ∈ (w.pack p).shadowings ∧ c ≠ s)
    (agree : s ∈ (w.pack p).shadowings →
      ∀ a b, Inherits w s.name p a → Inherits w s.name p b → a = b) : Sound w' := by
  apply effect.sound sound (fun _ => leaves.one)
  · intro other c named isShadowing
    obtain ⟨member, differ⟩ := (left c).mp isShadowing
    exact leaves.others c differ ((sound.clean s.name p).shadowing other c member named)
  · intro here a b accessA accessB differ
    have before {x : Symbol} (access : i = some x ∨ e = some x ∨ Inherits w s.name p x) :
        gethash s.name (w.pack p).internal = some x ∨
          gethash s.name (w.pack p).external = some x ∨ Inherits w s.name p x := by
      rcases access with internal | external | inherited
      · rcases leaves.internal with none | same
        · rw [none] at internal
          cases internal
        · exact .inl (same ▸ internal)
      · rcases leaves.external with none | same
        · rw [none] at external
          cases external
        · exact .inr (.inl (same ▸ external))
      · exact .inr (.inr inherited)
    obtain ⟨c, member, was⟩ := (sound.clean s.name p).conflictFree here a b (before accessA)
      (before accessB) differ
    by_cases same : c = s
    · subst same
      exfalso
      apply differ
      by_cases keyword : p = keywordPackage
      · -- nothing is inherited, and one table at most holds the name
        subst keyword
        have inside {x : Symbol} (access : i = some x ∨ e = some x ∨
            Inherits w c.name keywordPackage x) : i = some x ∨ e = some x :=
          access.imp id fun rest => rest.resolve_right sound.keyword_inherits
        have optionA := inside accessA
        have optionB := inside accessB
        rcases leaves.one with none | none
        · rw [none] at optionA optionB
          simp only [reduceCtorEq, false_or] at optionA optionB
          exact some.inj (optionA.symm.trans optionB)
        · rw [none] at optionA optionB
          simp only [reduceCtorEq, or_false] at optionA optionB
          exact some.inj (optionA.symm.trans optionB)
      · obtain ⟨noInternal, noExternal⟩ := leaves.none keyword
        rw [noInternal, noExternal] at accessA accessB
        simp only [reduceCtorEq, false_or] at accessA accessB
        exact agree member a b accessA accessB
    · exact ⟨c, (left c).mpr ⟨member, same⟩, leaves.others c same was⟩
  · intro u _ _ _ a external
    rcases leaves.external with none | same
    · rw [none] at external
      cases external
    · exact .inl (same ▸ external)

theorem sound_unintern (sound : Sound w) (held : w.holds s p ≠ .nothing)
    (plain : s ∉ (w.pack p).shadowings) :
    Sound (w.remove s p) := by
  apply sound_leaves sound (effect_unintern w s p) (leaves_of_holds sound held)
  · intro c
    constructor
    · intro member
      exact ⟨member, fun same => plain (same ▸ member)⟩
    · exact fun both => both.1
  · exact fun member => absurd member plain

theorem inherits_agree {name : String}
    (clear : w.inheritedConflict name p = false) {a b : Symbol} (inheritsA : Inherits w name p a)
    (inheritsB : Inherits w name p b) : a = b := by
  have listed {x : Symbol} (inherits : Inherits w name p x) :
      x ∈ (w.pack p).uses.filterMap fun q => gethash name (w.pack q).external := by
    obtain ⟨q, member, found⟩ := inherits
    exact List.mem_filterMap.mpr ⟨q, member, found⟩
  have memberA := listed inheritsA
  have memberB := listed inheritsB
  unfold World.inheritedConflict at clear
  split at clear
  · rename_i empty
    rw [empty] at memberA
    cases memberA
  · rename_i x others nonempty
    rw [nonempty] at memberA memberB
    have first {y : Symbol} (member : y ∈ x :: others) : y = x := by
      rcases List.mem_cons.mp member with same | later
      · exact same
      · have checked := List.any_eq_false.mp clear y later
        simp only [ne_eq, decide_not, Bool.not_eq_true', decide_eq_false_iff_not,
          not_not] at checked
        exact checked.symm
    rw [first memberA, first memberB]

theorem sound_unintern_shadowing (sound : Sound w)
    (held : w.holds s p ≠ .nothing) (clear : w.inheritedConflict s.name p = false) :
    Sound ((w.remove s p).modify p fun package =>
      { package with shadowings := removeEq s package.shadowings }) := by
  apply sound_leaves sound (effect_unintern_shadowing w s p) (leaves_of_holds sound held)
  · exact fun _ => Iff.rfl
  · intro _ a b inheritsA inheritsB
    exact inherits_agree clear inheritsA inheritsB

variable {x : Symbol} {flag : World.Flag}

theorem sound_shadowWith (sound : Sound w) {name : String}
    (found : w.findSymbolInner name p = (x, flag))
    (here : flag = .internal ∨ flag = .external) : Sound (w.shadowWith x p) := by
  have finds := findSymbolInner_finds found
  have present (other : p ≠ keywordPackage) : gethash name (w.pack p).internal = some x ∨
      gethash name (w.pack p).external = some x := by
    rcases here with rfl | rfl
    · exact .inl (finds.internal (by decide) other)
    · exact .inr finds.external
  have named : x.name = name := by
    apply name_of_find found
    rcases here with rfl | rfl <;> decide
  have clean := sound.clean name p
  apply (effect_shadowWith w named p).sound sound clean.disjoint
  · rintro other c named (rfl | member)
    · exact present other
    · exact clean.shadowing other c member named
  · intro registered
    exact (clean.conflictFree registered).mono (fun _ inherits => inherits)
      fun _ member _ => .inr member
  · intro u _ _ _ a external
    exact .inl external

theorem sound_enter_shadowing {w' : World} (sound : Sound w)
    (found : w.findSymbolInner s.name p = (x, flag))
    (absent : ¬ (flag = .internal ∨ flag = .external)) (quiet : Quiet w w')
    (pack : w'.pack = ((w.shadowWith s p).enter s p).pack) : Sound w' := by
  have finds := findSymbolInner_finds found
  rw [not_or] at absent
  have missing : gethash s.name (w.pack p).external = none := by
    rw [finds.external, if_neg absent.2]
  have effect := effect_enter_shadowing quiet pack
  rw [missing] at effect
  apply sound_enter sound effect
  · rintro other c named (same | member)
    · exact same
    · have internal : gethash s.name (w.pack p).internal = none := by
        rw [finds.internal absent.2 other, if_neg absent.1]
      exact absurd member (sound.unshadowed other internal missing named)
  · exact fun _ => .inl (.inl rfl)

theorem sound_displace (sound : Sound w) (found : w.findSymbolInner s.name p = (x, flag))
    (here : flag = .internal ∨ flag = .external) :
    Sound (((w.displace x p flag).shadowWith s p).enter s p) := by
  have finds := findSymbolInner_finds found
  have named : x.name = s.name := by
    apply name_of_find found
    rcases here with rfl | rfl <;> decide
  have external : (if flag = .internal then gethash s.name (w.pack p).external else none) =
      none := by
    split
    · rename_i internal
      rw [finds.external, internal]
      rfl
    · rfl
  have effect := effect_displace w named p flag
  rw [external] at effect
  apply sound_enter sound effect
  · rintro other c name (same | ⟨member, another⟩)
    · exact same
    · -- the symbol that was present is the only one that could shadow the name
      exfalso
      apply another
      have disjoint := (sound.clean s.name p).disjoint other
      have was := (sound.clean s.name p).shadowing other c member name
      rcases here with rfl | rfl
      · have internal := finds.internal (by decide) other
        rw [finds.external, internal] at was
        simpa [eq_comm] using was
      · have external := finds.external
        rw [external] at was disjoint
        rw [disjoint.resolve_right (by simp)] at was
        simpa [eq_comm] using was
  · exact fun _ => .inl (.inl rfl)

end Ecl.Packages
