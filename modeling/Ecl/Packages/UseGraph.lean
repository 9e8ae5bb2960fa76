import Ecl.Packages.Tables

/- Use lists are symmetric and names are unique. -/
namespace Ecl.Packages

open List

/-- The two use lists agree, without duplicates and among registered packages. -/
structure UseGraph (w : World) : Prop where
  symmetric : ∀ p q, q ∈ (w.pack p).uses ↔ p ∈ (w.pack q).usedby
  registered : ∀ p q, q ∈ (w.pack p).uses → p ∈ w.packages ∧ q ∈ w.packages
  uses : ∀ p, (w.pack p).uses.Nodup
  usedby : ∀ p, (w.pack p).usedby.Nodup

/-- No string names two registered packages. -/
def UniqueNames (w : World) : Prop :=
  ∀ p ∈ w.packages, ∀ q ∈ w.packages, ∀ name, w.Named p name → w.Named q name → p = q

namespace UseGraph

variable {w : World} (graph : UseGraph w)

include graph

theorem quiet {w' : World} (quiet : Quiet w w') : UseGraph w' where
  symmetric p q := by
    rw [quiet.uses, quiet.usedby]
    exact graph.symmetric p q
  registered p q := by
    rw [quiet.uses, quiet.packages]
    exact graph.registered p q
  uses p := by
    rw [quiet.uses]
    exact graph.uses p
  usedby p := by
    rw [quiet.usedby]
    exact graph.usedby p

theorem unlink (x p : PackageId) : UseGraph (w.unlink x p) where
  symmetric q y := by
    rw [mem_uses_unlink, mem_usedby_unlink, graph.symmetric]
    tauto
  registered q y member := graph.registered q y ((mem_uses_unlink w x p q y).mp member).1
  uses q := by
    rw [uses_unlink]
    split
    · exact (graph.uses q).filter _
    · exact graph.uses q
  usedby q := by
    rw [usedby_unlink]
    split
    · exact (graph.usedby q).filter _
    · exact graph.usedby q

theorem link {x p : PackageId} (hereX : x ∈ w.packages) (hereP : p ∈ w.packages)
    (new : x ∉ (w.pack p).uses) : UseGraph (w.link x p) where
  symmetric q y := by
    rw [mem_uses_link, mem_usedby_link, graph.symmetric]
    tauto
  registered q y member := by
    rcases (mem_uses_link w x p q y).mp member with ⟨rfl, rfl⟩ | old
    · exact ⟨hereP, hereX⟩
    · exact graph.registered q y old
  uses q := by
    rw [uses_link]
    split
    · rename_i user
      subst user
      exact nodup_cons.mpr ⟨new, graph.uses q⟩
    · exact graph.uses q
  usedby q := by
    rw [usedby_link]
    split
    · rename_i used
      subst used
      exact nodup_cons.mpr ⟨fun old => new ((graph.symmetric p q).mpr old), graph.usedby q⟩
    · exact graph.usedby q

theorem clear {p : PackageId} (uses : (w.pack p).uses = []) (usedby : (w.pack p).usedby = []) :
    UseGraph (w.clear p) := by
  have clears := clear_clears w p
  have sameUses (q : PackageId) : ((w.clear p).pack q).uses = (w.pack q).uses := by
    by_cases same : q = p
    · rw [same, clears.self]
    · rw [clears.others q same]
  have sameUsedby (q : PackageId) : ((w.clear p).pack q).usedby = (w.pack q).usedby := by
    by_cases same : q = p
    · rw [same, clears.self]
    · rw [clears.others q same]
  refine ⟨?_, ?_, ?_, ?_⟩
  · intro q y
    rw [sameUses, sameUsedby]
    exact graph.symmetric q y
  · intro q y member
    rw [sameUses] at member
    rw [clears.packages, mem_removeEq, mem_removeEq]
    obtain ⟨hereQ, hereY⟩ := graph.registered q y member
    refine ⟨⟨hereQ, ?_⟩, hereY, ?_⟩
    · rintro rfl
      rw [uses] at member
      cases member
    · rintro rfl
      rw [graph.symmetric, usedby] at member
      cases member
  · intro q
    rw [sameUses]
    exact graph.uses q
  · intro q
    rw [sameUsedby]
    exact graph.usedby q

end UseGraph

variable {w : World}

theorem UseGraph.fresh (graph : UseGraph w) (allocated : Allocated w) (name : String)
    (nicknames : List String) : UseGraph (w.fresh name nicknames) := by
  have sameUses (q : PackageId) : ((w.fresh name nicknames).pack q).uses = (w.pack q).uses := by
    by_cases new : q = w.packageCount
    · rw [new, pack_fresh_self]
      apply (eq_nil_iff_forall_not_mem.mpr ?_).symm
      intro y member
      exact lt_irrefl _ (allocated.uses _ y member).1
    · rw [pack_fresh_of_ne new]
  have sameUsedby (q : PackageId) :
      ((w.fresh name nicknames).pack q).usedby = (w.pack q).usedby := by
    by_cases new : q = w.packageCount
    · rw [new, pack_fresh_self]
      apply (eq_nil_iff_forall_not_mem.mpr ?_).symm
      intro y member
      exact lt_irrefl _ (allocated.usedby _ y member).1
    · rw [pack_fresh_of_ne new]
  refine ⟨?_, ?_, ?_, ?_⟩
  · intro p q
    rw [sameUses, sameUsedby]
    exact graph.symmetric p q
  · intro p q member
    rw [sameUses] at member
    exact graph.registered p q member
  · intro p
    rw [sameUses]
    exact graph.uses p
  · intro p
    rw [sameUsedby]
    exact graph.usedby p

theorem UseGraph.linkAll (graph : UseGraph w) {x : PackageId} {used : List PackageId}
    (hereX : x ∈ w.packages) (all : ∀ y ∈ used, y ∈ w.packages) (nodup : used.Nodup)
    (new : ∀ y ∈ used, y ∉ (w.pack x).uses) : UseGraph (w.linkAll x used) := by
  induction used generalizing w with
  | nil => exact graph
  | cons first used ih =>
    obtain ⟨fresh, nodup⟩ := nodup_cons.mp nodup
    have linked := graph.link (all first (mem_cons_self ..)) hereX
      (new first (mem_cons_self ..))
    apply ih linked hereX (fun y member => all y (mem_cons_of_mem first member)) nodup
    intro y member old
    rcases (mem_uses_link w first x x y).mp old with ⟨_, rfl⟩ | before
    · exact fresh member
    · exact new y (mem_cons_of_mem first member) before

theorem register_linkAll (w : World) (x : PackageId) (used : List PackageId) :
    (w.linkAll x used).register x = (w.register x).linkAll x used := by
  induction used generalizing w with
  | nil => rfl
  | cons first used ih => exact ih (w.link first x)

theorem UseGraph.register (graph : UseGraph w) (x : PackageId) : UseGraph (w.register x) where
  symmetric := graph.symmetric
  registered p q member := by
    obtain ⟨hereP, hereQ⟩ := graph.registered p q member
    exact ⟨mem_cons_of_mem x hereP, mem_cons_of_mem x hereQ⟩
  uses := graph.uses
  usedby := graph.usedby

theorem UseGraph.rename (graph : UseGraph w) (x : PackageId) (name : String)
    (nicknames : List String) : UseGraph (w.rename x name nicknames) := by
  have sameUses (q : PackageId) :
      ((w.rename x name nicknames).pack q).uses = (w.pack q).uses := by
    rw [World.rename, pack_modify]
    split <;> rfl
  have sameUsedby (q : PackageId) :
      ((w.rename x name nicknames).pack q).usedby = (w.pack q).usedby := by
    rw [World.rename, pack_modify]
    split <;> rfl
  refine ⟨?_, ?_, ?_, ?_⟩
  · intro p q
    rw [sameUses, sameUsedby]
    exact graph.symmetric p q
  · intro p q member
    rw [sameUses] at member
    exact graph.registered p q member
  · intro p
    rw [sameUses]
    exact graph.uses p
  · intro p
    rw [sameUsedby]
    exact graph.usedby p

variable {w' : World}

theorem UniqueNames.congr (unique : UniqueNames w) (packages : ∀ p ∈ w'.packages, p ∈ w.packages)
    (names : ∀ p ∈ w'.packages, ∀ name, w'.Named p name → w.Named p name) : UniqueNames w' := by
  intro p hereP q hereQ name namedP namedQ
  exact unique p (packages p hereP) q (packages q hereQ) name (names p hereP name namedP)
    (names q hereQ name namedQ)

theorem UniqueNames.onlyLists (unique : UniqueNames w) (only : OnlyLists w w') :
    UniqueNames w' := by
  refine unique.congr (by rw [only.packages]; exact fun _ member => member) ?_
  intro p _ name named
  rwa [World.Named, only.name, only.nicknames] at named

theorem UniqueNames.quiet (unique : UniqueNames w) (quiet : Quiet w w') : UniqueNames w' := by
  refine unique.congr (by rw [quiet.packages]; exact fun _ member => member) ?_
  intro p _ name named
  rwa [World.Named, quiet.name, quiet.nicknames] at named

theorem not_named_of_findPackage {name : String} (free : w.findPackage name = none)
    {p : PackageId} (here : p ∈ w.packages) : ¬ w.Named p name := by
  have none := List.find?_eq_none.mp free p here
  simpa using none

theorem UniqueNames.add (unique : UniqueNames w) {x : PackageId}
    (packages : w'.packages = x :: w.packages)
    (old : ∀ p ∈ w.packages, p ≠ x → ∀ name, w'.Named p name → w.Named p name)
    (own : ∀ p ∈ w.packages, p ≠ x → ∀ name, w'.Named x name → ¬ w.Named p name) :
    UniqueNames w' := by
  intro p hereP q hereQ name namedP namedQ
  rw [packages] at hereP hereQ
  by_cases sameP : p = x
  · by_cases sameQ : q = x
    · rw [sameP, sameQ]
    · have inside := (mem_cons.mp hereQ).resolve_left sameQ
      exact absurd (old q inside sameQ name namedQ) (own q inside sameQ name (sameP ▸ namedP))
  · have insideP := (mem_cons.mp hereP).resolve_left sameP
    by_cases sameQ : q = x
    · exact absurd (old p insideP sameP name namedP) (own p insideP sameP name (sameQ ▸ namedQ))
    · have insideQ := (mem_cons.mp hereQ).resolve_left sameQ
      exact unique p insideP q insideQ name (old p insideP sameP name namedP)
        (old q insideQ sameQ name namedQ)

/-- The calls that keep use lists and names in order. MAKE-PACKAGE is given different
registered packages to use, or fails at the first of them; RENAME-PACKAGE is given no
nickname of another package; USE-PACKAGE is given no deleted package. -/
def KeepsGraph : Op → World → Prop
  | .makePackage name nicknames useList, w =>
    Makes w name nicknames useList →
      (w.coerceAll useList.elements).1.Nodup ∧
      (∀ y ∈ (w.coerceAll useList.elements).1, y ∈ w.packages) ∧
      ((w.coerceAll useList.elements).2 = none ∨ (w.coerceAll useList.elements).1 = [])
  | .renamePackage x name nicknames, w =>
    ∀ x' n, Coerces w x x' → name = .string n →
      (w.findPackage n = none ∨ w.findPackage n = some x') → x' ∈ w.packages →
      ∀ nick, .string nick ∈ nicknames.elements → ∀ q ∈ w.packages, w.Named q nick → q = x'
  | .usePackage x p, w =>
    ∀ x' p', Coerces w x x' → Coerces w p p' → x' ∈ w.packages ∧ p' ∈ w.packages
  | _, _ => True

/-- Use lists and names in order. -/
structure Orderly (w : World) : Prop where
  allocated : Allocated w
  graph : UseGraph w
  names : UniqueNames w

namespace Orderly

variable {w : World} (orderly : Orderly w)

include orderly

theorem fresh (name : String) (nicknames : List String) : Orderly (w.fresh name nicknames) where
  allocated := orderly.allocated.fresh name nicknames
  graph := orderly.graph.fresh orderly.allocated name nicknames
  names := by
    refine orderly.names.congr ?_ ?_
    · exact fun _ member => member
    intro p here wanted named
    have old : p ≠ w.packageCount := fun same => orderly.allocated.new (same ▸ here)
    rwa [World.Named, pack_fresh_of_ne old] at named

theorem makes {name : String} {nicknames : List String} {used : List PackageId}
    (freeName : w.findPackage name = none)
    (freeNicknames : ∀ nick ∈ nicknames, w.findPackage nick = none) (nodup : used.Nodup)
    (all : ∀ y ∈ used, y ∈ w.packages) :
    Orderly (((w.fresh name nicknames).linkAll w.packageCount used).register w.packageCount) := by
  have fresh := orderly.fresh name nicknames
  have only := OnlyLists.linkAll (w.fresh name nicknames) w.packageCount used
  refine ⟨?_, ?_, ?_⟩
  · apply (orderly.allocated.makes name nicknames fun y member =>
      orderly.allocated.registered y (all y member)).register
    rw [only.packageCount]
    exact Nat.lt_succ_self _
  · rw [register_linkAll]
    apply (fresh.graph.register w.packageCount).linkAll (mem_cons_self ..)
      (fun y member => mem_cons_of_mem _ (all y member)) nodup
    intro y _ old
    have none : ((w.fresh name nicknames).pack w.packageCount).uses = [] := by
      rw [pack_fresh_self]
      rfl
    exact absurd old (by
      show y ∉ ((w.fresh name nicknames).pack w.packageCount).uses
      rw [none]
      exact not_mem_nil)
  · apply orderly.names.add (x := w.packageCount)
    · exact congrArg (w.packageCount :: ·) only.packages
    · intro p here old wanted named
      change ((w.fresh name nicknames).linkAll w.packageCount used).Named p wanted at named
      rwa [World.Named, only.name, only.nicknames, pack_fresh_of_ne old] at named
    · intro p here _ wanted named
      change ((w.fresh name nicknames).linkAll w.packageCount used).Named w.packageCount wanted
        at named
      rw [World.Named, only.name, only.nicknames, pack_fresh_self] at named
      rcases named with same | nick
      · cases same
        exact not_named_of_findPackage freeName here
      · exact not_named_of_findPackage (freeNicknames wanted nick) here

theorem rename {x : PackageId} {name : String} {nicknames : List String}
    (free : w.findPackage name = none ∨ w.findPackage name = some x)
    (own : x ∈ w.packages → ∀ nick ∈ nicknames, ∀ q ∈ w.packages, w.Named q nick → q = x) :
    Orderly (w.rename x name nicknames) where
  allocated := orderly.allocated.rename x name nicknames
  graph := orderly.graph.rename x name nicknames
  names := by
    have others {q : PackageId} (differ : q ≠ x) (wanted : String) :
        (w.rename x name nicknames).Named q wanted ↔ w.Named q wanted := by
      rw [World.Named, World.rename, pack_modify_of_ne w _ differ]
      rfl
    have foreign {q : PackageId} (hereX : x ∈ w.packages) (hereQ : q ∈ w.packages)
        (differ : q ≠ x) (wanted : String) (named : (w.rename x name nicknames).Named x wanted) :
        ¬ w.Named q wanted := by
      intro namedQ
      rw [World.Named, World.rename, pack_modify_self] at named
      rcases named with same | nick
      · cases same
        rcases free with none | found
        · exact not_named_of_findPackage none hereQ namedQ
        · have namedX : w.Named x name := by
            have holds := List.find?_some found
            simpa using holds
          exact differ (orderly.names q hereQ x hereX name namedQ namedX)
      · exact differ (own hereX wanted nick q hereQ namedQ)
    intro p hereP q hereQ wanted namedP namedQ
    by_cases sameP : p = x
    · by_cases sameQ : q = x
      · rw [sameP, sameQ]
      · subst sameP
        exact absurd ((others sameQ wanted).mp namedQ) (foreign hereP hereQ sameQ wanted namedP)
    · by_cases sameQ : q = x
      · subst sameQ
        exact absurd ((others sameP wanted).mp namedP) (foreign hereQ hereP sameP wanted namedQ)
      · exact orderly.names p hereP q hereQ wanted ((others sameP wanted).mp namedP)
          ((others sameQ wanted).mp namedQ)

theorem unlink (x p : PackageId) : Orderly (w.unlink x p) where
  allocated := orderly.allocated.unlink x p
  graph := orderly.graph.unlink x p
  names := orderly.names.onlyLists (OnlyLists.unlink w x p)

theorem clear {p : PackageId} (uses : (w.pack p).uses = []) (usedby : (w.pack p).usedby = []) :
    Orderly (w.clear p) where
  allocated := orderly.allocated.clear p
  graph := orderly.graph.clear uses usedby
  names := by
    have clears := clear_clears w p
    apply orderly.names.congr
    · rw [clears.packages]
      exact fun q member => (mem_removeEq.mp member).1
    · intro q member wanted named
      rw [clears.packages, mem_removeEq] at member
      rwa [World.Named, clears.others q member.2] at named

theorem run {op : Op} (here : op.Exists w) (meets : KeepsGraph op w) (lock : Bool) :
    Orderly (op.run never ⟨w, lock⟩).1.world := by
  by_cases symbols : op.onSymbols = true
  · have quiet : Quiet w (op.run never ⟨w, lock⟩).1.world := run_quiet symbols w lock
    exact ⟨orderly.allocated.quiet quiet, orderly.graph.quiet quiet, orderly.names.quiet quiet⟩
  · cases op with
    | makePackage name nicknames useList =>
      apply makePackage_keeps orderly orderly.allocated.new orderly.fresh
      · intro makes name nicknames used outcome listed
        obtain ⟨_, _, stops⟩ := meets makes
        rw [listed] at stops
        rcases stops with none | rfl
        · cases none
        · exact orderly.fresh name nicknames
      · intro makes name nicknames used freeName freeNicknames listed
        obtain ⟨nodup, all, _⟩ := meets makes
        rw [listed] at nodup all
        exact orderly.makes freeName freeNicknames nodup all
    | renamePackage x name nicknames =>
      apply renamePackage_keeps orderly
      intro x' n nicks coerced designates free taken
      apply orderly.rename free
      intro hereX nick member
      exact meets x' n coerced designates free hereX nick (taken nick member)
    | deletePackage p =>
      apply deletePackage_keeps orderly
      · intro w x p orderly
        exact orderly.unlink x p
      · intro w p orderly _ _ uses usedby
        exact orderly.clear uses usedby
    | usePackage x p =>
      apply usePackage_keeps orderly
      intro x' p' coercedX coercedP _ _ _ new _
      obtain ⟨hereX, hereP⟩ := meets x' p' coercedX coercedP
      exact ⟨orderly.allocated.link (orderly.allocated.registered x' hereX)
          (orderly.allocated.registered p' hereP), orderly.graph.link hereX hereP new,
        orderly.names.onlyLists (OnlyLists.link w x' p')⟩
    | unusePackage x p =>
      apply unusePackage_keeps orderly
      intro x' p' _ _
      exact orderly.unlink x' p'
    | _ => exact absurd rfl symbols

end Orderly

theorem initialState_useGraph : UseGraph initialState.world := by
  have small (p : PackageId) : 7 ≤ p → initialState.world.pack p = Package.empty none := by
    intro large
    obtain ⟨k, rfl⟩ := Nat.exists_eq_add_of_le' large
    rfl
  have inside : ∀ p < 7, ∀ q < 7, (q ∈ (initialState.world.pack p).uses ↔
      p ∈ (initialState.world.pack q).usedby) := by decide
  have lists : ∀ p < 7, (initialState.world.pack p).uses.Nodup ∧
      (initialState.world.pack p).usedby.Nodup := by decide
  have allocated := initialState_allocated
  refine ⟨?_, ?_, ?_, ?_⟩
  · intro p q
    constructor
    · intro member
      obtain ⟨hereP, hereQ⟩ := allocated.uses p q member
      exact (inside p hereP q hereQ).mp member
    · intro member
      obtain ⟨hereQ, hereP⟩ := allocated.usedby q p member
      exact (inside p hereP q hereQ).mpr member
  · intro p q member
    obtain ⟨hereP, hereQ⟩ := allocated.uses p q member
    have all : ∀ r < 7, r ∈ initialState.world.packages := by decide
    exact ⟨all p hereP, all q hereQ⟩
  · intro p
    by_cases here : p < 7
    · exact (lists p here).1
    · rw [small p (not_lt.mp here)]
      exact nodup_nil
  · intro p
    by_cases here : p < 7
    · exact (lists p here).2
    · rw [small p (not_lt.mp here)]
      exact nodup_nil

theorem initialState_uniqueNames : UniqueNames initialState.world := by
  -- the strings that name a package, each once
  have listed : ∀ p ∈ initialState.world.packages, ∀ q ∈ initialState.world.packages,
      p ≠ q → ∀ name ∈ (initialState.world.pack p).nicknames ++
        (initialState.world.pack p).name.toList,
        name ∉ (initialState.world.pack q).nicknames ++
          (initialState.world.pack q).name.toList := by
    decide
  have strings {p : PackageId} {name : String} (named : initialState.world.Named p name) :
      name ∈ (initialState.world.pack p).nicknames ++
        (initialState.world.pack p).name.toList := by
    rcases named with same | nick
    · rw [same]
      simp
    · exact mem_append_left _ nick
  intro p hereP q hereQ name namedP namedQ
  by_contra differ
  exact listed p hereP q hereQ differ name (strings namedP) (strings namedQ)

theorem Reachable.orderly {st : State} (reached : Reachable KeepsGraph st) : Orderly st.world := by
  induction reached with
  | initial => exact ⟨initialState_allocated, initialState_useGraph, initialState_uniqueNames⟩
  | step op st _ here meets ih => exact ih.run here meets st.lock

/-- The use lists of registered packages mirror each other, without duplicates and without
packages that are not registered, and names are unique. -/
def GraphConsistent (w : World) : Prop :=
  (∀ p ∈ w.packages, ∀ q ∈ w.packages, q ∈ (w.pack p).uses ↔ p ∈ (w.pack q).usedby) ∧
  (∀ p ∈ w.packages, (w.pack p).uses.Nodup ∧ (w.pack p).usedby.Nodup ∧
    (∀ q ∈ (w.pack p).uses, q ∈ w.packages) ∧ ∀ q ∈ (w.pack p).usedby, q ∈ w.packages) ∧
  UniqueNames w

theorem reachable_graph_consistent {st : State} (reached : Reachable KeepsGraph st) :
    GraphConsistent st.world := by
  have orderly := reached.orderly
  refine ⟨fun p _ q _ => orderly.graph.symmetric p q, ?_, orderly.names⟩
  intro p _
  refine ⟨orderly.graph.uses p, orderly.graph.usedby p, ?_, ?_⟩
  · intro q member
    exact (orderly.graph.registered p q member).2
  · intro q member
    exact (orderly.graph.registered q p ((orderly.graph.symmetric q p).mpr member)).1

/-- A package that uses COMMON-LISP. -/
def makeA : Op := .makePackage (.string "A") ⟨[], true⟩ ⟨[.string "CL"], true⟩

theorem reachable_graph_consistent_makeA :
    Reachable KeepsGraph (makeA.run never initialState).1 ∧
      GraphConsistent (makeA.run never initialState).1.world := by
  have reached : Reachable KeepsGraph (makeA.run never initialState).1 := by
    apply Reachable.step makeA initialState .initial
    · intro q member
      simp at member
    · intro _
      exact ⟨by decide, by decide, .inl (by decide)⟩
  exact ⟨reached, reachable_graph_consistent reached⟩

def useTwice : Op := .makePackage (.string "A") ⟨[], true⟩ ⟨[.string "CL", .string "LISP"], true⟩

def useUnknown :
    Op := .makePackage (.string "A") ⟨[], true⟩ ⟨[.string "CL", .string "NOWHERE"], true⟩

def takeNickname : Op := .renamePackage (.string "USER") (.string "USER") ⟨[.string "CL"], true⟩

theorem graph_inconsistent_calls :
    (Reachable (fun _ _ => True) (useTwice.run never initialState).1 ∧
      ¬ GraphConsistent (useTwice.run never initialState).1.world) ∧
    (Reachable (fun _ _ => True) (useUnknown.run never initialState).1 ∧
      ¬ GraphConsistent (useUnknown.run never initialState).1.world) ∧
    Reachable (fun _ _ => True) (takeNickname.run never initialState).1 ∧
      ¬ GraphConsistent (takeNickname.run never initialState).1.world := by
  refine ⟨⟨?_, ?_⟩, ⟨?_, ?_⟩, ?_, ?_⟩
  · apply Reachable.step useTwice initialState .initial
    · intro q listed
      simp at listed
    · trivial
  · rintro ⟨_, lists, _⟩
    exact absurd (lists 7 (by decide)).1 (by decide)
  · apply Reachable.step useUnknown initialState .initial
    · intro q listed
      simp at listed
    · trivial
  · rintro ⟨_, lists, _⟩
    exact absurd ((lists 0 (by decide)).2.2.2 7 (by decide)) (by decide)
  · apply Reachable.step takeNickname initialState .initial
    · intro q same
      cases same
    · trivial
  · rintro ⟨_, _, names⟩
    exact absurd (names 0 (by decide) 1 (by decide) "CL" (by decide) (by decide)) (by decide)

end Ecl.Packages
