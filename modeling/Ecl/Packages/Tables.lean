import Ecl.Packages.Rules

/- Tables of symbols, what a search through a package finds, and the numbers of packages. -/
namespace Ecl.Packages

open List

variable {name : String} {s : Symbol}

theorem gethash_name {table : SymbolTable} (found : gethash name table = some s) :
    s.name = name := by
  have holds := List.find?_some found
  simpa using holds

theorem mem_of_gethash {table : SymbolTable} (found : gethash name table = some s) : s ∈ table :=
  mem_of_find?_eq_some found

@[simp] theorem gethash_nil (name : String) : gethash name [] = none := rfl

theorem gethash_remhash (name other : String) (table : SymbolTable) :
    gethash name (remhash other table) = if name = other then none else gethash name table := by
  induction table with
  | nil => split <;> rfl
  | cons s table ih =>
    simp only [gethash, remhash] at ih ⊢
    by_cases here : s.name = other
    · rw [filter_cons_of_neg (by simpa using here), ih]
      split
      · rfl
      · rename_i differ
        rw [List.find?_cons_of_neg (by simpa [here] using Ne.symm differ)]
    · rw [filter_cons_of_pos (by simpa using here)]
      by_cases wanted : s.name = name
      · rw [List.find?_cons_of_pos (by simpa using wanted),
          List.find?_cons_of_pos (by simpa using wanted),
            if_neg (fun same => here (wanted.trans same))]
      · rw [List.find?_cons_of_neg (by simpa using wanted),
          List.find?_cons_of_neg (by simpa using wanted), ih]

theorem gethash_sethash (name : String) (s : Symbol) (table : SymbolTable) :
    gethash name (sethash s table) = if name = s.name then some s else gethash name table := by
  by_cases wanted : s.name = name
  · rw [if_pos wanted.symm, gethash, sethash, List.find?_cons_of_pos (by simpa using wanted)]
  · have rest := gethash_remhash name s.name table
    rw [if_neg (Ne.symm wanted)] at rest ⊢
    rw [← rest, gethash, sethash, List.find?_cons_of_neg (by simpa using wanted), gethash]

namespace World

variable (w : World) (p : PackageId) (s : Symbol)

/-- The symbol is in one of the tables of the package, under its name. -/
def Present : Prop :=
  gethash s.name (w.pack p).internal = some s ∨ gethash s.name (w.pack p).external = some s

/-- The symbol is present, or external in a package used. -/
def Accessible : Prop :=
  w.Present p s ∨ ∃ q ∈ (w.pack p).uses, gethash s.name (w.pack q).external = some s

end World

variable {w : World}

theorem findInherited_none {uses : List PackageId} (missing : w.findInherited name uses = none) :
    ∀ q ∈ uses, gethash name (w.pack q).external = none := by
  induction uses with
  | nil => simp
  | cons first uses ih =>
    simp only [World.findInherited] at missing
    cases here : gethash name (w.pack first).external with
    | some s => simp [here] at missing
    | none =>
      simp only [here] at missing
      intro q member
      rcases mem_cons.mp member with rfl | later
      · exact here
      · exact ih missing q later

theorem findInherited_some {uses : List PackageId} (found : w.findInherited name uses = some s) :
    ∃ q ∈ uses, gethash name (w.pack q).external = some s := by
  induction uses with
  | nil => cases found
  | cons first uses ih =>
    simp only [World.findInherited] at found
    cases here : gethash name (w.pack first).external with
    | some t =>
      simp only [here, Option.some.injEq] at found
      exact ⟨first, mem_cons_self .., by rw [here, found]⟩
    | none =>
      simp only [here] at found
      obtain ⟨q, member, holds⟩ := ih found
      exact ⟨q, mem_cons_of_mem first member, holds⟩

/-- What findSymbolInner says, by the flag; the keyword package is searched in its external
table only. -/
structure Finds (w : World) (name : String) (p : PackageId) (x : Symbol) (flag : World.Flag) :
    Prop where
  external : gethash name (w.pack p).external = if flag = .external then some x else none
  internal : flag ≠ .external → p ≠ keywordPackage →
    gethash name (w.pack p).internal = if flag = .internal then some x else none
  inherited : flag = .inherited → ∃ q ∈ (w.pack p).uses,
    gethash name (w.pack q).external = some x
  nothing : flag = .nothing → p ≠ keywordPackage → ∀ q ∈ (w.pack p).uses,
    gethash name (w.pack q).external = none
  keyword : p = keywordPackage → flag = .nothing ∨ flag = .external

theorem findSymbolInner_finds {p : PackageId} {x : Symbol}
    {flag : World.Flag} (found : w.findSymbolInner name p = (x, flag)) :
    Finds w name p x flag := by
  unfold World.findSymbolInner at found
  split at found
  · rename_i s here
    cases found
    exact { external := here, internal := by simp, inherited := by simp, nothing := by simp,
            keyword := by simp }
  · rename_i missing
    split at found
    · rename_i keyword
      cases found
      exact { external := missing, internal := fun _ other => absurd keyword other,
              inherited := by simp, nothing := fun _ other => absurd keyword other,
              keyword := by simp }
    · rename_i other
      split at found
      · rename_i s here
        cases found
        exact { external := missing, internal := fun _ _ => here, inherited := by simp,
                nothing := by simp, keyword := fun same => absurd same other }
      · rename_i absent
        split at found
        · rename_i s here
          cases found
          exact { external := missing, internal := fun _ _ => absent,
                  inherited := fun _ => findInherited_some here, nothing := by simp,
                  keyword := fun same => absurd same other }
        · rename_i none
          cases found
          exact { external := missing, internal := fun _ _ => absent, inherited := by simp,
                  nothing := fun _ _ => findInherited_none none,
                  keyword := fun same => absurd same other }

/- Operations on symbols leave names and use lists alone, and no operation mentions a
package that was never allocated. -/

open List Nat

/-- Names, use lists and the list of packages are the same. -/
structure Quiet (w w' : World) : Prop where
  packages : w'.packages = w.packages
  packageCount : w'.packageCount = w.packageCount
  uses : ∀ p, (w'.pack p).uses = (w.pack p).uses
  usedby : ∀ p, (w'.pack p).usedby = (w.pack p).usedby
  name : ∀ p, (w'.pack p).name = (w.pack p).name
  nicknames : ∀ p, (w'.pack p).nicknames = (w.pack p).nicknames

namespace Quiet

theorem refl (w : World) : Quiet w w :=
  ⟨rfl, rfl, fun _ => rfl, fun _ => rfl, fun _ => rfl, fun _ => rfl⟩

theorem trans {w w' w'' : World} (first : Quiet w w') (second : Quiet w' w'') : Quiet w w'' where
  packages := second.packages.trans first.packages
  packageCount := second.packageCount.trans first.packageCount
  uses p := (second.uses p).trans (first.uses p)
  usedby p := (second.usedby p).trans (first.usedby p)
  name p := (second.name p).trans (first.name p)
  nicknames p := (second.nicknames p).trans (first.nicknames p)

theorem modify (w : World) (p : PackageId) {change : Package → Package}
    (uses : ∀ package, (change package).uses = package.uses)
    (usedby : ∀ package, (change package).usedby = package.usedby)
    (name : ∀ package, (change package).name = package.name)
    (nicknames : ∀ package, (change package).nicknames = package.nicknames) :
    Quiet w (w.modify p change) := by
  refine ⟨rfl, rfl, ?_, ?_, ?_, ?_⟩
  all_goals
    intro q
    rw [pack_modify]
    split
  · exact uses _
  · rfl
  · exact usedby _
  · rfl
  · exact name _
  · rfl
  · exact nicknames _
  · rfl

theorem setHome (w : World) (s : Symbol) (home : Option PackageId) : Quiet w (w.setHome s home) :=
  ⟨rfl, rfl, fun _ => rfl, fun _ => rfl, fun _ => rfl, fun _ => rfl⟩

theorem makeSymbol (w : World) (name : String) : Quiet w (w.makeSymbol name).1 :=
  ⟨rfl, rfl, fun _ => rfl, fun _ => rfl, fun _ => rfl, fun _ => rfl⟩

theorem symbolRemovePackage (w : World) (s : Symbol) (p : PackageId) :
    Quiet w (w.symbolRemovePackage s p) := by
  unfold World.symbolRemovePackage
  split
  · exact setHome ..
  · exact refl w

theorem symbolAddPackage (w : World) (s : Symbol) (p : PackageId) :
    Quiet w (w.symbolAddPackage s p) := by
  unfold World.symbolAddPackage
  split
  · exact setHome ..
  · exact refl w

theorem remove (w : World) (s : Symbol) (p : PackageId) : Quiet w (w.remove s p) := by
  refine (modify w p ?_ ?_ ?_ ?_).trans (symbolRemovePackage _ s p)
  all_goals
    intro package
    split <;> rfl

theorem internNew (w : World) (name : String) (p : PackageId) : Quiet w (w.internNew name p) := by
  unfold World.internNew
  dsimp only
  split
  · exact ((makeSymbol w name).trans (setHome _ _ _)).trans
      (modify _ _ (fun _ => rfl) (fun _ => rfl) (fun _ => rfl) (fun _ => rfl))
  · exact ((makeSymbol w name).trans (setHome _ _ _)).trans
      (modify _ _ (fun _ => rfl) (fun _ => rfl) (fun _ => rfl) (fun _ => rfl))

theorem enter (w : World) (s : Symbol) (p : PackageId) : Quiet w (w.enter s p) :=
  modify _ _ (fun _ => rfl) (fun _ => rfl) (fun _ => rfl) (fun _ => rfl)

theorem shadowWith (w : World) (s : Symbol) (p : PackageId) : Quiet w (w.shadowWith s p) :=
  modify _ _ (fun _ => rfl) (fun _ => rfl) (fun _ => rfl) (fun _ => rfl)

theorem displace (w : World) (x : Symbol) (p : PackageId) (flag : World.Flag) :
    Quiet w (w.displace x p flag) := by
  refine (modify w p ?_ ?_ ?_ ?_).trans (symbolRemovePackage _ x p)
  all_goals
    intro package
    dsimp only
    split <;> rfl

end Quiet

/-- The operations that work on the symbols of a package. -/
def Op.onSymbols : Op → Bool
  | .intern _ _ | .unintern _ _ | .exports _ _ | .unexport _ _ | .imports _ _
  | .shadowingImport _ _ | .shadow _ _ | .packageLock _ _ | .makeSymbol _ => true
  | _ => false

theorem run_quiet {continues : Restart → Bool} {op : Op} (symbols : op.onSymbols = true) (w : World)
    (lock : Bool) :
    Quiet w (op.run continues ⟨w, lock⟩).1.world := by
  have same := Quiet.refl w
  cases op with
  | intern name p => exact intern_keeps same fun p' _ _ => Quiet.internNew w name p'
  | unintern s p =>
    apply unintern_keeps same
    · intro p' _ _ _
      exact Quiet.remove w s p'
    · intro p' _ _ _ _
      exact (Quiet.remove w s p').trans
        (Quiet.modify _ _ (fun _ => rfl) (fun _ => rfl) (fun _ => rfl) (fun _ => rfl))
  | exports s p =>
    apply export_keeps same
    intro p' flag _ _ _ _ _
    exact Quiet.modify _ _ (fun _ => rfl) (fun _ => rfl) (fun _ => rfl) (fun _ => rfl)
  | unexport s p =>
    apply unexport_keeps same
    intro p' x _ _ _
    exact Quiet.modify _ _ (fun _ => rfl) (fun _ => rfl) (fun _ => rfl) (fun _ => rfl)
  | imports s p =>
    apply import_keeps same
    intro p' x flag _ _ _
    exact (Quiet.enter w s p').trans (Quiet.symbolAddPackage _ s p')
  | shadowingImport s p =>
    apply shadowingImport_keeps same
    · intro p' flag _ _ _
      exact Quiet.shadowWith w s p'
    · intro p' x flag _ _ _ _
      exact ((Quiet.displace w x p' flag).trans (Quiet.shadowWith _ s p')).trans
        (Quiet.enter _ s p')
    · intro p' x flag _ _ _
      exact (Quiet.shadowWith w s p').trans (Quiet.enter _ s p')
  | shadow name p =>
    apply shadow_keeps same
    · intro n p' x flag _ _ _ _
      exact Quiet.shadowWith w x p'
    · intro n p' x flag _ _ _ _
      exact (((Quiet.makeSymbol w n).trans (Quiet.enter _ _ p')).trans
        (Quiet.setHome _ _ _)).trans (Quiet.shadowWith _ _ p')
  | packageLock p locked =>
    apply packageLock_keeps same
    intro p'
    exact Quiet.modify _ _ (fun _ => rfl) (fun _ => rfl) (fun _ => rfl) (fun _ => rfl)
  | makeSymbol name => exact Quiet.makeSymbol w name
  | makePackage => cases symbols
  | renamePackage => cases symbols
  | deletePackage => cases symbols
  | usePackage => cases symbols
  | unusePackage => cases symbols

/-- The packages in the lists have been allocated. -/
structure Allocated (w : World) : Prop where
  keyword : keywordPackage < w.packageCount
  registered : ∀ p ∈ w.packages, p < w.packageCount
  uses : ∀ p, ∀ q ∈ (w.pack p).uses, p < w.packageCount ∧ q < w.packageCount
  usedby : ∀ p, ∀ q ∈ (w.pack p).usedby, p < w.packageCount ∧ q < w.packageCount

variable {w : World}

theorem Allocated.quiet {w' : World} (allocated : Allocated w) (quiet : Quiet w w') :
    Allocated w' where
  keyword := by
    rw [quiet.packageCount]
    exact allocated.keyword
  registered := by
    rw [quiet.packages, quiet.packageCount]
    exact allocated.registered
  uses p := by
    rw [quiet.uses, quiet.packageCount]
    exact allocated.uses p
  usedby p := by
    rw [quiet.usedby, quiet.packageCount]
    exact allocated.usedby p

variable {p : PackageId}

theorem mem_of_findPackage {name : String} (found : w.findPackage name = some p) : p ∈ w.packages :=
  mem_of_find?_eq_some found

theorem Allocated.coerces (allocated : Allocated w) {d : Designator}
    (coerced : Coerces w d p) (here : ∀ q, d = .package q → q < w.packageCount) :
    p < w.packageCount := by
  cases d with
  | package q =>
    cases coerced
    exact here p rfl
  | string name => exact allocated.registered p (mem_of_findPackage coerced)
  | other => cases coerced

theorem Allocated.new (allocated : Allocated w) : w.packageCount ∉ w.packages :=
  fun member => lt_irrefl _ (allocated.registered _ member)

theorem Allocated.coerceAll (allocated : Allocated w) {useList : List Designator}
    (here : ∀ q, .package q ∈ useList → q < w.packageCount) :
    ∀ y ∈ (w.coerceAll useList).1, y < w.packageCount := by
  induction useList with
  | nil => simp [World.coerceAll]
  | cons d useList ih =>
    have later := ih fun q member => here q (mem_cons_of_mem d member)
    cases d with
    | other => simp [World.coerceAll]
    | package q =>
      intro y member
      rcases mem_cons.mp member with rfl | rest
      · exact here y (mem_cons_self ..)
      · exact later y rest
    | string name =>
      simp only [World.coerceAll]
      cases found : w.findPackage name with
      | none => simp
      | some p =>
        intro y member
        rcases mem_cons.mp member with rfl | rest
        · exact allocated.registered y (mem_of_findPackage found)
        · exact later y rest

section Lists

variable (w : World) (x p q : PackageId)

theorem uses_link :
    ((w.link x p).pack q).uses = if q = p then x :: (w.pack q).uses else (w.pack q).uses := by
  simp only [World.link, pack_modify]
  split <;> split <;> rfl

theorem usedby_link :
    ((w.link x p).pack q).usedby =
      if q = x then p :: (w.pack q).usedby else (w.pack q).usedby := by
  simp only [World.link, pack_modify]
  split <;> split <;> rfl

theorem mem_uses_link (y : PackageId) :
    y ∈ ((w.link x p).pack q).uses ↔ q = p ∧ y = x ∨ y ∈ (w.pack q).uses := by
  rw [uses_link]
  split
  · rename_i user
    simp [user]
  · rename_i other
    simp [other]

theorem mem_usedby_link (y : PackageId) :
    y ∈ ((w.link x p).pack q).usedby ↔ q = x ∧ y = p ∨ y ∈ (w.pack q).usedby := by
  rw [usedby_link]
  split
  · rename_i used
    simp [used]
  · rename_i other
    simp [other]

theorem mem_uses_unlink (y : PackageId) :
    y ∈ ((w.unlink x p).pack q).uses ↔ y ∈ (w.pack q).uses ∧ ¬ (q = p ∧ y = x) := by
  rw [uses_unlink]
  split
  · rename_i user
    rw [mem_removeEq]
    simp [user]
  · rename_i other
    simp [other]

theorem mem_usedby_unlink (y : PackageId) :
    y ∈ ((w.unlink x p).pack q).usedby ↔ y ∈ (w.pack q).usedby ∧ ¬ (q = x ∧ y = p) := by
  rw [usedby_unlink]
  split
  · rename_i used
    rw [mem_removeEq]
    simp [used]
  · rename_i other
    simp [other]

theorem mem_uses_linkAll (used : List PackageId) (y : PackageId) :
    y ∈ ((w.linkAll x used).pack q).uses ↔ q = x ∧ y ∈ used ∨ y ∈ (w.pack q).uses := by
  induction used generalizing w with
  | nil => simp [World.linkAll]
  | cons first used ih =>
    have recurse := ih (w.link first x)
    rw [mem_uses_link] at recurse
    simp only [World.linkAll, foldl_cons] at recurse ⊢
    rw [recurse, mem_cons]
    tauto

theorem mem_usedby_linkAll (used : List PackageId) (y : PackageId) :
    y ∈ ((w.linkAll x used).pack q).usedby ↔ y = x ∧ q ∈ used ∨ y ∈ (w.pack q).usedby := by
  induction used generalizing w with
  | nil => simp [World.linkAll]
  | cons first used ih =>
    have recurse := ih (w.link first x)
    rw [mem_usedby_link] at recurse
    simp only [World.linkAll, foldl_cons] at recurse ⊢
    rw [recurse, mem_cons]
    tauto

end Lists

/-- What linking changes besides use lists: nothing. -/
structure OnlyLists (w w' : World) : Prop where
  packages : w'.packages = w.packages
  packageCount : w'.packageCount = w.packageCount
  hpack : w'.hpack = w.hpack
  internal : ∀ p, (w'.pack p).internal = (w.pack p).internal
  external : ∀ p, (w'.pack p).external = (w.pack p).external
  shadowings : ∀ p, (w'.pack p).shadowings = (w.pack p).shadowings
  name : ∀ p, (w'.pack p).name = (w.pack p).name
  nicknames : ∀ p, (w'.pack p).nicknames = (w.pack p).nicknames

namespace OnlyLists

theorem refl (w : World) : OnlyLists w w :=
  ⟨rfl, rfl, rfl, fun _ => rfl, fun _ => rfl, fun _ => rfl, fun _ => rfl, fun _ => rfl⟩

theorem trans {w w' w'' : World} (first : OnlyLists w w') (second : OnlyLists w' w'') :
    OnlyLists w w'' where
  packages := second.packages.trans first.packages
  packageCount := second.packageCount.trans first.packageCount
  hpack := second.hpack.trans first.hpack
  internal p := (second.internal p).trans (first.internal p)
  external p := (second.external p).trans (first.external p)
  shadowings p := (second.shadowings p).trans (first.shadowings p)
  name p := (second.name p).trans (first.name p)
  nicknames p := (second.nicknames p).trans (first.nicknames p)

theorem modify (w : World) (p : PackageId) (uses usedby : Package → List PackageId) :
    OnlyLists w (w.modify p fun package =>
      { package with uses := uses package, usedby := usedby package }) := by
  refine ⟨rfl, rfl, rfl, ?_, ?_, ?_, ?_, ?_⟩
  all_goals
    intro q
    rw [pack_modify]
    split <;> rfl

theorem link (w : World) (x p : PackageId) : OnlyLists w (w.link x p) :=
  (modify w p (fun package => x :: package.uses) (·.usedby)).trans
    (modify _ x (·.uses) fun package => p :: package.usedby)

theorem unlink (w : World) (x p : PackageId) : OnlyLists w (w.unlink x p) :=
  (modify w p (fun package => removeEq x package.uses) (·.usedby)).trans
    (modify _ x (·.uses) fun package => removeEq p package.usedby)

theorem linkAll (w : World) (x : PackageId) (used : List PackageId) :
    OnlyLists w (w.linkAll x used) := by
  induction used generalizing w with
  | nil => exact refl w
  | cons first used ih => exact (link w first x).trans (ih (w.link first x))

end OnlyLists

theorem pack_fresh_of_ne (differ : p ≠ w.packageCount) (name : String)
    (nicknames : List String) : (w.fresh name nicknames).pack p = w.pack p :=
  if_neg differ

theorem pack_fresh_self (w : World) (name : String) (nicknames : List String) :
    (w.fresh name nicknames).pack w.packageCount =
      { Package.empty (some name) with nicknames := nicknames } :=
  if_pos rfl

theorem hpack_leave (p : PackageId) (table : SymbolTable) (w : World) :
    (table.foldl (·.symbolRemovePackage · p) w).pack = w.pack ∧
    (table.foldl (·.symbolRemovePackage · p) w).packages = w.packages ∧
    (table.foldl (·.symbolRemovePackage · p) w).packageCount = w.packageCount ∧
    ∀ s, (table.foldl (·.symbolRemovePackage · p) w).hpack s = w.hpack s ∨
      w.hpack s = some p ∧ (table.foldl (·.symbolRemovePackage · p) w).hpack s = none := by
  induction table generalizing w with
  | nil => exact ⟨rfl, rfl, rfl, fun _ => .inl rfl⟩
  | cons t table ih =>
    obtain ⟨pack, packages, count, homes⟩ := ih (w.symbolRemovePackage t p)
    simp only [foldl_cons]
    have first : (w.symbolRemovePackage t p).pack = w.pack ∧
        (w.symbolRemovePackage t p).packages = w.packages ∧
        (w.symbolRemovePackage t p).packageCount = w.packageCount := by
      unfold World.symbolRemovePackage
      split <;> exact ⟨rfl, rfl, rfl⟩
    refine ⟨pack.trans first.1, packages.trans first.2.1, count.trans first.2.2, ?_⟩
    intro s
    have here : (w.symbolRemovePackage t p).hpack s = w.hpack s ∨
        w.hpack s = some p ∧ (w.symbolRemovePackage t p).hpack s = none := by
      unfold World.symbolRemovePackage
      split
      · rename_i home
        by_cases same : s = t
        · subst same
          exact .inr ⟨home, if_pos rfl⟩
        · exact .inl (if_neg same)
      · exact .inl rfl
    rcases homes s with kept | ⟨home, lost⟩
    · rw [kept]
      exact here
    · rcases here with same | ⟨home', lost'⟩
      · exact .inr ⟨same ▸ home, lost⟩
      · rw [lost'] at home
        cases home

/-- What DELETE-PACKAGE leaves of a package, and of the rest. -/
structure Clears (w : World) (p : PackageId) (w' : World) : Prop where
  packages : w'.packages = removeEq p w.packages
  packageCount : w'.packageCount = w.packageCount
  self : w'.pack p =
    { w.pack p with internal := [], external := [], shadowings := [], name := none }
  others : ∀ q, q ≠ p → w'.pack q = w.pack q
  hpack : ∀ s, w'.hpack s = w.hpack s ∨ w.hpack s = some p ∧ w'.hpack s = none

theorem clear_clears (w : World) (p : PackageId) : Clears w p (w.clear p) := by
  obtain ⟨pack, packages, count, homes⟩ := hpack_leave p (w.pack p).internal w
  obtain ⟨pack', packages', count', homes'⟩ := hpack_leave p (w.pack p).external
    ((w.pack p).internal.foldl (·.symbolRemovePackage · p) w)
  have tables := pack'.trans pack
  refine ⟨?_, count'.trans count, ?_, ?_, ?_⟩
  · exact congrArg (removeEq p) (packages'.trans packages)
  · simp only [World.clear, pack_modify_self, tables]
  · intro q differ
    simp only [World.clear, pack_modify_of_ne _ _ differ, tables]
  · intro s
    rcases homes' s with kept | ⟨home, lost⟩
    · rcases homes s with kept' | ⟨home', lost'⟩
      · exact .inl (kept.trans kept')
      · exact .inr ⟨home', kept.trans lost'⟩
    · rcases homes s with kept' | ⟨home', lost'⟩
      · exact .inr ⟨kept' ▸ home, lost⟩
      · rw [lost'] at home
        cases home

namespace Allocated

variable {w : World} (allocated : Allocated w)

include allocated

theorem link {x p : PackageId} (hereX : x < w.packageCount) (hereP : p < w.packageCount) :
    Allocated (w.link x p) where
  keyword := allocated.keyword
  registered := allocated.registered
  uses q y member := by
    rcases (mem_uses_link w x p q y).mp member with ⟨rfl, rfl⟩ | old
    · exact ⟨hereP, hereX⟩
    · exact allocated.uses q y old
  usedby q y member := by
    rcases (mem_usedby_link w x p q y).mp member with ⟨rfl, rfl⟩ | old
    · exact ⟨hereX, hereP⟩
    · exact allocated.usedby q y old

theorem unlink (x p : PackageId) : Allocated (w.unlink x p) where
  keyword := allocated.keyword
  registered := allocated.registered
  uses q y member := allocated.uses q y ((mem_uses_unlink w x p q y).mp member).1
  usedby q y member := allocated.usedby q y ((mem_usedby_unlink w x p q y).mp member).1

theorem fresh (name : String) (nicknames : List String) : Allocated (w.fresh name nicknames) where
  keyword := lt_succ_of_lt allocated.keyword
  registered q member := lt_succ_of_lt (allocated.registered q member)
  uses q y member := by
    by_cases new : q = w.packageCount
    · rw [new, pack_fresh_self] at member
      cases member
    · rw [pack_fresh_of_ne new] at member
      exact (allocated.uses q y member).imp lt_succ_of_lt lt_succ_of_lt
  usedby q y member := by
    by_cases new : q = w.packageCount
    · rw [new, pack_fresh_self] at member
      cases member
    · rw [pack_fresh_of_ne new] at member
      exact (allocated.usedby q y member).imp lt_succ_of_lt lt_succ_of_lt

theorem linkAll {x : PackageId} {used : List PackageId} (here : x < w.packageCount)
    (all : ∀ y ∈ used, y < w.packageCount) : Allocated (w.linkAll x used) := by
  have only := OnlyLists.linkAll w x used
  refine ⟨?_, ?_, ?_, ?_⟩
  · rw [only.packageCount]
    exact allocated.keyword
  · rw [only.packages, only.packageCount]
    exact allocated.registered
  · intro q y member
    rw [only.packageCount]
    rcases (mem_uses_linkAll w x q used y).mp member with ⟨rfl, listed⟩ | old
    · exact ⟨here, all y listed⟩
    · exact allocated.uses q y old
  · intro q y member
    rw [only.packageCount]
    rcases (mem_usedby_linkAll w x q used y).mp member with ⟨rfl, listed⟩ | old
    · exact ⟨all q listed, here⟩
    · exact allocated.usedby q y old

theorem makes (name : String) (nicknames : List String) {used : List PackageId}
    (listed : ∀ y ∈ used, y < w.packageCount) :
    Allocated ((w.fresh name nicknames).linkAll w.packageCount used) :=
  (allocated.fresh name nicknames).linkAll (lt_succ_self _)
    fun y member => lt_succ_of_lt (listed y member)

theorem register {x : PackageId} (here : x < w.packageCount) : Allocated (w.register x) where
  keyword := allocated.keyword
  registered q member := by
    rcases mem_cons.mp member with rfl | old
    · exact here
    · exact allocated.registered q old
  uses := allocated.uses
  usedby := allocated.usedby

theorem rename (x : PackageId) (name : String) (nicknames : List String) :
    Allocated (w.rename x name nicknames) where
  keyword := allocated.keyword
  registered := allocated.registered
  uses q y member := by
    rw [World.rename, pack_modify] at member
    split at member
    · exact allocated.uses q y member
    · exact allocated.uses q y member
  usedby q y member := by
    rw [World.rename, pack_modify] at member
    split at member
    · exact allocated.usedby q y member
    · exact allocated.usedby q y member

theorem clear (p : PackageId) : Allocated (w.clear p) := by
  have clears := clear_clears w p
  refine ⟨?_, ?_, ?_, ?_⟩
  · rw [clears.packageCount]
    exact allocated.keyword
  · rw [clears.packages, clears.packageCount]
    intro q member
    exact allocated.registered q (mem_removeEq.mp member).1
  · intro q y member
    rw [clears.packageCount]
    by_cases same : q = p
    · subst same
      rw [clears.self] at member
      exact allocated.uses q y member
    · rw [clears.others q same] at member
      exact allocated.uses q y member
  · intro q y member
    rw [clears.packageCount]
    by_cases same : q = p
    · subst same
      rw [clears.self] at member
      exact allocated.usedby q y member
    · rw [clears.others q same] at member
      exact allocated.usedby q y member

theorem run {continues : Restart → Bool} {op : Op} (here : op.Exists w) (lock : Bool) :
    Allocated (op.run continues ⟨w, lock⟩).1.world := by
  by_cases symbols : op.onSymbols = true
  · exact allocated.quiet (run_quiet symbols w lock)
  · cases op with
    | makePackage name nicknames useList =>
      have all := allocated.coerceAll here
      apply makePackage_keeps allocated allocated.new allocated.fresh
      · intro _ name nicknames used outcome listed
        rw [listed] at all
        exact allocated.makes name nicknames all
      · intro _ name nicknames used _ _ listed
        rw [listed] at all
        apply (allocated.makes name nicknames all).register
        rw [(OnlyLists.linkAll _ _ _).packageCount]
        exact lt_succ_self _
    | renamePackage x name nicknames =>
      apply renamePackage_keeps allocated
      intro x' name nicks _ _ _ _
      exact allocated.rename x' name nicks
    | deletePackage p =>
      apply deletePackage_keeps allocated
      · intro w x p allocated
        exact allocated.unlink x p
      · intro w p allocated _ _ _ _
        exact allocated.clear p
    | usePackage x p =>
      apply usePackage_keeps allocated
      intro x' p' coercedX coercedP _ _ _ _ _
      exact allocated.link (allocated.coerces coercedX here.1) (allocated.coerces coercedP here.2)
    | unusePackage x p =>
      apply unusePackage_keeps allocated
      intro x' p' _ _
      exact allocated.unlink x' p'
    | _ => exact absurd rfl symbols

end Allocated

theorem initialState_allocated : Allocated initialState.world where
  keyword := by decide
  registered := by decide
  uses p q member := by
    match p with
    | 0 | 2 => cases member
    | 1 | 3 | 4 | 5 | 6 =>
      cases mem_singleton.mp member
      exact ⟨by decide, by decide⟩
    | _ + 7 => cases member
  usedby p q member := by
    match p with
    | 0 =>
      refine ⟨by decide, ?_⟩
      revert q
      decide
    | 1 | 2 | 3 | 4 | 5 | 6 => cases member
    | _ + 7 => cases member

end Ecl.Packages
