import Ecl.Packages.Atomic

/- No table of a package has two symbols of one name, or a symbol that was not made yet. -/
namespace Ecl.Packages

open List Nat

/-- Distinct names, and symbols among the first `n`. -/
structure FiledTable (n : Nat) (table : SymbolTable) : Prop where
  made : ∀ s ∈ table, s.serial < n
  distinct : table.Pairwise fun s t => s.name ≠ t.name

namespace FiledTable

variable {n : Nat} {table : SymbolTable}

theorem nil (n : Nat) : FiledTable n [] := ⟨fun _ member => absurd member not_mem_nil, .nil⟩

theorem mono (filed : FiledTable n table) {m : Nat} (le : n ≤ m) : FiledTable m table :=
  ⟨fun s member => lt_of_lt_of_le (filed.made s member) le, filed.distinct⟩

theorem remhash (filed : FiledTable n table) (name : String) :
    FiledTable n (remhash name table) where
  made s member := filed.made s (mem_of_mem_filter member)
  distinct := filed.distinct.filter _

theorem sethash (filed : FiledTable n table) {s : Symbol} (made : s.serial < n) :
    FiledTable n (sethash s table) where
  made t member := by
    rcases mem_cons.mp member with rfl | old
    · exact made
    · exact (filed.remhash s.name).made t old
  distinct := by
    refine pairwise_cons.mpr ⟨?_, (filed.remhash s.name).distinct⟩
    intro t member same
    exact of_decide_eq_true (mem_filter.mp member).2 same.symm

end FiledTable

/-- Both tables of a package. -/
def Package.Filed (n : Nat) (package : Package) : Prop :=
  FiledTable n package.internal ∧ FiledTable n package.external

/-- The tables of all packages. -/
def Filed (w : World) : Prop := ∀ p, (w.pack p).Filed w.symbolCount

namespace Filed

variable {w : World} (filed : Filed w)

include filed

theorem modify {p : PackageId} {change : Package → Package}
    (kept : (change (w.pack p)).Filed w.symbolCount) : Filed (w.modify p change) := by
  intro q
  rw [pack_modify]
  split
  · rename_i here
    rw [here]
    exact kept
  · exact filed q

theorem same {w' : World} (count : w.symbolCount ≤ w'.symbolCount)
    (tables : ∀ p, (w'.pack p).internal = (w.pack p).internal ∧
      (w'.pack p).external = (w.pack p).external) : Filed w' := by
  intro p
  obtain ⟨internal, external⟩ := tables p
  rw [Package.Filed, internal, external]
  exact ⟨(filed p).1.mono count, (filed p).2.mono count⟩

theorem setHome (s : Symbol) (home : Option PackageId) : Filed (w.setHome s home) := filed

theorem symbolRemovePackage (s : Symbol) (p : PackageId) : Filed (w.symbolRemovePackage s p) := by
  unfold World.symbolRemovePackage
  split
  · exact filed.setHome s none
  · exact filed

theorem symbolAddPackage (s : Symbol) (p : PackageId) : Filed (w.symbolAddPackage s p) := by
  unfold World.symbolAddPackage
  split
  · exact filed.setHome s (some p)
  · exact filed

theorem makeSymbol (name : String) : Filed (w.makeSymbol name).1 :=
  filed.same (le_succ _) fun _ => ⟨rfl, rfl⟩

theorem shadowWith (s : Symbol) (p : PackageId) : Filed (w.shadowWith s p) := filed.modify (filed p)

theorem enter {s : Symbol} (made : s.serial < w.symbolCount) (p : PackageId) :
    Filed (w.enter s p) :=
  filed.modify ⟨(filed p).1.sethash made, (filed p).2⟩

theorem remove (s : Symbol) (p : PackageId) : Filed (w.remove s p) := by
  apply symbolRemovePackage
  apply filed.modify
  split
  · exact ⟨(filed p).1.remhash s.name, (filed p).2⟩
  · exact ⟨(filed p).1, (filed p).2.remhash s.name⟩

theorem displace (x : Symbol) (p : PackageId) (flag : World.Flag) :
    Filed (w.displace x p flag) := by
  apply symbolRemovePackage
  apply filed.modify
  dsimp only
  split
  · exact ⟨(filed p).1.remhash x.name, (filed p).2⟩
  · exact ⟨(filed p).1, (filed p).2.remhash x.name⟩

theorem makeExternal {s : Symbol} (made : s.serial < w.symbolCount) (p : PackageId)
    (flag : World.Flag) : Filed (w.makeExternal s p flag) := by
  apply filed.modify
  refine ⟨?_, (filed p).2.sethash made⟩
  dsimp only
  split
  · exact (filed p).1.remhash s.name
  · exact (filed p).1

theorem makeInternal {s : Symbol} (made : s.serial < w.symbolCount) (p : PackageId) :
    Filed (w.makeInternal s p) :=
  filed.modify ⟨(filed p).1.sethash made, (filed p).2.remhash s.name⟩

theorem internNew (name : String) (p : PackageId) : Filed (w.internNew name p) := by
  have made : w.symbolCount < (w.makeSymbol name).1.symbolCount := lt_succ_self _
  have next := (filed.makeSymbol name).setHome (w.makeSymbol name).2 (some p)
  unfold World.internNew
  dsimp only
  split
  · exact next.modify ⟨(next p).1, (next p).2.sethash made⟩
  · exact next.modify ⟨(next p).1.sethash made, (next p).2⟩

theorem onlyLists {w' : World} (only : OnlyLists w w') (count : w'.symbolCount = w.symbolCount) :
    Filed w' :=
  filed.same (le_of_eq count.symm) fun p => ⟨only.internal p, only.external p⟩

theorem fresh (name : String) (nicknames : List String) : Filed (w.fresh name nicknames) := by
  intro p
  by_cases new : p = w.packageCount
  · rw [new, pack_fresh_self]
    exact ⟨.nil _, .nil _⟩
  · rw [pack_fresh_of_ne new]
    exact filed p

theorem clear (p : PackageId) : Filed (w.clear p) := by
  have count (table : SymbolTable) (w : World) :
      (table.foldl (·.symbolRemovePackage · p) w).symbolCount = w.symbolCount := by
    induction table generalizing w with
    | nil => rfl
    | cons s table ih =>
      rw [foldl_cons, ih]
      unfold World.symbolRemovePackage
      split <;> rfl
  have symbols : (w.clear p).symbolCount = w.symbolCount := by
    have both := (count (w.pack p).external _).trans (count (w.pack p).internal w)
    exact both
  have clears := clear_clears w p
  intro q
  rw [symbols]
  by_cases here : q = p
  · rw [here, clears.self]
    exact ⟨.nil _, .nil _⟩
  · rw [clears.others q here]
    exact filed q

end Filed

theorem symbolCount_linkAll (w : World) (x : PackageId) (used : List PackageId) :
    (w.linkAll x used).symbolCount = w.symbolCount := by
  induction used generalizing w with
  | nil => rfl
  | cons y used ih => exact ih _

theorem Filed.run {w : World} (filed : Filed w) (allocated : Allocated w)
    {continues : Restart → Bool} {op : Op} (here : op.Exists w) (lock : Bool) :
    Filed (op.run continues ⟨w, lock⟩).1.world := by
  cases op with
  | makePackage name nicknames useList =>
    have linked (name : String) (nicknames : List String) (used : List PackageId) :
        Filed ((w.fresh name nicknames).linkAll w.packageCount used) :=
      (filed.fresh name nicknames).onlyLists (OnlyLists.linkAll _ _ _)
        (symbolCount_linkAll _ _ _)
    apply makePackage_keeps filed allocated.new filed.fresh
    · exact fun _ name nicknames used _ _ => linked name nicknames used
    · exact fun _ name nicknames used _ _ _ => linked name nicknames used
  | renamePackage x name nicknames =>
    apply renamePackage_keeps filed
    intro x' n nicks _ _ _ _
    exact filed.modify (filed x')
  | deletePackage p =>
    apply deletePackage_keeps filed
    · intro w x p filed
      exact filed.onlyLists (OnlyLists.unlink w x p) rfl
    · intro w p filed _ _ _ _
      exact filed.clear p
  | usePackage x p =>
    apply usePackage_keeps filed
    intro x' p' _ _ _ _ _ _ _
    exact filed.onlyLists (OnlyLists.link w x' p') rfl
  | unusePackage x p =>
    apply unusePackage_keeps filed
    intro x' p' _ _
    exact filed.onlyLists (OnlyLists.unlink w x' p') rfl
  | intern name p =>
    apply intern_keeps filed
    intro p' _ _
    exact filed.internNew name p'
  | unintern s p =>
    apply unintern_keeps filed
    · intro p' _ _ _
      exact filed.remove s p'
    · intro p' _ _ _ _
      exact (filed.remove s p').modify (filed.remove s p' p')
  | exports s p =>
    apply export_keeps filed
    intro p' flag _ _ _ _ _
    exact filed.makeExternal here.1 p' flag
  | unexport s p =>
    apply unexport_keeps filed
    intro p' x _ _ _
    exact filed.makeInternal here.1 p'
  | imports s p =>
    apply import_keeps filed
    intro p' x flag _ _ _
    exact (filed.enter here.1 p').symbolAddPackage s p'
  | shadowingImport s p =>
    apply shadowingImport_keeps filed
    · intro p' flag _ _ _
      exact filed.shadowWith s p'
    · intro p' x flag _ _ _ _
      have after := (filed.displace x p' flag).shadowWith s p'
      refine after.enter ?_ p'
      have count : ((w.displace x p' flag).shadowWith s p').symbolCount = w.symbolCount := by
        simp only [World.displace, World.shadowWith, World.modify, World.symbolRemovePackage]
        split <;> rfl
      rw [count]
      exact here.1
    · intro p' x flag _ _ _
      exact (filed.shadowWith s p').enter here.1 p'
  | shadow name p =>
    apply shadow_keeps filed
    · intro n p' x flag _ _ _ _
      exact filed.shadowWith x p'
    · intro n p' x flag _ _ _ _
      exact (((filed.makeSymbol n).enter (lt_succ_self _) p').setHome _ _).shadowWith _ p'
  | packageLock p locked =>
    apply packageLock_keeps filed
    intro p'
    exact filed.modify (filed p')
  | makeSymbol name => exact filed.makeSymbol name

theorem initialState_filed : Filed initialState.world := by
  intro p
  match p with
  | 0 => exact ⟨.nil _, ⟨by decide, by decide⟩⟩
  | 1 | 2 | 3 | 4 | 5 | 6 => exact ⟨.nil _, .nil _⟩
  | _ + 7 => exact ⟨.nil _, .nil _⟩

theorem Reached.filed {st : State} (reached : Reached st) : Filed st.world := by
  induction reached with
  | initial => exact initialState_filed
  | step op continues st before here ih => exact ih.run before.allocated here st.lock

end Ecl.Packages
