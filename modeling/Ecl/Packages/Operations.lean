import Ecl.Packages.State

/- The operations of package.d. The argument `continues` says for each kind of
continuable error whether the handler continues from it. -/
namespace Ecl.Packages

variable (continues : Restart → Bool)

def makeNicknames (x : PackageId) (st : State) (next : State → Result) : List Designator → Result
  | [] => next st
  | designator :: nicknames =>
    clString st designator fun nick =>
      match st.world.findPackage nick with
      | some _ =>
        giveupLock st fun st =>
          continuableError st (continues .alreadyExists) fun st => (st, .returned)
      | none =>
        makeNicknames x
          (st.modify x fun package => { package with nicknames := nick :: package.nicknames })
          next nicknames

def makeUses (x : PackageId) (st : State) (next : State → Result) : List Designator → Result
  | [] => next st
  | designator :: useList =>
    coerceToPackage st designator fun y =>
      let st := st.modify x fun package => { package with uses := y :: package.uses }
      let st := st.modify y fun package => { package with usedby := x :: package.usedby }
      makeUses x st next useList

/-- A package object is allocated; its number is the count of those before. -/
def State.allocate (st : State) (name : String) : State :=
  { st with world := { st.world.modify st.world.packageCount fun _ => Package.empty (some name) with
      packageCount := st.world.packageCount + 1 } }

def State.register (st : State) (x : PackageId) : State :=
  { st with world := { st.world with packages := x :: st.world.packages } }

def makePackage (name : Designator) (nicknames useList : DesignatorList) (st : State) : Result :=
  clString st name fun name =>
    if !nicknames.proper || !useList.proper then (st, .fatal)
    else
      getLock st fun st =>
        match st.world.findPackage name with
        | some _ =>
          giveupLock st fun st =>
            continuableError st (continues .alreadyExists) fun st => (st, .returned)
        | none =>
          let x := st.world.packageCount
          makeNicknames continues x (st.allocate name)
            (fun st =>
              makeUses x st
                (fun st => giveupLock (st.register x) fun st => (st, .returned))
                useList.elements)
            nicknames.elements

/-- The nicknames of a renamed package: those that already name it are left out. -/
def renameNicknames (x : PackageId) (st : State) (proper : Bool) : List Designator → Result
  | [] =>
    if proper then giveupLock st fun st => (st, .returned)
    else giveupLock st fun st => (st, .fatal)
  | .other :: _ => (st, .continuable)
  | .package q :: nicknames =>
    -- the package itself counts as its own name; another one is no string
    if q = x then renameNicknames x st proper nicknames else (st, .continuable)
  | .string nick :: nicknames =>
    if st.world.findPackage nick = some x then renameNicknames x st proper nicknames
    else
      renameNicknames x
        (st.modify x fun package => { package with nicknames := nick :: package.nicknames })
        proper nicknames

def renamePackage (x name : Designator) (nicknames : DesignatorList) (st : State) : Result :=
  clString st name fun name =>
    coerceToPackage st x fun x =>
      checkLocked st continues x fun st =>
        getLock st fun st =>
          let y := st.world.findPackage name
          if y ≠ none ∧ y ≠ some x then giveupLock st fun st => (st, .fatal)
          else
            let st := st.modify x fun package => { package with name := some name, nicknames := [] }
            renameNicknames x st nicknames.proper nicknames.elements

/-- An external symbol of `x` that would clash with one accessible in `p`. -/
def World.useConflict (w : World) (x p : PackageId) : Bool :=
  (w.pack x).external.any fun here =>
    let (there, flag) := w.findSymbolInner here.name p
    flag ≠ .nothing ∧ here ≠ there ∧ there ∉ (w.pack p).shadowings

def usePackage (x p : Designator) (st : State) : Result :=
  coerceToPackage st x fun x =>
    if x = keywordPackage then (st, .fatal)
    else
      coerceToPackage st p fun p =>
        checkLocked st continues p fun st =>
          if p = keywordPackage then (st, .fatal)
          else if p = x then (st, .returned)
          else if x ∈ (st.world.pack p).uses then (st, .returned)
          else
            getLock st fun st =>
              if st.world.useConflict x p then giveupLock st fun st => (st, .fatal)
              else
                let st := st.modify p fun package => { package with uses := x :: package.uses }
                let st := st.modify x fun package => { package with usedby := p :: package.usedby }
                giveupLock st fun st => (st, .returned)

/-- The function ecl_remove_eq. -/
def removeEq {α : Type} [DecidableEq α] (x : α) (l : List α) : List α := l.filter fun y => y ≠ x

/-- The two removals of ecl_unuse_package. -/
def State.unlink (st : State) (x p : PackageId) : State :=
  (st.modify p fun package => { package with uses := removeEq x package.uses }).modify x
    fun package => { package with usedby := removeEq p package.usedby }

/-- The function ecl_unuse_package on two packages. -/
def unuse (x p : PackageId) (st : State) (next : State → Result) : Result :=
  checkLocked st continues p fun st =>
    getLock st fun st => giveupLock (st.unlink x p) next

def unusePackage (x p : Designator) (st : State) : Result :=
  coerceToPackage st x fun x =>
    coerceToPackage st p fun p =>
      unuse continues x p st fun st => (st, .returned)

/-- The loop of DELETE-PACKAGE over the packages used by `p`. -/
def unuseUses (p : PackageId) (st : State) (next : State → Result) : List PackageId → Result
  | [] => next st
  | x :: list => unuse continues x p st fun st => unuseUses p st next list

/-- The loop of DELETE-PACKAGE over the packages that use `p`. -/
def unuseUsedby (p : PackageId) (st : State) (next : State → Result) : List PackageId → Result
  | [] => next st
  | user :: list => unuse continues p user st fun st => unuseUsedby p st next list

/-- The symbols of a deleted package lose it as their home, and it loses its symbols. -/
def World.clear (w : World) (p : PackageId) : World :=
  let leave (w : World) (table : SymbolTable) := table.foldl (·.symbolRemovePackage · p) w
  let w := leave (leave w (w.pack p).internal) (w.pack p).external
  let w := w.modify p fun package =>
    { package with internal := [], external := [], shadowings := [], name := none }
  { w with packages := removeEq p w.packages }

def deletePackage (p : Designator) (st : State) : Result :=
  match p with
  | .other => (st, .continuable)
  | .string name =>
    match st.world.findPackage name with
    | none => continuableError st (continues .ignoreMissing) fun st => (st, .returned)
    | some p => delete p st
  | .package p => delete p st
where
  delete (p : PackageId) (st : State) : Result :=
    checkLocked st continues p fun st =>
      if p = lispPackage ∨ p = keywordPackage then (st, .fatal)
      else if (st.world.pack p).name = none then (st, .returned)
      else
        unuseUses continues p st
          (fun st =>
            unuseUsedby continues p st
              (fun st =>
                getLock st fun st =>
                  giveupLock { st with world := st.world.clear p } fun st => (st, .returned))
              (st.world.pack p).usedby)
          (st.world.pack p).uses

/-- The function si_package_lock. -/
def packageLock (p : Designator) (locked : Bool) (st : State) : Result :=
  coerceToPackage st p fun p =>
    (st.modify p fun package => { package with locked := locked }, .returned)

/-- A new symbol is made. -/
def World.makeSymbol (w : World) (name : String) : World × Symbol :=
  ({ w with symbolCount := w.symbolCount + 1 }, ⟨name, w.symbolCount⟩)

/-- The package gets a new symbol of its own. -/
def World.internNew (w : World) (name : String) (p : PackageId) : World :=
  let (w, s) := w.makeSymbol name
  let w := w.setHome s (some p)
  if p = keywordPackage then
    w.modify p fun package => { package with external := sethash s package.external }
  else w.modify p fun package => { package with internal := sethash s package.internal }

/-- The error for a locked package comes back until the handler leaves it. -/
def intern (name : String) (p : Designator) (st : State) : Result :=
  coerceToPackage st p fun p =>
    if (st.world.findSymbolInner name p).2 ≠ .nothing then (st, .returned)
    else if (st.world.pack p).locked then (st, .continuable)
    else
      getLock st fun st =>
        giveupLock { st with world := st.world.internNew name p } fun st => (st, .returned)

/-- The table of `p` that holds `s` itself. -/
def World.holds (w : World) (s : Symbol) (p : PackageId) : World.Flag :=
  if gethash s.name (w.pack p).internal = some s then .internal
  else if gethash s.name (w.pack p).external = some s then .external
  else .nothing

/-- Two different symbols that the packages used would give for a name. -/
def World.inheritedConflict (w : World) (name : String) (p : PackageId) : Bool :=
  match (w.pack p).uses.filterMap fun q => gethash name (w.pack q).external with
  | [] => false
  | x :: others => others.any fun y => x ≠ y

/-- The symbol leaves the table that holds it. -/
def World.remove (w : World) (s : Symbol) (p : PackageId) : World :=
  let w := w.modify p fun package =>
    if w.holds s p = .internal then { package with internal := remhash s.name package.internal }
    else { package with external := remhash s.name package.external }
  w.symbolRemovePackage s p

def unintern (s : Symbol) (p : Designator) (st : State) : Result :=
  coerceToPackage st p fun p =>
    getLock st fun st =>
      if st.world.holds s p = .nothing then giveupLock st fun st => (st, .returned)
      else if (st.world.pack p).locked then
        -- signalled again until the handler leaves it
        giveupLock st fun st => (st, .continuable)
      else if s ∈ (st.world.pack p).shadowings then
        if st.world.inheritedConflict s.name p then giveupLock st fun st => (st, .fatal)
        else
          let w := st.world.remove s p
          let w := w.modify p fun package =>
            { package with shadowings := removeEq s package.shadowings }
          giveupLock { st with world := w } fun st => (st, .returned)
      else giveupLock { st with world := st.world.remove s p } fun st => (st, .returned)

/-- A package that uses `p` and has another symbol under the name, which is not shadowing. -/
def World.exportConflict (w : World) (s : Symbol) (p : PackageId) : Bool :=
  (w.pack p).usedby.any fun user =>
    let (x, flag) := w.findSymbolInner s.name user
    flag ≠ .nothing ∧ s ≠ x ∧ x ∉ (w.pack user).shadowings

/-- The symbol becomes external; it leaves the internal table if it was there. -/
def World.makeExternal (w : World) (s : Symbol) (p : PackageId) (flag : World.Flag) : World :=
  w.modify p fun package =>
    { package with
      internal := if flag = .internal then remhash s.name package.internal else package.internal
      external := sethash s package.external }

def export2 (s : Symbol) (p : Designator) (st : State) : Result :=
  coerceToPackage st p fun p =>
    checkLocked st continues p fun st =>
      getLock st fun st =>
        let (x, flag) := st.world.findSymbolInner s.name p
        let proceed (st : State) : Result :=
          if x ≠ s then giveupLock st fun st => (st, .fatal)
          else if flag = .external then giveupLock st fun st => (st, .returned)
          else if st.world.exportConflict s p then giveupLock st fun st => (st, .fatal)
          else
            giveupLock { st with world := st.world.makeExternal s p flag } fun st => (st, .returned)
        if flag = .nothing then
          giveupLock st fun st => continuableError st (continues .importFirst) proceed
        else proceed st

/-- The symbol passed is entered in the internal table, whichever was external. -/
def World.makeInternal (w : World) (s : Symbol) (p : PackageId) : World :=
  w.modify p fun package =>
    { package with
      external := remhash s.name package.external
      internal := sethash s package.internal }

def unexport2 (s : Symbol) (p : Designator) (st : State) : Result :=
  coerceToPackage st p fun p =>
    if p = keywordPackage then (st, .fatal)
    else
      checkLocked st continues p fun st =>
        getLock st fun st =>
          let flag := (st.world.findSymbolInner s.name p).2
          if flag = .nothing then giveupLock st fun st => (st, .fatal)
          else if flag ≠ .external then giveupLock st fun st => (st, .returned)
          else
            giveupLock { st with world := st.world.makeInternal s p } fun st => (st, .returned)

def World.enter (w : World) (s : Symbol) (p : PackageId) : World :=
  (w.modify p fun package => { package with internal := sethash s package.internal })

def import2 (s : Symbol) (p : Designator) (st : State) : Result :=
  coerceToPackage st p fun p =>
    checkLocked st continues p fun st =>
      getLock st fun st =>
        let (x, flag) := st.world.findSymbolInner s.name p
        let proceed (st : State) : Result :=
          if flag = .internal ∨ flag = .external then giveupLock st fun st => (st, .returned)
          else
            giveupLock { st with world := (st.world.enter s p).symbolAddPackage s p }
              fun st => (st, .returned)
        if flag ≠ .nothing ∧ x ≠ s then
          giveupLock st fun st => continuableError st (continues .ignoreConflict) proceed
        else proceed st

/-- The symbol `x` that was present makes room for another one. -/
def World.displace (w : World) (x : Symbol) (p : PackageId) (flag : World.Flag) : World :=
  let w := w.modify p fun package =>
    let package := { package with shadowings := removeEq x package.shadowings }
    if flag = .internal then { package with internal := remhash x.name package.internal }
    else { package with external := remhash x.name package.external }
  w.symbolRemovePackage x p

def World.shadowWith (w : World) (s : Symbol) (p : PackageId) : World :=
  w.modify p fun package => { package with shadowings := s :: package.shadowings }

def shadowingImport (s : Symbol) (p : Designator) (st : State) : Result :=
  coerceToPackage st p fun p =>
    checkLocked st continues p fun st =>
      getLock st fun st =>
        let (x, flag) := st.world.findSymbolInner s.name p
        if flag = .internal ∨ flag = .external then
          if x = s then
            if x ∈ (st.world.pack p).shadowings then giveupLock st fun st => (st, .returned)
            else giveupLock { st with world := st.world.shadowWith x p } fun st => (st, .returned)
          else
            let w := ((st.world.displace x p flag).shadowWith s p).enter s p
            giveupLock { st with world := w } fun st => (st, .returned)
        else
          let w := (st.world.shadowWith s p).enter s p
          giveupLock { st with world := w } fun st => (st, .returned)

def shadow (name : Designator) (p : Designator) (st : State) : Result :=
  clString st name fun name =>
    coerceToPackage st p fun p =>
      checkLocked st continues p fun st =>
        getLock st fun st =>
          let (x, flag) := st.world.findSymbolInner name p
          if flag = .internal ∨ flag = .external then
            giveupLock { st with world := st.world.shadowWith x p } fun st => (st, .returned)
          else
            let (w, x) := st.world.makeSymbol name
            let w := ((w.enter x p).setHome x (some p)).shadowWith x p
            giveupLock { st with world := w } fun st => (st, .returned)

end Ecl.Packages

/- Runs of package operations in which errors abort the operation. -/
namespace Ecl.Packages

/-- The calls of a program. SI:PACKAGE-LOCK locks packages and MAKE-SYMBOL makes the
symbols that are in no package. -/
inductive Op where
  | makePackage (name : Designator) (nicknames useList : DesignatorList)
  | renamePackage (x name : Designator) (nicknames : DesignatorList)
  | deletePackage (p : Designator)
  | usePackage (x p : Designator)
  | unusePackage (x p : Designator)
  | intern (name : String) (p : Designator)
  | unintern (s : Symbol) (p : Designator)
  | exports (s : Symbol) (p : Designator)
  | unexport (s : Symbol) (p : Designator)
  | imports (s : Symbol) (p : Designator)
  | shadowingImport (s : Symbol) (p : Designator)
  | shadow (name p : Designator)
  | packageLock (p : Designator) (locked : Bool)
  | makeSymbol (name : String)
  deriving DecidableEq

namespace Op

def run (continues : Restart → Bool) : Op → State → Result
  | .makePackage name nicknames useList => Packages.makePackage continues name nicknames useList
  | .renamePackage x name nicknames => Packages.renamePackage continues x name nicknames
  | .deletePackage p => Packages.deletePackage continues p
  | .usePackage x p => Packages.usePackage continues x p
  | .unusePackage x p => Packages.unusePackage continues x p
  | .intern name p => Packages.intern name p
  | .unintern s p => Packages.unintern s p
  | .exports s p => export2 continues s p
  | .unexport s p => unexport2 continues s p
  | .imports s p => import2 continues s p
  | .shadowingImport s p => Packages.shadowingImport continues s p
  | .shadow name p => Packages.shadow continues name p
  | .packageLock p locked => Packages.packageLock p locked
  | .makeSymbol name => fun st => ({ st with world := (st.world.makeSymbol name).1 }, .returned)

/-- The packages and symbols passed are objects that exist. -/
def Exists (w : World) : Op → Prop
  | .makePackage _ _ useList => ∀ q, .package q ∈ useList.elements → q < w.packageCount
  | .renamePackage x _ _ => ∀ q, x = .package q → q < w.packageCount
  | .deletePackage p => ∀ q, p = .package q → q < w.packageCount
  | .usePackage x p | .unusePackage x p =>
    (∀ q, x = .package q → q < w.packageCount) ∧ ∀ q, p = .package q → q < w.packageCount
  | .intern _ p | .shadow _ p | .packageLock p _ => ∀ q, p = .package q → q < w.packageCount
  | .unintern s p | .exports s p | .unexport s p | .imports s p | .shadowingImport s p =>
    s.serial < w.symbolCount ∧ ∀ q, p = .package q → q < w.packageCount
  | .makeSymbol _ => True

end Op

/-- Errors abort the operation. -/
def never (_ : Restart) : Bool := false

def emptyState : State where
  world :=
    { pack := fun _ => Package.empty none
      packages := []
      hpack := fun _ => none
      packageCount := 0
      symbolCount := 0 }
  lock := false

/-- The calls in main.d that make the first packages, with NIL and T. -/
def bootCalls : List Op :=
  let name (s : String) : Designator := .string s
  let list (l : List String) : DesignatorList := ⟨l.map .string, true⟩
  let nothing : DesignatorList := ⟨[], true⟩
  let lisp : DesignatorList := ⟨[.package lispPackage], true⟩
  [ .makePackage (name "COMMON-LISP") (list ["CL", "LISP"]) nothing,
    .makePackage (name "COMMON-LISP-USER") (list ["CL-USER", "USER"]) lisp,
    .makePackage (name "KEYWORD") nothing nothing,
    .makePackage (name "SI") (list ["SYSTEM", "SYS", "EXT"]) lisp,
    .makePackage (name "CLOS") nothing lisp,
    .makePackage (name "MP") (list ["MULTIPROCESSING"]) lisp,
    .makePackage (name "GRAY") nothing lisp,
    .makeSymbol "NIL",
    .makeSymbol "T",
    .imports nilSymbol (.package lispPackage),
    .exports nilSymbol (.package lispPackage),
    .imports ⟨"T", 1⟩ (.package lispPackage),
    .exports ⟨"T", 1⟩ (.package lispPackage) ]

def runAll (calls : List Op) (st : State) : State :=
  calls.foldl (fun st op => (op.run never st).1) st

/-- The packages that main.d makes. -/
def initialPackage : PackageId → Package
  | 0 => { Package.empty (some "COMMON-LISP") with
      nicknames := ["LISP", "CL"], usedby := [6, 5, 4, 3, 1],
      external := [⟨"T", 1⟩, nilSymbol] }
  | 1 => { Package.empty (some "COMMON-LISP-USER") with
      nicknames := ["USER", "CL-USER"], uses := [lispPackage] }
  | 2 => Package.empty (some "KEYWORD")
  | 3 => { Package.empty (some "SI") with
      nicknames := ["EXT", "SYS", "SYSTEM"], uses := [lispPackage] }
  | 4 => { Package.empty (some "CLOS") with uses := [lispPackage] }
  | 5 => { Package.empty (some "MP") with
      nicknames := ["MULTIPROCESSING"], uses := [lispPackage] }
  | 6 => { Package.empty (some "GRAY") with uses := [lispPackage] }
  | _ => Package.empty none

/-- The state in which Lisp code starts to run. -/
def initialState : State where
  world :=
    { pack := initialPackage
      packages := [6, 5, 4, 3, 2, 1, 0]
      hpack := fun s => if s = ⟨"T", 1⟩ ∨ s = nilSymbol then some lispPackage else none
      packageCount := 7
      symbolCount := 2 }
  lock := false

example :
    let booted := runAll bootCalls emptyState
    (List.range 8).map booted.world.pack = (List.range 8).map initialState.world.pack ∧
    booted.world.packages = initialState.world.packages ∧
    [nilSymbol, ⟨"T", 1⟩].map booted.world.hpack = [some lispPackage, some lispPackage] ∧
    booted.world.packageCount = 7 ∧ booted.world.symbolCount = 2 ∧ booted.lock = false := by
  decide +kernel

/-- The states that calls reach which all meet a condition. -/
inductive Reachable (allowed : Op → World → Prop) : State → Prop where
  | initial : Reachable allowed initialState
  | step (op : Op) (st : State) (reached : Reachable allowed st) (here : op.Exists st.world)
      (meets : allowed op st.world) : Reachable allowed (op.run never st).1

/-- Calls that follow each other, all of which meet the condition. -/
def Admits (allowed : Op → World → Prop) : List Op → State → Prop
  | [], _ => True
  | op :: calls, st =>
    op.Exists st.world ∧ allowed op st.world ∧ Admits allowed calls (op.run never st).1

theorem Reachable.runAll {allowed : Op → World → Prop} {calls : List Op} {st : State}
    (reached : Reachable allowed st) (admits : Admits allowed calls st) :
    Reachable allowed (Packages.runAll calls st) := by
  induction calls generalizing st with
  | nil => exact reached
  | cons op calls ih =>
    obtain ⟨here, meets, rest⟩ := admits
    exact ih (Reachable.step op st reached here meets) rest

end Ecl.Packages
