import Ecl.Packages.Tables

/- What the operations on symbols do to the tables: the entries of one package change under
one name. -/
namespace Ecl.Packages

open List

/-- The tables of a package, under one name. -/
structure Entries (w : World) (name : String) (p : PackageId) (i e : Option Symbol)
    (shadows : Symbol → Prop) : Prop where
  internal : gethash name (w.pack p).internal = i
  external : gethash name (w.pack p).external = e
  shadowings : ∀ c : Symbol, c.name = name → (c ∈ (w.pack p).shadowings ↔ shadows c)

/-- The entries of one package under one name change, and nothing else. -/
structure Changes (w w' : World) (name : String) (p : PackageId) : Prop where
  quiet : Quiet w w'
  tables : ∀ m, m ≠ name →
    gethash m (w'.pack p).internal = gethash m (w.pack p).internal ∧
    gethash m (w'.pack p).external = gethash m (w.pack p).external
  shadowings : ∀ c : Symbol, c.name ≠ name →
    (c ∈ (w'.pack p).shadowings ↔ c ∈ (w.pack p).shadowings)
  others : ∀ q, q ≠ p → w'.pack q = w.pack q

/-- An operation leaves these entries under the name, and the rest alone. -/
structure Effect (w w' : World) (name : String) (p : PackageId) (i e : Option Symbol)
    (shadows : Symbol → Prop) : Prop where
  changes : Changes w w' name p
  entries : Entries w' name p i e shadows

theorem pack_modify_modify (w : World) (p : PackageId) (first second : Package → Package) :
    ((w.modify p first).modify p second).pack =
    (w.modify p fun package => second (first package)).pack := by
  funext q
  simp only [pack_modify]
  split <;> rfl

theorem pack_symbolRemovePackage (w : World) (s : Symbol) (p : PackageId) :
    (w.symbolRemovePackage s p).pack = w.pack := by
  unfold World.symbolRemovePackage
  split <;> rfl

theorem pack_symbolAddPackage (w : World) (s : Symbol) (p : PackageId) :
    (w.symbolAddPackage s p).pack = w.pack := by
  unfold World.symbolAddPackage
  split <;> rfl

/-- The rest of a package when one name changes. -/
structure KeepsOthers (name : String) (package package' : Package) : Prop where
  internal : ∀ m, m ≠ name → gethash m package'.internal = gethash m package.internal
  external : ∀ m, m ≠ name → gethash m package'.external = gethash m package.external
  shadowings : ∀ c : Symbol, c.name ≠ name → (c ∈ package'.shadowings ↔ c ∈ package.shadowings)

variable {w w' : World} {name : String} {p : PackageId}

theorem changes_of_modify
    {change : Package → Package} (quiet : Quiet w w') (pack : w'.pack = (w.modify p change).pack)
    (keeps : KeepsOthers name (w.pack p) (change (w.pack p))) : Changes w w' name p where
  quiet := quiet
  tables m differ := by
    rw [pack, pack_modify_self]
    exact ⟨keeps.internal m differ, keeps.external m differ⟩
  shadowings c differ := by
    rw [pack, pack_modify_self]
    exact keeps.shadowings c differ
  others q differ := by rw [pack, pack_modify_of_ne w _ differ]

variable {s : Symbol}

theorem gethash_sethash_of_ne (differ : name ≠ s.name)
    (table : SymbolTable) : gethash name (sethash s table) = gethash name table := by
  rw [gethash_sethash, if_neg differ]

theorem gethash_remhash_of_ne {other : String} (differ : name ≠ other)
    (table : SymbolTable) : gethash name (remhash other table) = gethash name table := by
  rw [gethash_remhash, if_neg differ]

theorem gethash_sethash_self (s : Symbol) (table : SymbolTable) :
    gethash s.name (sethash s table) = some s := by
  rw [gethash_sethash, if_pos rfl]

theorem gethash_remhash_self (name : String) (table : SymbolTable) :
    gethash name (remhash name table) = none := by
  rw [gethash_remhash, if_pos rfl]

theorem keepsOthers_enter (s : Symbol) (package : Package) :
    KeepsOthers s.name package { package with internal := sethash s package.internal } where
  internal _ differ := gethash_sethash_of_ne differ _
  external _ _ := rfl
  shadowings _ _ := Iff.rfl

/-- The change of the tables in UNINTERN. -/
def leaveTable (s : Symbol) (flag : World.Flag) (package : Package) : Package :=
  if flag = .internal then { package with internal := remhash s.name package.internal }
  else { package with external := remhash s.name package.external }

theorem pack_remove (w : World) (s : Symbol) (p : PackageId) :
    (w.remove s p).pack = (w.modify p (leaveTable s (w.holds s p))).pack := by
  rw [World.remove, pack_symbolRemovePackage]
  rfl

theorem keepsOthers_leaveTable (s : Symbol) (flag : World.Flag) (package : Package) :
    KeepsOthers s.name package (leaveTable s flag package) := by
  unfold leaveTable
  split
  · exact ⟨fun _ differ => gethash_remhash_of_ne differ _, fun _ _ => rfl, fun _ _ => Iff.rfl⟩
  · exact ⟨fun _ _ => rfl, fun _ differ => gethash_remhash_of_ne differ _, fun _ _ => Iff.rfl⟩

theorem internal_leaveTable (s : Symbol) (flag : World.Flag) (package : Package) :
    gethash s.name (leaveTable s flag package).internal =
      if flag = .internal then none else gethash s.name package.internal := by
  unfold leaveTable
  split
  · exact gethash_remhash_self _ _
  · rfl

theorem external_leaveTable (s : Symbol) (flag : World.Flag) (package : Package) :
    gethash s.name (leaveTable s flag package).external =
      if flag = .internal then gethash s.name package.external else none := by
  unfold leaveTable
  split
  · rfl
  · exact gethash_remhash_self _ _

theorem shadowings_leaveTable (s : Symbol) (flag : World.Flag) (package : Package) :
    (leaveTable s flag package).shadowings = package.shadowings := by
  unfold leaveTable
  split <;> rfl

theorem keepsOthers_shadowing {package package' : Package}
    (keeps : KeepsOthers s.name package package') :
    KeepsOthers s.name package
      { package' with
        shadowings := s :: package'.shadowings
        internal := sethash s package'.internal } where
  internal m differ := (gethash_sethash_of_ne differ _).trans (keeps.internal m differ)
  external m differ := keeps.external m differ
  shadowings c differ := by
    rw [mem_cons, keeps.shadowings c differ]
    exact or_iff_right fun same => differ (congrArg Symbol.name same)

theorem pack_displace (w : World) (x : Symbol) (p : PackageId) (flag : World.Flag) :
    (w.displace x p flag).pack = (w.modify p fun package =>
      leaveTable x flag { package with shadowings := removeEq x package.shadowings }).pack := by
  rw [World.displace, pack_symbolRemovePackage]
  rfl

theorem effect_enter (quiet : Quiet w w') (pack : w'.pack = (w.enter s p).pack) :
    Effect w w' s.name p (some s) (gethash s.name (w.pack p).external)
      (· ∈ (w.pack p).shadowings) := by
  refine ⟨changes_of_modify quiet pack (keepsOthers_enter s _), ?_, ?_, ?_⟩
  · rw [pack, World.enter, pack_modify_self]
    exact gethash_sethash_self s _
  · rw [pack, World.enter, pack_modify_self]
  · intro c _
    rw [pack, World.enter, pack_modify_self]

theorem effect_intern_keyword (w : World) (name : String) :
    Effect w (w.internNew name keywordPackage) name keywordPackage
      (gethash name (w.pack keywordPackage).internal) (some ⟨name, w.symbolCount⟩)
      (· ∈ (w.pack keywordPackage).shadowings) := by
  let s : Symbol := ⟨name, w.symbolCount⟩
  have pack : (w.internNew name keywordPackage).pack = (w.modify keywordPackage fun package =>
      { package with external := sethash s package.external }).pack := rfl
  refine ⟨changes_of_modify (Quiet.internNew w name keywordPackage) pack
    ⟨fun _ _ => rfl, fun _ differ => ?_, fun _ _ => Iff.rfl⟩, rfl, gethash_sethash_self s _,
    fun _ _ => Iff.rfl⟩
  exact gethash_sethash_of_ne (s := s) differ _

variable {x : Symbol}

theorem effect_export {flag : World.Flag}
    (found : w.findSymbolInner s.name p = (x, flag)) (notExternal : flag ≠ .external)
    (other : p ≠ keywordPackage) :
    Effect w (w.makeExternal s p flag) s.name p none (some s) (· ∈ (w.pack p).shadowings) := by
  have quiet : Quiet w (w.makeExternal s p flag) :=
    Quiet.modify _ _ (fun _ => rfl) (fun _ => rfl) (fun _ => rfl) (fun _ => rfl)
  have keeps : KeepsOthers s.name (w.pack p)
      { w.pack p with
        internal := if flag = .internal then remhash s.name (w.pack p).internal
          else (w.pack p).internal
        external := sethash s (w.pack p).external } := by
    refine ⟨?_, fun _ differ => gethash_sethash_of_ne differ _, fun _ _ => Iff.rfl⟩
    intro m differ
    dsimp only
    split
    · exact gethash_remhash_of_ne differ _
    · rfl
  refine ⟨changes_of_modify quiet rfl keeps, ?_, ?_, ?_⟩
  · rw [World.makeExternal, pack_modify_self]
    dsimp only
    split
    · exact gethash_remhash_self _ _
    · rename_i inherited
      rw [(findSymbolInner_finds found).internal notExternal other, if_neg inherited]
  · rw [World.makeExternal, pack_modify_self]
    exact gethash_sethash_self s _
  · intro c _
    rw [World.makeExternal, pack_modify_self]

theorem effect_unexport (w : World) (s : Symbol) (p : PackageId) :
    Effect w (w.makeInternal s p) s.name p (some s) none (· ∈ (w.pack p).shadowings) := by
  have quiet : Quiet w (w.makeInternal s p) :=
    Quiet.modify _ _ (fun _ => rfl) (fun _ => rfl) (fun _ => rfl) (fun _ => rfl)
  refine ⟨changes_of_modify quiet rfl ⟨fun _ differ => gethash_sethash_of_ne differ _,
    fun _ differ => gethash_remhash_of_ne differ _, fun _ _ => Iff.rfl⟩, ?_, ?_, ?_⟩
  · rw [World.makeInternal, pack_modify_self]
    exact gethash_sethash_self s _
  · rw [World.makeInternal, pack_modify_self]
    exact gethash_remhash_self _ _
  · intro c _
    rw [World.makeInternal, pack_modify_self]

theorem effect_unintern (w : World) (s : Symbol) (p : PackageId) :
    Effect w (w.remove s p) s.name p
      (if w.holds s p = .internal then none else gethash s.name (w.pack p).internal)
      (if w.holds s p = .internal then gethash s.name (w.pack p).external else none)
      (· ∈ (w.pack p).shadowings) := by
  have pack := pack_remove w s p
  refine ⟨changes_of_modify (Quiet.remove w s p) pack (keepsOthers_leaveTable s _ _), ?_, ?_, ?_⟩
  · rw [pack, pack_modify_self, internal_leaveTable]
  · rw [pack, pack_modify_self, external_leaveTable]
  · intro c _
    rw [pack, pack_modify_self, shadowings_leaveTable]

theorem effect_unintern_shadowing (w : World) (s : Symbol) (p : PackageId) :
    Effect w ((w.remove s p).modify p fun package =>
        { package with shadowings := removeEq s package.shadowings }) s.name p
      (if w.holds s p = .internal then none else gethash s.name (w.pack p).internal)
      (if w.holds s p = .internal then gethash s.name (w.pack p).external else none)
      (fun c => c ∈ (w.pack p).shadowings ∧ c ≠ s) := by
  have pack : ((w.remove s p).modify p fun package =>
      { package with shadowings := removeEq s package.shadowings }).pack =
      (w.modify p fun package =>
        { leaveTable s (w.holds s p) package with
          shadowings := removeEq s (leaveTable s (w.holds s p) package).shadowings }).pack := by
    funext q
    rw [pack_modify, pack_remove, pack_modify, pack_modify]
    split <;> rfl
  have quiet : Quiet w ((w.remove s p).modify p fun package =>
      { package with shadowings := removeEq s package.shadowings }) :=
    (Quiet.remove w s p).trans
      (Quiet.modify _ _ (fun _ => rfl) (fun _ => rfl) (fun _ => rfl) (fun _ => rfl))
  have left (c : Symbol) : c ∈ removeEq s (leaveTable s (w.holds s p) (w.pack p)).shadowings ↔
      c ∈ (w.pack p).shadowings ∧ c ≠ s := by
    rw [shadowings_leaveTable, mem_removeEq]
  have keeps := keepsOthers_leaveTable s (w.holds s p) (w.pack p)
  refine ⟨changes_of_modify quiet pack ⟨keeps.internal, keeps.external, ?_⟩, ?_, ?_, ?_⟩
  · intro c differ
    rw [left c]
    exact and_iff_left fun same => differ (congrArg Symbol.name same)
  · rw [pack, pack_modify_self, internal_leaveTable]
  · rw [pack, pack_modify_self, external_leaveTable]
  · intro c _
    rw [pack, pack_modify_self]
    exact left c

theorem effect_shadowWith (w : World) (named : x.name = name) (p : PackageId) :
    Effect w (w.shadowWith x p) name p (gethash name (w.pack p).internal)
      (gethash name (w.pack p).external) (fun c => c = x ∨ c ∈ (w.pack p).shadowings) := by
  have keeps : KeepsOthers name (w.pack p)
      { w.pack p with shadowings := x :: (w.pack p).shadowings } := by
    refine ⟨fun _ _ => rfl, fun _ _ => rfl, ?_⟩
    intro c differ
    rw [mem_cons]
    exact or_iff_right fun same => differ (same ▸ named)
  refine ⟨changes_of_modify (Quiet.shadowWith w x p) rfl keeps, ?_, ?_, ?_⟩
  · rw [World.shadowWith, pack_modify_self]
  · rw [World.shadowWith, pack_modify_self]
  · intro c _
    rw [World.shadowWith, pack_modify_self]
    exact mem_cons

theorem effect_enter_shadowing (quiet : Quiet w w')
    (pack : w'.pack = ((w.shadowWith s p).enter s p).pack) :
    Effect w w' s.name p (some s) (gethash s.name (w.pack p).external)
      (fun c => c = s ∨ c ∈ (w.pack p).shadowings) := by
  rw [World.enter, World.shadowWith, pack_modify_modify] at pack
  refine ⟨changes_of_modify quiet pack (keepsOthers_shadowing ⟨fun _ _ => rfl, fun _ _ => rfl,
    fun _ _ => Iff.rfl⟩), ?_, ?_, ?_⟩
  · rw [pack, pack_modify_self]
    exact gethash_sethash_self s _
  · rw [pack, pack_modify_self]
  · intro c _
    rw [pack, pack_modify_self]
    exact mem_cons

theorem effect_displace (w : World) (named : x.name = s.name) (p : PackageId) (flag : World.Flag) :
    Effect w (((w.displace x p flag).shadowWith s p).enter s p) s.name p (some s)
      (if flag = .internal then gethash s.name (w.pack p).external else none)
      (fun c => c = s ∨ c ∈ (w.pack p).shadowings ∧ c ≠ x) := by
  let left (package : Package) : Package :=
    leaveTable x flag { package with shadowings := removeEq x package.shadowings }
  have pack : (((w.displace x p flag).shadowWith s p).enter s p).pack =
      (w.modify p fun package =>
        { left package with
          shadowings := s :: (left package).shadowings
          internal := sethash s (left package).internal }).pack := by
    rw [World.enter, World.shadowWith, pack_modify_modify]
    funext q
    rw [pack_modify, pack_displace, pack_modify, pack_modify]
    split <;> rfl
  have quiet : Quiet w (((w.displace x p flag).shadowWith s p).enter s p) :=
    ((Quiet.displace w x p flag).trans (Quiet.shadowWith _ s p)).trans (Quiet.enter _ s p)
  have shadowings (c : Symbol) : c ∈ (left (w.pack p)).shadowings ↔
      c ∈ (w.pack p).shadowings ∧ c ≠ x := by
    rw [shadowings_leaveTable, mem_removeEq]
  have keeps : KeepsOthers s.name (w.pack p) (left (w.pack p)) := by
    have table := keepsOthers_leaveTable x flag
      { w.pack p with shadowings := removeEq x (w.pack p).shadowings }
    rw [named] at table
    refine ⟨table.internal, table.external, ?_⟩
    intro c other
    rw [shadowings c]
    exact and_iff_left fun same => other (same ▸ named)
  refine ⟨changes_of_modify quiet pack (keepsOthers_shadowing keeps), ?_, ?_, ?_⟩
  · rw [pack, pack_modify_self]
    exact gethash_sethash_self s _
  · rw [pack, pack_modify_self]
    show gethash s.name (left (w.pack p)).external = _
    rw [← named, external_leaveTable]
  · intro c _
    rw [pack, pack_modify_self]
    show c ∈ s :: (left (w.pack p)).shadowings ↔ _
    rw [mem_cons, shadowings c]

/- Name conflicts: two symbols of one name that are accessible in a package. -/

/-- A symbol that the packages used give for a name. -/
def Inherits (w : World) (name : String) (p : PackageId) (s : Symbol) : Prop :=
  ∃ q ∈ (w.pack p).uses, gethash name (w.pack q).external = some s

/-- If two symbols of a name are accessible, one of the symbols accessible under it is
present and shadowing. -/
def ConflictFree (w : World) (p : PackageId) : Prop :=
  ∀ a b : Symbol, a.name = b.name → w.Accessible p a → w.Accessible p b → a ≠ b →
    ∃ c : Symbol, c.name = a.name ∧ w.Present p c ∧ c ∈ (w.pack p).shadowings

/-- What a package gives for a name is free of conflicts. -/
def Harmless (i e : Option Symbol) (shadows inherited : Symbol → Prop) : Prop :=
  ∀ a b : Symbol, (i = some a ∨ e = some a ∨ inherited a) →
    (i = some b ∨ e = some b ∨ inherited b) → a ≠ b →
    ∃ c : Symbol, shadows c ∧ (i = some c ∨ e = some c)

/-- What is kept for a package and a name. The keyword package may hold a name in both
tables. -/
structure Clean (w : World) (name : String) (p : PackageId) : Prop where
  disjoint : p ≠ keywordPackage → gethash name (w.pack p).internal = none ∨
    gethash name (w.pack p).external = none
  shadowing : p ≠ keywordPackage → ∀ c ∈ (w.pack p).shadowings, c.name = name →
    gethash name (w.pack p).internal = some c ∨ gethash name (w.pack p).external = some c
  conflictFree : p ∈ w.packages → Harmless (gethash name (w.pack p).internal)
    (gethash name (w.pack p).external) (· ∈ (w.pack p).shadowings) (Inherits w name p)

/-- The package system without conflicts, and the links that the operations rely on. -/
structure Sound (w : World) : Prop where
  allocated : Allocated w
  linked : ∀ p q, q ∈ (w.pack p).uses → p ∈ (w.pack q).usedby
  irreflexive : ∀ p, p ∉ (w.pack p).uses
  keyword : (w.pack keywordPackage).uses = []
  clean : ∀ name p, Clean w name p

variable {w : World} {p : PackageId}

theorem conflictFree_of_clean (clean : ∀ name, Clean w name p)
    (here : p ∈ w.packages) : ConflictFree w p := by
  intro a b same accessA accessB differ
  have harmless := (clean a.name).conflictFree here
  have reads (s : Symbol) (named : s.name = a.name) (access : w.Accessible p s) :
      gethash a.name (w.pack p).internal = some s ∨
        gethash a.name (w.pack p).external = some s ∨ Inherits w a.name p s := by
    rw [← named]
    rcases access with (internal | external) | inherited
    · exact .inl internal
    · exact .inr (.inl external)
    · exact .inr (.inr inherited)
  obtain ⟨c, shadows, present⟩ :=
    harmless a b (reads a rfl accessA) (reads b same.symm accessB) differ
  have named : c.name = a.name := by
    rcases present with internal | external
    · exact gethash_name internal
    · exact gethash_name external
  refine ⟨c, named, ?_, shadows⟩
  rw [World.Present, named]
  exact present

theorem Harmless.mono {i e : Option Symbol} {shadows shadows' inherited inherited' : Symbol → Prop}
    (harmless : Harmless i e shadows inherited) (fewer : ∀ a, inherited' a → inherited a)
    (more : ∀ c, shadows c → (i = some c ∨ e = some c) → shadows' c) :
    Harmless i e shadows' inherited' := by
  intro a b accessA accessB differ
  obtain ⟨c, isShadowing, present⟩ := harmless a b
    (accessA.imp id (Or.imp id (fewer a))) (accessB.imp id (Or.imp id (fewer b))) differ
  exact ⟨c, more c isShadowing present, present⟩

variable {w' : World} {name : String}

theorem Changes.otherName (sound : Sound w)
    (changes : Changes w w' name p) {m : String} (differ : m ≠ name) (q : PackageId) :
    Clean w' m q := by
  have clean := sound.clean m q
  have tables (r : PackageId) :
      gethash m (w'.pack r).internal = gethash m (w.pack r).internal ∧
      gethash m (w'.pack r).external = gethash m (w.pack r).external := by
    by_cases same : r = p
    · rw [same]
      exact changes.tables m differ
    · rw [changes.others r same]
      exact ⟨rfl, rfl⟩
  have shadowings (c : Symbol) (named : c.name = m) :
      c ∈ (w'.pack q).shadowings ↔ c ∈ (w.pack q).shadowings := by
    by_cases same : q = p
    · rw [same]
      exact changes.shadowings c (named ▸ differ)
    · rw [changes.others q same]
  refine ⟨?_, ?_, ?_⟩
  · rw [(tables q).1, (tables q).2]
    exact clean.disjoint
  · rw [(tables q).1, (tables q).2]
    intro other c member named
    exact clean.shadowing other c ((shadowings c named).mp member) named
  · rw [(tables q).1, (tables q).2, changes.quiet.packages]
    intro here
    apply (clean.conflictFree here).mono
    · rintro a ⟨r, member, found⟩
      rw [changes.quiet.uses] at member
      rw [(tables r).2] at found
      exact ⟨r, member, found⟩
    · intro c member present
      have named : c.name = m := by
        rcases present with internal | external
        · exact gethash_name internal
        · exact gethash_name external
      exact (shadowings c named).mpr member

/-- A new external symbol does no harm to a package that uses this one: it was external
before, or all that is accessible there is this symbol, or a symbol shadows the name. -/
def HarmlessTo (w : World) (name : String) (p u : PackageId) (a : Symbol) : Prop :=
  gethash name (w.pack p).external = some a ∨
  (∀ b, gethash name (w.pack u).internal = some b ∨ gethash name (w.pack u).external = some b ∨
    Inherits w name u b → b = a) ∨
  ∃ c ∈ (w.pack u).shadowings, gethash name (w.pack u).internal = some c ∨
    gethash name (w.pack u).external = some c

theorem Changes.otherPackage (sound : Sound w) (changes : Changes w w' name p)
    (users : ∀ u ∈ w.packages, u ≠ p → p ∈ (w.pack u).uses → ∀ a,
      gethash name (w'.pack p).external = some a → HarmlessTo w name p u a)
    {q : PackageId} (differ : q ≠ p) : Clean w' name q := by
  have clean := sound.clean name q
  refine ⟨?_, ?_, ?_⟩
  · rw [changes.others q differ]
    exact clean.disjoint
  · rw [changes.others q differ]
    exact clean.shadowing
  · rw [changes.others q differ, changes.quiet.packages]
    intro here
    -- what is accessible now was accessible, or is the external symbol of `p`
    have access {a : Symbol} (now : gethash name (w.pack q).internal = some a ∨
        gethash name (w.pack q).external = some a ∨ Inherits w' name q a) :
        (gethash name (w.pack q).internal = some a ∨
          gethash name (w.pack q).external = some a ∨ Inherits w name q a) ∨
        p ∈ (w.pack q).uses ∧ gethash name (w'.pack p).external = some a := by
      rcases now with internal | external | ⟨r, member, found⟩
      · exact .inl (.inl internal)
      · exact .inl (.inr (.inl external))
      · rw [changes.quiet.uses] at member
        by_cases same : r = p
        · subst same
          exact .inr ⟨member, found⟩
        · rw [changes.others r same] at found
          exact .inl (.inr (.inr ⟨r, member, found⟩))
    intro a b accessA accessB distinct
    have conclude {a b : Symbol} (distinct : a ≠ b) (uses : p ∈ (w.pack q).uses)
        (new : gethash name (w'.pack p).external = some a)
        (accessB : (gethash name (w.pack q).internal = some b ∨
          gethash name (w.pack q).external = some b ∨ Inherits w name q b) ∨
          p ∈ (w.pack q).uses ∧ gethash name (w'.pack p).external = some b) :
        ∃ c : Symbol, c ∈ (w.pack q).shadowings ∧
          (gethash name (w.pack q).internal = some c ∨
            gethash name (w.pack q).external = some c) := by
      rcases accessB with old | ⟨_, newB⟩
      · rcases users q here differ uses a new with before | alone | ⟨c, member, present⟩
        · exact clean.conflictFree here a b (.inr (.inr ⟨p, uses, before⟩)) old distinct
        · exact absurd (alone b old).symm distinct
        · exact ⟨c, member, present⟩
      · rw [new, Option.some.injEq] at newB
        exact absurd newB distinct
    rcases access accessA with oldA | ⟨uses, newA⟩
    · rcases access accessB with oldB | ⟨uses, newB⟩
      · exact clean.conflictFree here a b oldA oldB distinct
      · exact conclude distinct.symm uses newB (.inl oldA)
    · exact conclude distinct uses newA (access accessB)

/-- What must be shown of an operation: the new entries are in order, and a new external
symbol does no harm to the packages that use this one. -/
theorem Effect.sound {i e : Option Symbol}
    {shadows : Symbol → Prop} (effect : Effect w w' name p i e shadows) (sound : Sound w)
    (disjoint : p ≠ keywordPackage → i = none ∨ e = none)
    (shadowing : p ≠ keywordPackage → ∀ c, c.name = name → shadows c → i = some c ∨ e = some c)
    (own : p ∈ w.packages → Harmless i e shadows (Inherits w name p))
    (users : ∀ u ∈ w.packages, u ≠ p → p ∈ (w.pack u).uses → ∀ a, e = some a →
      HarmlessTo w name p u a) : Sound w' where
  allocated := sound.allocated.quiet effect.changes.quiet
  linked q r := by
    rw [effect.changes.quiet.uses, effect.changes.quiet.usedby]
    exact sound.linked q r
  irreflexive q := by
    rw [effect.changes.quiet.uses]
    exact sound.irreflexive q
  keyword := by
    rw [effect.changes.quiet.uses]
    exact sound.keyword
  clean m q := by
    by_cases sameName : m = name
    · subst sameName
      by_cases same : q = p
      · subst same
        refine ⟨?_, ?_, ?_⟩
        · rw [effect.entries.internal, effect.entries.external]
          exact disjoint
        · rw [effect.entries.internal, effect.entries.external]
          intro other c member named
          exact shadowing other c named ((effect.entries.shadowings c named).mp member)
        · rw [effect.entries.internal, effect.entries.external, effect.changes.quiet.packages]
          intro here
          apply (own here).mono
          · -- the packages used are other packages
            rintro a ⟨r, member, found⟩
            rw [effect.changes.quiet.uses] at member
            have other : r ≠ q := fun same => sound.irreflexive q (same ▸ member)
            rw [effect.changes.others r other] at found
            exact ⟨r, member, found⟩
          · intro c isShadowing present
            have named : c.name = m := by
              rcases present with internal | external
              · exact gethash_name (effect.entries.internal.trans internal)
              · exact gethash_name (effect.entries.external.trans external)
            exact (effect.entries.shadowings c named).mpr isShadowing
      · apply effect.changes.otherPackage sound ?_ same
        rw [effect.entries.external]
        exact users
    · exact effect.changes.otherName sound sameName q

end Ecl.Packages
