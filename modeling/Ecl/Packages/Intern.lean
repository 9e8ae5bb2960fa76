import Ecl.Packages.Filed
import Ecl.Packages.PackTable
import Ecl.Packages.Status

/- ecl_intern on packages with their hash tables: what a second call and other lookups find. -/
namespace Ecl.Packages

/-- The package system with the hash tables of its packages. Each table holds the symbols
of its package, and no two of one name. -/
structure Store where
  state : State
  internal : PackageId → PackTable
  external : PackageId → PackTable
  holdsInternal : ∀ p, (internal p).Holds (state.world.pack p).internal
  holdsExternal : ∀ p, (external p).Holds (state.world.pack p).external
  filed : Filed state.world

namespace Store

/-- The loop of find_symbol_inner over the packages used. -/
def findInherited (store : Store) (name : String) : List PackageId → Option Symbol
  | [] => none
  | q :: uses =>
    match (store.external q).gethashSafe name with
    | some s => some s
    | none => findInherited store name uses

def findSymbolInner (store : Store) (name : String) (p : PackageId) : Symbol × World.Flag :=
  match (store.external p).gethashSafe name with
  | some s => (s, .external)
  | none =>
    if p = keywordPackage then (nilSymbol, .nothing)
    else
      match (store.internal p).gethashSafe name with
      | some s => (s, .internal)
      | none =>
        match store.findInherited name (store.state.world.pack p).uses with
        | some s => (s, .inherited)
        | none => (nilSymbol, .nothing)

/-- The symbol that cl_make_symbol makes next. -/
def newSymbol (store : Store) (name : String) : Symbol := ⟨name, store.state.world.symbolCount⟩

/-- A table of one package is replaced by the one that ecl_sethash returns. -/
def enter (tables : PackageId → PackTable) (p : PackageId) (s : Symbol) (q : PackageId) :
    PackTable :=
  if q = p then (tables q).sethash s.name s else tables q

end Store

theorem internNew_pack (w : World) (name : String) (p q : PackageId) :
    (w.internNew name p).pack q =
      if q = p then
        if p = keywordPackage then
          { w.pack q with external := sethash ⟨name, w.symbolCount⟩ (w.pack q).external }
        else { w.pack q with internal := sethash ⟨name, w.symbolCount⟩ (w.pack q).internal }
      else w.pack q := by
  unfold World.internNew World.makeSymbol
  dsimp only
  by_cases keyword : p = keywordPackage
  · rw [if_pos keyword]
    simp only [if_pos keyword]
    exact pack_modify _ _ q _
  · rw [if_neg keyword]
    simp only [if_neg keyword]
    exact pack_modify _ _ q _

namespace Store

/-- The new symbol is entered in the external table of the keyword package, and in the
internal one of another package. -/
def internNew (store : Store) (name : String) (p : PackageId) : Store where
  state := ⟨store.state.world.internNew name p, false⟩
  internal := if p = keywordPackage then store.internal
    else enter store.internal p (store.newSymbol name)
  external := if p = keywordPackage then enter store.external p (store.newSymbol name)
    else store.external
  holdsInternal q := by
    have before := store.holdsInternal q
    rw [internNew_pack]
    by_cases keyword : p = keywordPackage
    · simp only [if_pos keyword]
      split <;> exact before
    · simp only [if_neg keyword, enter]
      split
      · exact before.sethash (store.newSymbol name)
      · exact before
  holdsExternal q := by
    have before := store.holdsExternal q
    rw [internNew_pack]
    by_cases keyword : p = keywordPackage
    · simp only [if_pos keyword, enter]
      split
      · exact before.sethash (store.newSymbol name)
      · exact before
    · simp only [if_neg keyword]
      split <;> exact before
  filed := store.filed.internNew name p

/-- ecl_intern: the symbol and the flag, unless it signals an error. -/
def intern (store : Store) (name : String) (p : PackageId) :
    Except Outcome (Store × Symbol × World.Flag) :=
  let (s, flag) := store.findSymbolInner name p
  if flag ≠ .nothing then .ok (store, s, flag)
  else if (store.state.world.pack p).locked then .error .continuable
  else if store.state.lock then .error .fatal
  else .ok (store.internNew name p, store.newSymbol name, .nothing)

variable (store : Store)

theorem gethash_internal (name : String) (p : PackageId) :
    (store.internal p).gethashSafe name = gethash name (store.state.world.pack p).internal :=
  (store.holdsInternal p).represents.gethashSafe name

theorem gethash_external (name : String) (p : PackageId) :
    (store.external p).gethashSafe name = gethash name (store.state.world.pack p).external :=
  (store.holdsExternal p).represents.gethashSafe name

theorem findInherited_eq (name : String) (uses : List PackageId) :
    store.findInherited name uses = store.state.world.findInherited name uses := by
  induction uses with
  | nil => rfl
  | cons q uses ih =>
    cases found : gethash name (store.state.world.pack q).external <;>
      simp [findInherited, World.findInherited, store.gethash_external, ih, found]

theorem findSymbolInner_eq (name : String) (p : PackageId) :
    store.findSymbolInner name p = store.state.world.findSymbolInner name p := by
  cases external : gethash name (store.state.world.pack p).external with
  | some s => simp [findSymbolInner, World.findSymbolInner, store.gethash_external, external]
  | none =>
    cases internal : gethash name (store.state.world.pack p).internal <;>
    cases inherited : store.state.world.findInherited name (store.state.world.pack p).uses <;>
      simp [findSymbolInner, World.findSymbolInner, store.gethash_external,
        store.gethash_internal, store.findInherited_eq, external, internal, inherited]

theorem exists_of_reached {st : State} (reached : Reached st) (hash : String → Nat) :
    ∃ store : Store, store.state = st := by
  have build (table : SymbolTable) (distinct : table.Pairwise fun s t => s.name ≠ t.name) :
      ∃ made : PackTable, made.Holds table := by
    induction table with
    | nil => exact ⟨_, .make hash⟩
    | cons s table ih =>
      obtain ⟨first, rest⟩ := List.pairwise_cons.mp distinct
      obtain ⟨made, holds⟩ := ih rest
      refine ⟨made.sethash s.name s, ?_⟩
      have others : remhash s.name table = table :=
        List.filter_eq_self.mpr fun t member => decide_eq_true (first t member).symm
      have entered := holds.sethash s
      rwa [sethash, others] at entered
  have filed := reached.filed
  choose internal holdsInternal using fun p => build _ (filed p).1.distinct
  choose external holdsExternal using fun p => build _ (filed p).2.distinct
  exact ⟨⟨st, internal, external, holdsInternal, holdsExternal, filed⟩, rfl⟩

end Store

def beforeKeyword (uses : List PackageId) : List PackageId := uses.takeWhile (· ≠ keywordPackage)

/-- A name that becomes external in the keyword package is found there, unless a package
before it in the use list has it. -/
theorem findInherited_keyword {w w' : World} {name : String} {s : Symbol}
    (present : gethash name (w'.pack keywordPackage).external = some s)
    (others : ∀ y, y ≠ keywordPackage →
      gethash name (w'.pack y).external = gethash name (w.pack y).external)
    (uses : List PackageId) :
    w'.findInherited name uses =
      if keywordPackage ∈ uses ∧ w.findInherited name (beforeKeyword uses) = none then some s
      else w.findInherited name uses := by
  induction uses with
  | nil => simp [World.findInherited]
  | cons y uses ih =>
    by_cases here : y = keywordPackage
    · subst here
      have first : beforeKeyword (keywordPackage :: uses) = [] := by
        simp [beforeKeyword]
      rw [if_pos ⟨List.mem_cons_self, by rw [first]; rfl⟩, World.findInherited, present]
    · have later : beforeKeyword (y :: uses) = y :: beforeKeyword uses := by
        simp [beforeKeyword, here]
      have member : keywordPackage ∈ y :: uses ↔ keywordPackage ∈ uses := by
        simp [Ne.symm here]
      simp only [World.findInherited, others y here, later, member]
      cases found : gethash name (w.pack y).external with
      | some t => simp
      | none => exact ih

section InternNew

variable (w : World) (name : String) (p : PackageId)

theorem internNew_uses (q : PackageId) : ((w.internNew name p).pack q).uses = (w.pack q).uses := by
  rw [internNew_pack]
  split
  · split <;> rfl
  · rfl

theorem internNew_external (other : String) (q : PackageId) :
    gethash other ((w.internNew name p).pack q).external =
      if p = keywordPackage ∧ q = p ∧ other = name then some ⟨name, w.symbolCount⟩
      else gethash other (w.pack q).external := by
  rw [internNew_pack]
  by_cases here : q = p
  · by_cases keyword : p = keywordPackage
    · rw [if_pos here, if_pos keyword]
      simp only [gethash_sethash, keyword, here, true_and]
    · rw [if_pos here, if_neg keyword, if_neg fun all => keyword all.1]
  · rw [if_neg here, if_neg fun all => here all.2.1]

theorem internNew_internal (other : String) (q : PackageId) :
    gethash other ((w.internNew name p).pack q).internal =
      if p ≠ keywordPackage ∧ q = p ∧ other = name then some ⟨name, w.symbolCount⟩
      else gethash other (w.pack q).internal := by
  rw [internNew_pack]
  by_cases here : q = p
  · by_cases keyword : p = keywordPackage
    · rw [if_pos here, if_pos keyword, if_neg fun all => all.1 keyword]
    · rw [if_pos here, if_neg keyword]
      simp only [gethash_sethash, ne_eq, keyword, not_false_iff, here, true_and]
  · rw [if_neg here, if_neg fun all => here all.2.1]

variable {w name p}

theorem internNew_finds (missing : (w.findSymbolInner name p).2 = .nothing) :
    ∃ flag, flag ≠ .nothing ∧
      (w.internNew name p).findSymbolInner name p = (⟨name, w.symbolCount⟩, flag) := by
  by_cases keyword : p = keywordPackage
  · refine ⟨.external, by decide, find_external ?_⟩
    rw [internNew_external, if_pos ⟨keyword, rfl, rfl⟩]
  · refine ⟨.internal, by decide, find_internal ?_ keyword ?_⟩
    · rw [internNew_external, if_neg fun both => keyword both.1]
      cases found : gethash name (w.pack p).external with
      | none => rfl
      | some s =>
        rw [find_external found] at missing
        cases missing
    · rw [internNew_internal, if_pos ⟨keyword, rfl, rfl⟩]

theorem internNew_elsewhere {other : String} {q : PackageId} (apart : other ≠ name ∨ q ≠ p)
    (unseen : other ≠ name ∨ p ≠ keywordPackage) :
    (w.internNew name p).findSymbolInner other q = w.findSymbolInner other q := by
  have external (y : PackageId) : gethash other ((w.internNew name p).pack y).external =
      gethash other (w.pack y).external := by
    rw [internNew_external, if_neg]
    rintro ⟨keyword, -, same⟩
    rcases unseen with differ | differ
    · exact differ same
    · exact differ keyword
  have internal : gethash other ((w.internNew name p).pack q).internal =
      gethash other (w.pack q).internal := by
    rw [internNew_internal, if_neg]
    rintro ⟨-, here, same⟩
    rcases apart with differ | differ
    · exact differ same
    · exact differ here
  rw [World.findSymbolInner, World.findSymbolInner, external, internal, internNew_uses,
    findInherited_congr external]

/-- The search for a name in `q` ends before it gets to the keyword package. -/
def FoundBefore (w : World) (name : String) (q : PackageId) : Prop :=
  gethash name (w.pack q).external ≠ none ∨ gethash name (w.pack q).internal ≠ none ∨
    ∃ y ∈ beforeKeyword (w.pack q).uses, gethash name (w.pack y).external ≠ none

theorem internNew_user (filed : Filed w) {q : PackageId}
    (other : q ≠ keywordPackage) :
    (w.internNew name keywordPackage).findSymbolInner name q = w.findSymbolInner name q ↔
      (keywordPackage ∈ (w.pack q).uses → FoundBefore w name q) := by
  have external (y : PackageId) (apart : y ≠ keywordPackage) :
      gethash name ((w.internNew name keywordPackage).pack y).external =
        gethash name (w.pack y).external := by
    rw [internNew_external, if_neg fun both => apart both.2.1]
  have internal : gethash name ((w.internNew name keywordPackage).pack q).internal =
      gethash name (w.pack q).internal := by
    rw [internNew_internal, if_neg fun both => both.1 rfl]
  have inherited := findInherited_keyword
    ((internNew_external w name keywordPackage name keywordPackage).trans
      (if_pos ⟨rfl, rfl, rfl⟩)) external (w.pack q).uses
  rw [World.findSymbolInner, World.findSymbolInner, external q other, internal, internNew_uses,
    inherited]
  simp only [if_neg other, FoundBefore]
  cases gethash name (w.pack q).external with
  | some s => simp
  | none =>
    cases gethash name (w.pack q).internal with
    | some s => simp
    | none =>
      simp only [ne_eq, not_true, false_or]
      have seen : (∃ y ∈ beforeKeyword (w.pack q).uses,
          ¬ gethash name (w.pack y).external = none) ↔
          ¬ w.findInherited name (beforeKeyword (w.pack q).uses) = none := by
        constructor
        · rintro ⟨y, member, has⟩ none
          exact has (findInherited_none none y member)
        · intro found
          obtain ⟨s, isSome⟩ := Option.ne_none_iff_exists'.mp found
          obtain ⟨y, member, has⟩ := findInherited_some isSome
          exact ⟨y, member, by rw [has]; exact Option.some_ne_none s⟩
      rw [seen]
      by_cases changes : keywordPackage ∈ (w.pack q).uses ∧
          w.findInherited name (beforeKeyword (w.pack q).uses) = none
      · rw [if_pos changes]
        refine iff_of_false ?_ fun kept => kept changes.1 changes.2
        intro same
        cases found : w.findInherited name (w.pack q).uses with
        | none =>
          rw [found] at same
          cases congrArg Prod.snd same
        | some s =>
          -- the symbol would have been made before
          rw [found] at same
          obtain ⟨y, -, has⟩ := findInherited_some found
          have made := (filed y).2.made s (mem_of_gethash has)
          have equal : (⟨name, w.symbolCount⟩ : Symbol) = s := congrArg Prod.fst same
          rw [← equal] at made
          exact absurd made (Nat.lt_irrefl _)
      · rw [if_neg changes]
        exact iff_of_true rfl fun member none => changes ⟨member, none⟩

end InternNew

/-- What a call of ecl_intern that returned `s` is to leave: a second call and
find_symbol_inner find the symbol, other lookups give what they gave, and the tables of the
package find each of their symbols under its own name. -/
structure Interned (store after : Store) (name : String) (p : PackageId) (s : Symbol) : Prop where
  again : ∃ flag, after.intern name p = .ok (after, s, flag) ∧ flag ≠ .nothing ∧
    after.findSymbolInner name p = (s, flag)
  elsewhere : ∀ other q, other ≠ name ∨ q ≠ p →
    after.findSymbolInner other q = store.findSymbolInner other q
  internal : ∀ t, (store.internal p).Has t ∨ (after.internal p).Has t →
    (after.internal p).gethashSafe t.name = some t
  external : ∀ t, (store.external p).Has t ∨ (after.external p).Has t →
    (after.external p).gethashSafe t.name = some t

namespace Store

variable (store : Store) (name : String) (p : PackageId)

theorem intern_found {s : Symbol} {flag : World.Flag}
    (found : store.findSymbolInner name p = (s, flag)) (present : flag ≠ .nothing) :
    store.intern name p = .ok (store, s, flag) := by
  rw [intern, found]
  simp only [if_pos present]

theorem intern_returns {after : Store} {s : Symbol} {flag : World.Flag}
    (returned : store.intern name p = .ok (after, s, flag)) :
    (after = store ∧ flag ≠ .nothing ∧ store.findSymbolInner name p = (s, flag)) ∨
      (after = store.internNew name p ∧ s = store.newSymbol name ∧
        (store.findSymbolInner name p).2 = .nothing ∧
        (store.state.world.pack p).locked = false ∧ store.state.lock = false) := by
  unfold intern at returned
  rcases found : store.findSymbolInner name p with ⟨t, status⟩
  rw [found] at returned
  dsimp only at returned
  by_cases present : status ≠ .nothing
  · rw [if_pos present] at returned
    cases returned
    exact Or.inl ⟨rfl, present, rfl⟩
  · rw [if_neg present] at returned
    cases locked : (store.state.world.pack p).locked with
    | true =>
      rw [locked] at returned
      cases returned
    | false =>
      cases lock : store.state.lock with
      | true =>
        rw [locked, lock] at returned
        cases returned
      | false =>
        rw [locked, lock] at returned
        cases returned
        exact Or.inr ⟨rfl, rfl, not_not.mp present, rfl, rfl⟩

theorem intern_makes (missing : (store.findSymbolInner name p).2 = .nothing)
    (unlocked : (store.state.world.pack p).locked = false) (free : store.state.lock = false) :
    store.intern name p = .ok (store.internNew name p, store.newSymbol name, .nothing) := by
  unfold intern
  rcases found : store.findSymbolInner name p with ⟨t, status⟩
  rw [found] at missing
  dsimp only at missing ⊢
  rw [if_neg (not_not.mpr missing), unlocked, free]
  rfl

theorem has_internal {t : Symbol} (has : (store.internal p).Has t) :
    (store.internal p).gethashSafe t.name = some t := by
  rw [store.gethash_internal]
  exact (store.holdsInternal p).represents.has has

theorem has_external {t : Symbol} (has : (store.external p).Has t) :
    (store.external p).gethashSafe t.name = some t := by
  rw [store.gethash_external]
  exact (store.holdsExternal p).represents.has has

theorem internNew_keeps (missing : (store.findSymbolInner name p).2 = .nothing) {t : Symbol} :
    ((store.internal p).Has t →
        ((store.internNew name p).internal p).gethashSafe t.name = some t) ∧
      ((store.external p).Has t →
        ((store.internNew name p).external p).gethashSafe t.name = some t) := by
  have before := store.findSymbolInner_eq name p
  constructor
  · intro has
    have found := (store.holdsInternal p).represents.has has
    rw [gethash_internal]
    refine (internNew_internal store.state.world name p t.name p).trans ?_
    rw [if_neg, found]
    rintro ⟨other, -, same⟩
    rw [same] at found
    rw [before, World.findSymbolInner, found] at missing
    cases external : gethash name (store.state.world.pack p).external with
    | some u =>
      rw [external] at missing
      cases missing
    | none =>
      rw [external] at missing
      simp only [if_neg other] at missing
      cases missing
  · intro has
    have found := (store.holdsExternal p).represents.has has
    rw [gethash_external]
    refine (internNew_external store.state.world name p t.name p).trans ?_
    rw [if_neg, found]
    rintro ⟨-, -, same⟩
    rw [same] at found
    rw [before, World.findSymbolInner, found] at missing
    cases missing

/-- Interning is idempotent, and local: except that a new keyword shows up in a package
that uses the keyword package, unless the search there ends earlier. -/
theorem interned_iff :
    (∀ after s flag, store.intern name p = .ok (after, s, flag) →
        Interned store after name p s) ↔
      (p = keywordPackage → (store.findSymbolInner name p).2 = .nothing →
        (store.state.world.pack p).locked = false → store.state.lock = false →
        ∀ q, q ≠ p → keywordPackage ∈ (store.state.world.pack q).uses →
          FoundBefore store.state.world name q) := by
  have sees (missing : (store.findSymbolInner name p).2 = .nothing) (other : String)
      (q : PackageId) (apart : other ≠ name ∨ q ≠ p) :
      (store.internNew name p).findSymbolInner other q = store.findSymbolInner other q ↔
        (p = keywordPackage → other = name → keywordPackage ∈ (store.state.world.pack q).uses →
          FoundBefore store.state.world name q) := by
    rw [store.findSymbolInner_eq] at missing
    rw [findSymbolInner_eq, findSymbolInner_eq]
    by_cases unseen : other ≠ name ∨ p ≠ keywordPackage
    · refine iff_of_true (internNew_elsewhere apart unseen) fun keyword same => ?_
      rcases unseen with differ | differ
      · exact absurd same differ
      · exact absurd keyword differ
    · obtain ⟨rfl, rfl⟩ : other = name ∧ p = keywordPackage := by
        simpa only [not_or, not_not] using unseen
      have user := apart.resolve_left (not_not.mpr rfl)
      refine (internNew_user store.filed user).trans ?_
      exact ⟨fun kept _ _ => kept, fun kept => kept rfl rfl⟩
  constructor
  · intro law keyword missing unlocked free q differ uses
    have returned := store.intern_makes name p missing unlocked free
    have same := (law _ _ _ returned).elsewhere name q (Or.inr differ)
    exact (sees missing name q (Or.inr differ)).mp same keyword rfl uses
  · intro kept after s flag returned
    rcases store.intern_returns name p returned with
      ⟨rfl, present, found⟩ | ⟨rfl, rfl, missing, unlocked, free⟩
    · refine ⟨⟨flag, returned, present, found⟩, fun _ _ _ => rfl, ?_, ?_⟩
      · rintro t (has | has) <;> exact after.has_internal p has
      · rintro t (has | has) <;> exact after.has_external p has
    · have absent := missing
      rw [store.findSymbolInner_eq] at absent
      obtain ⟨flag, present, found⟩ := internNew_finds absent
      have second : (store.internNew name p).findSymbolInner name p =
          (store.newSymbol name, flag) :=
        ((store.internNew name p).findSymbolInner_eq name p).trans found
      refine ⟨⟨flag, intern_found _ name p second present, present, second⟩, ?_, ?_, ?_⟩
      · intro other q apart
        refine (sees missing other q apart).mpr fun keyword same uses => ?_
        exact kept keyword missing unlocked free q
          (apart.resolve_left (not_not.mpr same)) uses
      · rintro t (has | has)
        · exact (store.internNew_keeps name p missing).1 has
        · exact has_internal _ p has
      · rintro t (has | has)
        · exact (store.internNew_keeps name p missing).2 has
        · exact has_external _ p has

end Store

/-- A package made with the keyword package in its use list. -/
def userOfKeyword : State :=
  (makePackage never (.string "A") ⟨[], true⟩ ⟨[.string "KEYWORD"], true⟩ initialState).1

theorem userOfKeyword_reached : Reached userOfKeyword :=
  .step (.makePackage (.string "A") ⟨[], true⟩ ⟨[.string "KEYWORD"], true⟩) never initialState
    .initial (by simp [Op.Exists])

/-- The keyword :X is made, and A::X is found where nothing was. -/
theorem interned_seen_in_user :
    ∃ store after : Store, Reached store.state ∧ ∃ s,
      store.intern "X" keywordPackage = .ok (after, s, .nothing) ∧
      store.findSymbolInner "X" 7 = (nilSymbol, .nothing) ∧
      after.findSymbolInner "X" 7 = (s, .inherited) := by
  obtain ⟨store, isState⟩ := Store.exists_of_reached userOfKeyword_reached String.length
  have before : store.findSymbolInner "X" keywordPackage = (nilSymbol, .nothing) := by
    rw [store.findSymbolInner_eq, isState]
    decide +kernel
  refine ⟨store, store.internNew "X" keywordPackage, isState ▸ userOfKeyword_reached,
    store.newSymbol "X", store.intern_makes "X" keywordPackage (by rw [before]) ?_ ?_, ?_, ?_⟩
  · rw [isState]
    decide +kernel
  · rw [isState]
    decide +kernel
  · rw [store.findSymbolInner_eq, isState]
    decide +kernel
  · rw [Store.findSymbolInner_eq]
    change (store.state.world.internNew "X" keywordPackage).findSymbolInner "X" 7 =
      (⟨"X", store.state.world.symbolCount⟩, _)
    rw [isState]
    decide +kernel

end Ecl.Packages
