import Ecl.Clos.Links
import Ecl.Clos.Precedence

/- Sets of class definitions that are evaluated in some order, and the states in
between. -/
namespace Ecl.Clos

open List Relation

variable {Ty : Type}

/-- STANDARD-OBJECT. -/
def rootClass : ClassId := .first .standardObject

def topClass : ClassId := .first .t

/-- The classes that are there before any definition. -/
def Base (c : ClassId) : Prop := c = rootClass ∨ c = topClass

/-- A form (defclass name superclasses slots (:metaclass metaclass)). -/
structure Definition (Ty : Type) where
  name : Nat
  metaclass : Metaclass
  superclasses : List ClassName
  slots : List (Slot Ty)

namespace Definition

/-- The class that the form defines. -/
def id (d : Definition Ty) : ClassId := .first (.other d.name)

/-- The direct superclasses that it gets. -/
def supers (d : Definition Ty) : List ClassId :=
  if d.superclasses = [] then [rootClass] else d.superclasses.map .first

end Definition

/-- The evaluation of the form. -/
def define (types : Types Ty) (limit : Nat) (d : Definition Ty) (w : World Ty) :
    Outcome Ty ClassId :=
  ensureClass types limit (.other d.name) d.metaclass (d.superclasses.map .symbol) d.slots w

/-- The evaluation of one form after another, until one signals an error. -/
def defineAll (types : Types Ty) (limit : Nat) : List (Definition Ty) → World Ty → Outcome Ty Unit
  | [], w => (.ok (), w)
  | d :: rest, w => (define types limit d w).andThen fun _ => defineAll types limit rest

section

variable (defs : List (Definition Ty))

/-- The direct superclasses when all the definitions are made. -/
def hierarchy (c : ClassId) : List ClassId :=
  match defs.find? (·.id = c) with
  | some d => d.supers
  | none => if c = rootClass then [topClass] else []

/-- The direct slots when all the definitions are made. -/
def definedSlots (c : ClassId) : List (Slot Ty) :=
  match defs.find? (·.id = c) with
  | some d => d.slots
  | none => []

abbrev Inherits (c d : ClassId) : Prop := Relation.ReflTransGen (Direct (hierarchy defs)) c d

/-- The effective slots along a precedence list, before those that are shared get their
cells. -/
def effectiveSlots (types : Types Ty) (cpl : List ClassId) :
    Except ClassError (List (Slot Ty)) := do
  let allSlots := cpl.reverse.flatMap (definedSlots defs)
  let slots ← computeSlotsLoop types allSlots (allSlots.map (·.name)).reverse []
  classComputeSlots slots

/-- A set of definitions with consistent precedence orders: it defines each class once
and all the superclasses, and the superclasses of each class can be ordered. -/
structure Consistent (types : Types Ty) : Prop where
  nodup : (defs.map (·.name)).Nodup
  closed : ∀ d ∈ defs, ∀ s ∈ d.superclasses,
    s = .t ∨ s = .standardObject ∨ ∃ e ∈ defs, s = .other e.name
  metaclass : ∀ d ∈ defs, d.metaclass.isStd = true ∧
    (d.superclasses = [] → d.metaclass = .standardClass)
  ranked : ∀ d ∈ defs, ∃ rank, ∀ c, Inherits defs d.id c → Ranked (hierarchy defs) rank c
  /-- No two slots of a class are given the same place. -/
  placeable : ∀ d ∈ defs, ∀ cpl, Linear (hierarchy defs) d.id cpl →
    ∃ slots, effectiveSlots defs types cpl = .ok slots

/-- All direct superclasses of the class are defined. -/
def Ready (defined : List ClassId) (c : ClassId) : Prop :=
  ∀ p ∈ hierarchy defs c, p ∈ defined ∨ Base p

/-- The class and all the classes that it inherits from are defined. -/
def Full (defined : List ClassId) (c : ClassId) : Prop :=
  ∀ a, Inherits defs c a → a ∈ defined ∨ Base a

/-- The definition of `x` leaves no class with all its direct superclasses defined, but
not all the classes above, among `x` itself and the direct subclasses of those that it
makes full. -/
def SafeStep (defined : List ClassId) (x : ClassId) : Prop :=
  ∀ c ∈ defined, Ready defs defined c →
    (c = x ∨ ∃ p ∈ hierarchy defs c, Full defs defined p ∧ Inherits defs p x) → Full defs defined c

/-- Every definition of the order is such, after those before it. -/
def Safe : List ClassId → List ClassId → Prop
  | _, [] => True
  | defined, x :: rest => SafeStep defs (x :: defined) x ∧ Safe (x :: defined) rest

end

namespace Definition

theorem id_not_base (d : Definition Ty) : ¬ Base d.id := by
  rintro (same | same) <;> cases same

theorem id_inj {d e : Definition Ty} (same : d.id = e.id) : d.name = e.name := by
  injection same with name
  injection name with name
  injection name

theorem supers_ne_nil (d : Definition Ty) : d.supers ≠ [] := by
  unfold supers
  split
  · exact cons_ne_nil _ _
  · rename_i some
    simpa using some

end Definition

section Hierarchy

variable {types : Types Ty} {defs : List (Definition Ty)}

theorem find_of_mem (nodup : (defs.map (·.name)).Nodup) {d : Definition Ty} (member : d ∈ defs) :
    defs.find? (·.id = d.id) = some d := by
  induction defs with
  | nil => cases member
  | cons e defs ih =>
    obtain ⟨fresh, nodup⟩ := nodup_cons.mp nodup
    rcases mem_cons.mp member with rfl | member
    · rw [List.find?_cons_of_pos (by simp)]
    · rw [List.find?_cons_of_neg, ih nodup member]
      intro same
      refine fresh (mem_map.mpr ⟨d, member, ?_⟩)
      exact (Definition.id_inj (of_decide_eq_true same)).symm

variable {c : ClassId}

theorem find_base (base : Base c) : defs.find? (·.id = c) = none := by
  rw [List.find?_eq_none]
  intro d _ same
  exact d.id_not_base ((of_decide_eq_true same) ▸ base)

theorem hierarchy_root : hierarchy defs rootClass = [topClass] := by
  rw [hierarchy, find_base (.inl rfl)]
  rfl

theorem hierarchy_top : hierarchy defs topClass = [] := by
  rw [hierarchy, find_base (.inr rfl)]
  rfl

theorem definedSlots_base (base : Base c) : definedSlots defs c = [] := by
  rw [definedSlots, find_base base]

namespace Consistent

variable (consistent : Consistent defs types)

include consistent

theorem hierarchy_of_mem {d : Definition Ty} (member : d ∈ defs) :
    hierarchy defs d.id = d.supers := by
  rw [hierarchy, find_of_mem consistent.nodup member]

theorem definedSlots_of_mem {d : Definition Ty} (member : d ∈ defs) :
    definedSlots defs d.id = d.slots := by
  rw [definedSlots, find_of_mem consistent.nodup member]

end Consistent

variable {a : ClassId}

theorem inherits_top (path : Inherits defs topClass a) : a = topClass := by
  rcases ReflTransGen.cases_head path with same | ⟨b, direct, -⟩
  · exact same.symm
  · rw [Direct, hierarchy_top] at direct
    cases direct

theorem base_of_inherits (base : Base c) (path : Inherits defs c a) : Base a := by
  rcases base with rfl | rfl
  · rcases ReflTransGen.cases_head path with same | ⟨b, direct, rest⟩
    · exact .inl same.symm
    · rw [Direct, hierarchy_root, mem_singleton] at direct
      subst direct
      exact .inr (inherits_top rest)
  · exact .inr (inherits_top path)

variable {D : List ClassId}

theorem Full.above (full : Full defs D c) (path : Inherits defs c a) : Full defs D a :=
  fun b rest => full b (path.trans rest)

theorem Full.ready (full : Full defs D c) : Ready defs D c :=
  fun p direct => full p (.single direct)

theorem full_of_parents (own : c ∈ D) (parents : ∀ p ∈ hierarchy defs c, Full defs D p) :
    Full defs D c := by
  intro a path
  rcases ReflTransGen.cases_head path with same | ⟨b, direct, rest⟩
  · exact .inl (same ▸ own)
  · exact parents b direct a rest

end Hierarchy

section Unplaced

variable (types : Types Ty)

theorem combineSlotds_unplaced {new old : Slot Ty} (none₁ : new.location = none)
    (none₂ : old.location = none) :
    ∃ slot, combineSlotds types new old = .ok slot ∧ slot.location = none := by
  unfold combineSlotds
  rw [none₁, none₂]
  exact ⟨_, rfl, rfl⟩

theorem computeEffectiveSlotDefinition_unplaced : ∀ {rest : List (Slot Ty)} {first : Slot Ty},
    first.location = none → (∀ slot ∈ rest, slot.location = none) →
    ∃ slot, computeEffectiveSlotDefinition types first rest = .ok slot ∧ slot.location = none := by
  intro rest
  induction rest with
  | nil => exact fun {first} unplaced _ => ⟨first, rfl, unplaced⟩
  | cons second rest ih =>
    intro first unplaced others
    obtain ⟨slot, combined, unplaced'⟩ := combineSlotds_unplaced types unplaced
      (others second mem_cons_self)
    obtain ⟨result, computed, unplaced''⟩ := ih unplaced'
      fun slot member => others slot (mem_cons_of_mem _ member)
    refine ⟨result, ?_, unplaced''⟩
    rw [computeEffectiveSlotDefinition, foldlM_cons, combined]
    exact computed

theorem computeSlotsLoop_unplaced {allSlots : List (Slot Ty)}
    (unplaced : ∀ slot ∈ allSlots, slot.location = none) : ∀ (names : List Nat)
    (output : List (Slot Ty)), (∀ slot ∈ output, slot.location = none) →
    ∃ slots, computeSlotsLoop types allSlots names output = .ok slots ∧
      ∀ slot ∈ slots, slot.location = none := by
  intro names
  induction names with
  | nil => exact fun output rest => ⟨output, rfl, rest⟩
  | cons name names ih =>
    intro output rest
    rw [computeSlotsLoop]
    split
    · exact ih output rest
    · split
      · exact ih output rest
      · rename_i first others filtered
        have inside : ∀ slot ∈ first :: others, slot.location = none := by
          intro slot member
          rw [← filtered] at member
          exact unplaced slot (mem_reverse.mp (mem_of_mem_filter member))
        obtain ⟨slot, computed, unplacedSlot⟩ := computeEffectiveSlotDefinition_unplaced
          types (inside first mem_cons_self)
          fun slot member => inside slot (mem_cons_of_mem _ member)
        simp only [computed, bind, Except.bind]
        refine ih (slot :: output) fun other member => ?_
        rcases mem_cons.mp member with rfl | member
        · exact unplacedSlot
        · exact rest other member

theorem effectiveSlots_unplaced {defs : List (Definition Ty)}
    (unplaced : ∀ d ∈ defs, ∀ slot ∈ d.slots, slot.location = none) (cpl : List ClassId) :
    ∃ slots, effectiveSlots defs types cpl = .ok slots := by
  have all : ∀ slot ∈ cpl.reverse.flatMap (definedSlots defs), slot.location = none := by
    intro slot member
    obtain ⟨c, -, here⟩ := mem_flatMap.mp member
    unfold definedSlots at here
    split at here
    · rename_i d found
      exact unplaced d (mem_of_find?_eq_some found) slot here
    · cases here
  obtain ⟨slots, computed, rest⟩ := computeSlotsLoop_unplaced types all
    ((cpl.reverse.flatMap (definedSlots defs)).map (·.name)).reverse [] nofun
  have noPlaces : slots.filterMap Slot.place? = [] := by
    rw [filterMap_eq_nil_iff]
    intro slot member
    rw [Slot.place?, rest slot member]
    split <;> simp_all
  unfold effectiveSlots
  simp only [computed, bind, Except.bind]
  rw [classComputeSlots, noPlaces]
  exact ⟨_, rfl⟩

end Unplaced

end Ecl.Clos
