import Ecl.Predlib.CoherenceLaw

/- Histories of definitions and of calls that compare types. -/
namespace Ecl.Predlib

open Ecl.Lib Datum

variable {Obj α β : Type} [DecidableEq Obj] {image : Image Obj} {depth : Nat} {w : World Obj}

variable (image depth) in
def Keeps (x : Toplevel Obj α) : Prop :=
  ∀ w : World Obj, w.Valid image depth → (x w).2.Valid image depth

namespace Keeps

theorem bind {x : Toplevel Obj α} {f : α → Toplevel Obj β} (first : Keeps image depth x)
    (second : ∀ a, Keeps image depth (f a)) : Keeps image depth (x >>= f) := by
  intro w valid
  have kept := first w valid
  show (Toplevel.bind x f w).2.Valid image depth
  rw [Toplevel.bind]
  rcases called : x w with ⟨a | _ | e, w'⟩ <;> rw [called] at kept
  · exact second a w' kept
  · exact kept
  · exact kept

theorem pure (a : α) : Keeps image depth (Pure.pure a : Toplevel Obj α) := fun _ valid => valid

theorem error (e : TypeError Obj) : Keeps image depth (.error e : Toplevel Obj α) :=
  fun _ valid => valid

theorem call (x : Lisp Obj α) : Keeps image depth (.call image x) :=
  fun _ valid => Toplevel.call_valid x valid

end Keeps

theorem doDeftype_keeps (type : Datum Obj) (function : FunctionId) :
    Keeps image depth (doDeftype image type function) := by
  intro w valid
  unfold doDeftype
  split
  · split
    · exact valid
    · exact .start _
  · exact valid

theorem setfFindClass_keeps (new : Datum Obj) (s : Symbol) :
    Keeps image depth (setfFindClass image depth new s) := by
  unfold setfFindClass
  apply Keeps.bind (fun _ valid => valid)
  intro oldClass
  apply Keeps.bind (.call _)
  intro builtIn
  split
  · exact .error _
  · split
    · exact .error _
    · split
      · exact fun _ valid => valid.withTables _
      · exact fun _ valid => valid.withTables _
      · exact .error _

theorem writeClass_keeps (c : ClassId) (className : Option Symbol) (finalized : Bool)
    (cpl : Option (List ClassId)) :
    Keeps image depth (writeClass c className finalized cpl : Toplevel Obj Unit) :=
  fun _ valid => valid.withTables _

theorem subtypep_agrees (valid : w.Valid image depth) {t1 t2 : Datum Obj}
    (current : (Event.subtypep t1 t2).Current image depth w) :
    Agrees image depth ((Event.subtypep t1 t2).perform image depth) w :=
  (subtypep_law valid current).map fun values => Result.values values.1 values.2

theorem upgraded_agrees (valid : w.Valid image depth) {type : Datum Obj}
    (current : (Event.upgradedArrayElementType type).Current image depth w) :
    Agrees image depth ((Event.upgradedArrayElementType type).perform image depth) w := by
  have law : Agrees image depth (upgradedArrayElementType image depth type) w := by
    rcases elementName_cases type with ⟨n, rfl⟩ | ⟨other, rfl⟩
    · exact upgraded_name_law valid n
    · refine upgraded_law valid other (current.resolve_left ?_)
      rw [other.2]
      exact Bool.false_ne_true
  exact law.map Result.type

theorem perform_valid (valid : w.Valid image depth) (e : Event Obj)
    (current : e.Current image depth w) : (e.perform image depth w).2.Valid image depth := by
  cases e with
  | deftype type function =>
    exact Keeps.bind (doDeftype_keeps type function) (fun _ => .pure _) w valid
  | setfFindClass new s => exact Keeps.bind (setfFindClass_keeps new s) (fun _ => .pure _) w valid
  | writeClass c className finalized cpl =>
    exact Keeps.bind (writeClass_keeps c className finalized cpl) (fun _ => .pure _) w valid
  | clearCache => exact .start _
  | subtypep t1 t2 => exact (subtypep_agrees valid current).valid
  | upgradedArrayElementType type => exact (upgraded_agrees valid current).valid

theorem perform_coherent (valid : w.Valid image depth) (e : Event Obj)
    (current : e.Current image depth w) : e.Coherent image depth w := by
  cases e with
  | subtypep t1 t2 => exact (subtypep_agrees valid current).result
  | upgradedArrayElementType type => exact (upgraded_agrees valid current).result
  | _ => trivial

theorem Throughout.coherent {events : List (Event Obj)} (valid : w.Valid image depth)
    (current : Throughout image depth (fun w e => e.Current image depth w) w events) :
    Throughout image depth (fun w e => e.Coherent image depth w) w events := by
  induction events generalizing w with
  | nil => trivial
  | cons e events ih =>
    exact ⟨perform_coherent valid e current.1, ih (perform_valid valid e current.1) current.2⟩

/-- Where every comparison of a history meets the condition, every one returns what it returns
with empty caches. -/
theorem comparisons_coherent (image : Image Obj) (depth : Nat) (tables : Tables)
    (events : List (Event Obj))
    (current : Throughout image depth (fun w e => e.Current image depth w) (.start tables) events) :
    Throughout image depth (fun w e => e.Coherent image depth w) (.start tables) events :=
  current.coherent (.start tables)

/-- Symbols that name classes, the first of which is below the second. -/
def sampleTables : Tables where
  deftype := fun _ => none
  findClass
    | .known _ => some 9
    | .other n => some n
  className := fun _ => none
  classFinalizedP := fun _ => true
  classPrecedenceList := fun c => if c = 0 then some [0, 1] else some [c]

def sampleImage : Image Empty where
  hashEql := fun _ => 0
  isA := fun _ _ => false
  typeOf := fun _ => name .t
  classOf := fun _ => 0
  instancep := fun _ => false
  equalp := fun _ _ => false
  le := fun _ _ => none
  lt := fun _ _ => none
  value := fun _ => none
  floorNext := fun _ => none
  ceiling := fun _ => none
  zeroFloat := fun _ => false
  minus := fun _ => false
  negate := id
  complexParts := fun _ => none
  arrayElementType := fun _ => name .t
  arrayDimensions := fun _ => []
  expand := fun _ _ => do Lisp.cons (name .complex) (← Lisp.cons (name .real) (name .nil))
  satisfies := fun _ _ => return false
  alienDeclarations := []

def sampleCall : Event Empty := .subtypep (.symbol (.other 0)) (.symbol (.other 1))

/-- The class of a symbol that the comparison does not mention is replaced, a class is finalized
and a type is defined. -/
theorem comparisons_coherent_sample :
    Throughout sampleImage 4 (fun w e => e.Coherent sampleImage 4 w) (.start sampleTables)
      ([sampleCall, .setfFindClass (.ofClass 2) (.other 5), sampleCall] ++
        finalizeInheritance 0 none [0] [] ++
        [sampleCall, .deftype (.symbol (.other 6)) 0,
          .subtypep (.symbol (.other 6)) (name .complex)]) := by
  apply comparisons_coherent
  refine ⟨.inr ?_, trivial, .inr ?_, trivial, trivial, trivial, .inr ?_, trivial, .inr ?_, trivial⟩
    <;> decide +kernel

/-- (SETF FIND-CLASS) gives the first symbol another class, and the old answer is returned. -/
theorem setfFindClass_stale :
    ¬ Throughout sampleImage 4 (fun w e => e.Coherent sampleImage 4 w) (.start sampleTables)
      [sampleCall, .setfFindClass (.ofClass 2) (.other 0), sampleCall] := by
  intro coherent
  have same := coherent.2.2.1
  revert same
  unfold Event.Coherent sampleCall
  decide +kernel

/-- A part type, the same list wherever it is mentioned. -/
def samplePart : Datum Empty :=
  .cons (.outside 1) (name .and) (list [name .keyword, name .real])

/-- Symbols that are complex numbers. -/
def sampleType : Datum Empty := list [name .and, name .symbol, list [name .complex, samplePart]]

/- The comparison of the part type with REAL gives SYMBOL, in the database around it, the tag of
KEYWORD, that COMPLEX gets too; with a record of the part type it is not made. -/
example :
    (subtypep sampleImage 9 sampleType (name .nil) (.start sampleTables)).1 =
        .value (false, true) ∧
      (subtypep sampleImage 9 sampleType (name .nil)
        (subtypep sampleImage 9 samplePart (name .real) (.start sampleTables)).2).1 =
          .value (true, true) := by
  decide +kernel

end Ecl.Predlib
