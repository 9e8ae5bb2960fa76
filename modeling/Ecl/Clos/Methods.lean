import Ecl.Clos.Dispatch
import Mathlib.Data.List.Pairwise

/- add-method, remove-method and find-method: which methods a generic function has. -/
namespace Ecl.Clos

open List Bool Function

variable {Obj Meth Gf Λ : Type}

structure MethodSlots (Obj Meth Λ : Type) where
  qualifiers : Meth → List Obj
  specializers : Meth → List (Option (Specializer Obj))
  lambdaList : Meth → Λ

/-- What is read off lambda lists: congruent-lambda-p, their length and the number of their
required arguments. -/
structure LambdaLists (Λ : Type) where
  congruent : Λ → Λ → Bool
  length : Λ → Nat
  required : Λ → Nat

/-- The slots of a generic function; the lambda list may be unbound, and of the argument
precedence order only the length is read. -/
structure GfSlots (Meth Λ : Type) where
  lambdaList : Option Λ
  argumentPrecedenceOrder : Nat
  methods : List Meth

/-- The generic functions and the slot method-generic-function of the methods. -/
structure MethodTable (Gf Meth Λ : Type) where
  slots : Gf → GfSlots Meth Λ
  genericFunction : Meth → Option Gf

inductive MethodFailure where
  /-- The method belongs to another generic function. -/
  | belongsToAnother
  /-- The lambda lists are not congruent. -/
  | notCongruent
  /-- The lambda list is incongruent with some of the methods. -/
  | incongruentWithMethods
  | unboundLambdaList
  /-- SUBSEQ behind the end of the lambda list. -/
  | subseqBounds
  /-- The specializers list does not match the number of required arguments. -/
  | specializersLength
  /-- There is no method that agrees. -/
  | noSuchMethod
  /-- The new specialization provides another number of arguments. -/
  | newSpecialization
  deriving DecidableEq

section Comparing

variable [DecidableEq Obj] (image : Image Obj)

/-- EQUAL of two lists, from that of their elements. -/
def equalLists {α : Type} (same : α → α → Bool) : List α → List α → Bool
  | [], [] => true
  | x :: xs, y :: ys => same x y && equalLists same xs ys
  | _, _ => false

/-- Classes by identity and objects of EQL specializers by EQL. -/
def eqlSpecializers : Option (Specializer Obj) → Option (Specializer Obj) → Bool
  | none, none => true
  | some (.ofClass c), some (.ofClass d) => c = d
  | some (.eql x), some (.eql y) => image.eql x y
  | _, _ => false

end Comparing

section Calls

variable [DecidableEq Obj] [DecidableEq Meth] [DecidableEq Gf] (image : Image Obj)
  (methods : MethodSlots Obj Meth Λ) (lists : LambdaLists Λ)

def findMethod (table : MethodTable Gf Meth Λ) (gf : Gf) (qualifiers : List Obj)
    (specializers : List (Option (Specializer Obj))) (errorp : Bool) :
    Except MethodFailure (Option Meth) :=
  match (table.slots gf).lambdaList with
  | none => .error .unboundLambdaList
  | some lambdaList =>
    if specializers.length > lists.length lambdaList then .error .subseqBounds
    else
      match (table.slots gf).methods.find? fun method =>
          equalLists image.equal qualifiers (methods.qualifiers method) &&
            equalLists (equalSpecializers image) specializers (methods.specializers method) with
      | some method => .ok (some method)
      | none =>
        if specializers.length ≠ (table.slots gf).argumentPrecedenceOrder then
          .error .specializersLength
        else if errorp then .error .noSuchMethod
        else .ok none

def removeMethod (table : MethodTable Gf Meth Λ) (gf : Gf) (method : Meth) :
    MethodTable Gf Meth Λ where
  slots := Function.update table.slots gf
    { table.slots gf with methods := (table.slots gf).methods.filter (· ≠ method) }
  genericFunction := Function.update table.genericFunction method none

/-- The check of compute-g-f-spec-list: a method with another number of specializers than
those before. -/
def specHowLength : Nat → List Nat → Option MethodFailure
  | _, [] => none
  | old, new :: rest =>
    if old ≠ 0 ∧ old ≠ new then some .newSpecialization else specHowLength new rest

def reinitializeLambdaList (table : MethodTable Gf Meth Λ) (gf : Gf) (lambdaList : Λ) :
    MethodTable Gf Meth Λ × Option MethodFailure :=
  if (table.slots gf).methods.all fun method =>
    lists.congruent lambdaList (methods.lambdaList method) then
    ({ table with
        slots := Function.update table.slots gf
          { table.slots gf with
            lambdaList := some lambdaList
            argumentPrecedenceOrder := lists.required lambdaList } },
      specHowLength 0
        ((table.slots gf).methods.map fun method => (methods.specializers method).length))
  else (table, some .incongruentWithMethods)

/-- Step 2 of add-method. -/
def checkLambdaList (table : MethodTable Gf Meth Λ) (gf : Gf) (method : Meth) :
    MethodTable Gf Meth Λ × Option MethodFailure :=
  match (table.slots gf).lambdaList with
  | some oldLambdaList =>
    if lists.congruent oldLambdaList (methods.lambdaList method) then (table, none)
    else (table, some .notCongruent)
  | none => reinitializeLambdaList methods lists table gf (methods.lambdaList method)

/-- The removal in step 3 of add-method. -/
def replaceMethod (table : MethodTable Gf Meth Λ) (gf : Gf) (method : Meth) :
    Except MethodFailure (MethodTable Gf Meth Λ) :=
  if (table.slots gf).methods = [] then .ok table
  else
    (findMethod image methods lists table gf (methods.qualifiers method)
      (methods.specializers method)
      false).map fun
      | some found => removeMethod table gf found
      | none => table

/-- The method is pushed to the list and marked. -/
def installMethod (table : MethodTable Gf Meth Λ) (gf : Gf) (method : Meth) :
    MethodTable Gf Meth Λ where
  slots := Function.update table.slots gf
    { table.slots gf with methods := method :: (table.slots gf).methods }
  genericFunction := Function.update table.genericFunction method (some gf)

/-- add-method: what is left in the tables, and the error. -/
def addMethod (table : MethodTable Gf Meth Λ) (gf : Gf) (method : Meth) :
    MethodTable Gf Meth Λ × Option MethodFailure :=
  if table.genericFunction method ≠ none ∧ table.genericFunction method ≠ some gf then
    (table, some .belongsToAnother)
  else
    match checkLambdaList methods lists table gf method with
    | (table, some failure) => (table, some failure)
    | (table, none) =>
      match replaceMethod image methods lists table gf method with
      | .error failure => (table, some failure)
      | .ok table =>
        let table := installMethod table gf method
        (table, specHowLength 0
          ((table.slots gf).methods.map fun method => (methods.specializers method).length))

/-- A call on a generic function. -/
inductive MethodCall (Meth : Type) where
  | add (method : Meth)
  | remove (method : Meth)

/-- The tables after a call, whether or not it signals an error. -/
def callMethod (gf : Gf) (table : MethodTable Gf Meth Λ) : MethodCall Meth → MethodTable Gf Meth Λ
  | .add method => (addMethod image methods lists table gf method).1
  | .remove method => removeMethod table gf method

end Calls

/-- EQL is reflexive and finer than EQUAL, which is an equivalence. -/
structure Image.EqualLaws (image : Image Obj) : Prop where
  eql_refl : ∀ x, image.eql x x = true
  equal_of_eql : ∀ {x y}, image.eql x y = true → image.equal x y = true
  equal_symm : ∀ {x y}, image.equal x y = true → image.equal y x = true
  equal_trans : ∀ x y z, image.equal x y = true → image.equal y z = true → image.equal x z = true

section Lists

variable {α : Type} {same same' : α → α → Bool}

theorem equalLists_symm (symm : ∀ {x y}, same x y = true → same y x = true) : ∀ {l l' : List α},
    equalLists same l l' = true → equalLists same l' l = true
  | [], [], _ => rfl
  | x :: l, y :: l', alike => by
      rw [equalLists, and_eq_true] at alike ⊢
      exact ⟨symm alike.1, equalLists_symm symm alike.2⟩

theorem equalLists_trans (trans : ∀ x y z, same x y = true → same y z = true → same x z = true) :
    ∀ {l l' l'' : List α}, equalLists same l l' = true → equalLists same l' l'' = true →
      equalLists same l l'' = true
  | [], [], [], _, _ => rfl
  | x :: l, y :: l', z :: l'', first, second => by
      rw [equalLists, and_eq_true] at first second ⊢
      exact ⟨trans _ _ _ first.1 second.1, equalLists_trans trans first.2 second.2⟩

theorem equalLists_mono (finer : ∀ {x y}, same x y = true → same' x y = true) : ∀ {l l' : List α},
    equalLists same l l' = true → equalLists same' l l' = true
  | [], [], _ => rfl
  | x :: l, y :: l', alike => by
      rw [equalLists, and_eq_true] at alike ⊢
      exact ⟨finer alike.1, equalLists_mono finer alike.2⟩

end Lists

section Agreement

variable [DecidableEq Obj] (image : Image Obj) (methods : MethodSlots Obj Meth Λ)

/-- What find-method compares. -/
def alike (method method' : Meth) : Bool :=
  equalLists image.equal (methods.qualifiers method) (methods.qualifiers method') &&
    equalLists (equalSpecializers image) (methods.specializers method)
      (methods.specializers method')

/-- Agreement on qualifiers and specializers. -/
def agree (method method' : Meth) : Bool :=
  equalLists image.equal (methods.qualifiers method) (methods.qualifiers method') &&
    equalLists (eqlSpecializers image) (methods.specializers method) (methods.specializers method')

variable {image} {methods}

theorem equalSpecializers_symm (laws : image.EqualLaws) : ∀ {x y : Option (Specializer Obj)},
    equalSpecializers image x y = true → equalSpecializers image y x = true
  | none, none, _ => rfl
  | some (.ofClass _), some (.ofClass _), same => decide_eq_true (of_decide_eq_true same).symm
  | some (.eql _), some (.eql _), same => laws.equal_symm same

theorem equalSpecializers_trans (laws : image.EqualLaws) : ∀ x y z : Option (Specializer Obj),
    equalSpecializers image x y = true → equalSpecializers image y z = true →
      equalSpecializers image x z = true
  | none, none, none, _, _ => rfl
  | some (.ofClass _), some (.ofClass _), some (.ofClass _), first, second =>
    decide_eq_true ((of_decide_eq_true first).trans (of_decide_eq_true second))
  | some (.eql _), some (.eql _), some (.eql _), first, second =>
      laws.equal_trans _ _ _ first second

theorem equalSpecializers_of_eql (laws : image.EqualLaws) : ∀ {x y : Option (Specializer Obj)},
    eqlSpecializers image x y = true → equalSpecializers image x y = true
  | none, none, _ => rfl
  | some (.ofClass _), some (.ofClass _), same => same
  | some (.eql _), some (.eql _), same => laws.equal_of_eql same

theorem alike_of_agree (laws : image.EqualLaws) {m m' : Meth}
    (both : agree image methods m m' = true) :
    alike image methods m m' = true := by
  rw [agree, and_eq_true] at both
  rw [alike, and_eq_true]
  exact ⟨both.1, equalLists_mono (equalSpecializers_of_eql laws) both.2⟩

theorem alike_symm (laws : image.EqualLaws) {m m' : Meth} (both : alike image methods m m' = true) :
    alike image methods m' m = true := by
  rw [alike, and_eq_true] at both ⊢
  exact ⟨equalLists_symm laws.equal_symm both.1,
    equalLists_symm (equalSpecializers_symm laws) both.2⟩

theorem alike_trans (laws : image.EqualLaws) {m m' m'' : Meth}
    (first : alike image methods m m' = true)
    (second : alike image methods m' m'' = true) : alike image methods m m'' = true := by
  rw [alike, and_eq_true] at first second ⊢
  exact ⟨equalLists_trans laws.equal_trans first.1 second.1,
    equalLists_trans (equalSpecializers_trans laws) first.2 second.2⟩

end Agreement

section Effects

variable [DecidableEq Obj] [DecidableEq Meth] [DecidableEq Gf] {image : Image Obj}
  {methods : MethodSlots Obj Meth Λ} {lists : LambdaLists Λ} {gf : Gf}
    {table table' : MethodTable Gf Meth Λ}

/-- What holds of a generic function between calls. -/
structure MethodsLinked (image : Image Obj) (methods : MethodSlots Obj Meth Λ) (gf : Gf)
    (table : MethodTable Gf Meth Λ) : Prop where
  apart : (table.slots gf).methods.Pairwise fun m m' => alike image methods m m' = false
  linked : ∀ m, table.genericFunction m = some gf ↔ m ∈ (table.slots gf).methods

theorem removeMethod_methods (table : MethodTable Gf Meth Λ) (gf : Gf) (method : Meth) :
    ((removeMethod table gf method).slots gf).methods = (table.slots gf).methods.filter
    (· ≠ method) := by
  simp only [removeMethod, update_self]

theorem MethodsLinked.remove (consistent : MethodsLinked image methods gf table) (method : Meth) :
    MethodsLinked image methods gf (removeMethod table gf method) := by
  refine ⟨?_, fun m => ?_⟩
  · rw [removeMethod_methods]
    exact consistent.apart.filter _
  · rw [removeMethod_methods, mem_filter, decide_eq_true_eq, ← consistent.linked m]
    by_cases same : m = method
    · subst same
      simp [removeMethod]
    · simp [removeMethod, same]

theorem installMethod_methods (table : MethodTable Gf Meth Λ) (gf : Gf) (method : Meth) :
    ((installMethod table gf method).slots gf).methods = method :: (table.slots gf).methods := by
  simp only [installMethod, update_self]

theorem MethodsLinked.install (consistent : MethodsLinked image methods gf table) {method : Meth}
    (new : ∀ m ∈ (table.slots gf).methods, alike image methods method m = false) :
    MethodsLinked image methods gf (installMethod table gf method) := by
  refine ⟨?_, fun m => ?_⟩
  · rw [installMethod_methods]
    exact pairwise_cons.mpr ⟨new, consistent.apart⟩
  · rw [installMethod_methods, mem_cons, ← consistent.linked m]
    by_cases same : m = method
    · subst same
      simp [installMethod]
    · simp [installMethod, same]

omit [DecidableEq Obj] [DecidableEq Meth] in
theorem checkLambdaList_keeps (methods : MethodSlots Obj Meth Λ) (lists : LambdaLists Λ)
    (table : MethodTable Gf Meth Λ) (gf : Gf) (method : Meth) :
    ((checkLambdaList methods lists table gf method).1.slots gf).methods =
    (table.slots gf).methods ∧
      (checkLambdaList methods lists table gf method).1.genericFunction =
        table.genericFunction := by
  rw [checkLambdaList]
  cases (table.slots gf).lambdaList with
  | some old =>
    dsimp only
    split <;> exact ⟨rfl, rfl⟩
  | none =>
    dsimp only
    rw [reinitializeLambdaList]
    split
    · exact ⟨by simp only [update_self], rfl⟩
    · exact ⟨rfl, rfl⟩

omit [DecidableEq Meth] [DecidableEq Gf] in
theorem MethodsLinked.congr (consistent : MethodsLinked image methods gf table)
    (same : (table'.slots gf).methods = (table.slots gf).methods)
    (links : table'.genericFunction = table.genericFunction) :
      MethodsLinked image methods gf table' := by
  refine ⟨by rw [same]; exact consistent.apart, fun m => ?_⟩
  rw [same, links]
  exact consistent.linked m

omit [DecidableEq Gf] in
theorem MethodsLinked.alone (laws : image.EqualLaws)
    (consistent : MethodsLinked image methods gf table)
    {m m' : Meth} (member : m ∈ (table.slots gf).methods) (member' : m' ∈ (table.slots gf).methods)
    (both : alike image methods m m' = true) : m' = m := by
  have symmetric : Std.Symm fun m m' => alike image methods m m' = false := by
    refine ⟨fun m m' apart => eq_false_iff.mpr fun both => ?_⟩
    rw [alike_symm laws both] at apart
    cases apart
  by_contra differ
  have apart := consistent.apart.forall member member' (Ne.symm differ)
  rw [both] at apart
  cases apart

omit [DecidableEq Meth] [DecidableEq Gf] in
theorem findMethod_find {method : Meth} {errorp : Bool} {result : Option Meth}
    (search : findMethod image methods lists table gf (methods.qualifiers method)
      (methods.specializers method) errorp = .ok result) :
    (table.slots gf).methods.find? (alike image methods method) = result := by
  rw [findMethod] at search
  cases lambdaList : (table.slots gf).lambdaList with
  | none =>
    rw [lambdaList] at search
    cases search
  | some list =>
    rw [lambdaList] at search
    dsimp only at search
    by_cases long : (methods.specializers method).length > lists.length list
    · rw [if_pos long] at search
      cases search
    rw [if_neg long] at search
    change (match (table.slots gf).methods.find? (alike image methods method) with
      | some method => _
      | none => _) = _ at search
    cases found : (table.slots gf).methods.find? (alike image methods method) with
    | some m =>
      rw [found] at search
      exact Except.ok.inj search
    | none =>
      rw [found] at search
      dsimp only at search
      split at search
      · cases search
      · split at search
        · cases search
        · exact Except.ok.inj search

/-- The methods that find-method takes for the new one, of which there is at most one, are
removed. -/
theorem replaceMethod_spec (laws : image.EqualLaws)
    (consistent : MethodsLinked image methods gf table)
    {method : Meth} (replaced : replaceMethod image methods lists table gf method = .ok table') :
    MethodsLinked image methods gf table' ∧
      (table'.slots gf).methods =
        (table.slots gf).methods.filter fun m => !alike image methods method m := by
  rw [replaceMethod] at replaced
  by_cases empty : (table.slots gf).methods = []
  · rw [if_pos empty] at replaced
    cases replaced
    rw [empty]
    exact ⟨consistent, rfl⟩
  rw [if_neg empty] at replaced
  cases search : findMethod image methods lists table gf (methods.qualifiers method)
      (methods.specializers method) false with
  | error failure =>
    rw [search] at replaced
    cases replaced
  | ok result =>
    rw [search] at replaced
    cases result with
    | none =>
      cases replaced
      refine ⟨consistent, (filter_eq_self.mpr fun m member => ?_).symm⟩
      have apart := List.find?_eq_none.mp (findMethod_find search) m member
      simpa using apart
    | some found =>
      cases replaced
      have member := mem_of_find?_eq_some (findMethod_find search)
      have same := List.find?_some (findMethod_find search)
      refine ⟨consistent.remove found, ?_⟩
      rw [removeMethod_methods]
      refine filter_congr fun m inside => ?_
      by_cases other : m = found
      · subst other
        simp [same]
      · have differ : alike image methods method m = false := by
          refine eq_false_iff.mpr fun both => ?_
          have again := alike_trans laws (alike_symm laws same) both
          rw [consistent.alone laws member inside again] at other
          exact other rfl
        simp [other, differ]

/-- A method is added: those that are alike are gone, and what holds between calls is kept. -/
theorem addMethod_spec (laws : image.EqualLaws) (consistent : MethodsLinked image methods gf table)
    (method : Meth) :
    MethodsLinked image methods gf (addMethod image methods lists table gf method).1 ∧
      ((addMethod image methods lists table gf method).2 = none →
        ((addMethod image methods lists table gf method).1.slots gf).methods =
          method :: (table.slots gf).methods.filter fun m => !alike image methods method m) := by
  rw [addMethod]
  by_cases foreign : table.genericFunction method ≠ none ∧ table.genericFunction method ≠ some gf
  · rw [if_pos foreign]
    exact ⟨consistent, nofun⟩
  rw [if_neg foreign]
  obtain ⟨same, links⟩ := checkLambdaList_keeps methods lists table gf method
  rcases check : checkLambdaList methods lists table gf method with ⟨checked, failure⟩
  rw [check] at same links
  dsimp only at same links
  have consistent' := consistent.congr same links
  cases failure with
  | some failure => exact ⟨consistent', nofun⟩
  | none =>
    dsimp only
    cases replaced : replaceMethod image methods lists checked gf method with
    | error failure => exact ⟨consistent', nofun⟩
    | ok table' =>
      obtain ⟨removed, left⟩ := replaceMethod_spec laws consistent' replaced
      dsimp only
      refine ⟨removed.install fun m member => ?_, fun _ => ?_⟩
      · rw [left, mem_filter] at member
        simpa using member.2
      · rw [installMethod_methods, left, same]

theorem MethodsLinked.run (laws : image.EqualLaws) (calls : List (MethodCall Meth)) : ∀ {table},
    MethodsLinked image methods gf table →
      MethodsLinked image methods gf (calls.foldl (callMethod image methods lists gf) table) := by
  induction calls with
  | nil => exact id
  | cons call calls next =>
    intro table consistent
    refine next ?_
    cases call with
    | add method => exact (addMethod_spec laws consistent method).1
    | remove method => exact consistent.remove method

/-- A new generic function, which no method belongs to. -/
def Unused (gf : Gf) (table : MethodTable Gf Meth Λ) : Prop :=
  (table.slots gf).methods = [] ∧ ∀ m, table.genericFunction m ≠ some gf

omit [DecidableEq Meth] [DecidableEq Gf] in
theorem Unused.consistent (unused : Unused gf table) : MethodsLinked image methods gf table := by
  refine ⟨?_, fun m => ?_⟩
  · rw [unused.1]
    exact .nil
  · rw [unused.1]
    exact ⟨fun belongs => absurd belongs (unused.2 m), fun never => by cases never⟩

/-- The method that agrees with the new one goes, and no other. -/
def ReplacesAgreeing (image : Image Obj) (methods : MethodSlots Obj Meth Λ) (gf : Gf)
    (before after : MethodTable Gf Meth Λ) (method : Meth) : Prop :=
  (after.slots gf).methods = method :: (before.slots gf).methods.filter fun m =>
    !agree image methods method m

/-- In every run on a new generic function, its methods disagree and are those that belong to
it; and a method is added as it should be iff none of those there is taken for it by EQUAL only. -/
theorem addMethod_runs (laws : image.EqualLaws) (unused : Unused gf table)
    (calls : List (MethodCall Meth)) :
    let before := calls.foldl (callMethod image methods lists gf) table
    (before.slots gf).methods.Pairwise (fun m m' => agree image methods m m' = false) ∧
      (∀ m, before.genericFunction m = some gf ↔ m ∈ (before.slots gf).methods) ∧
      ∀ method after, addMethod image methods lists before gf method = (after, none) →
        (ReplacesAgreeing image methods gf before after method ↔
          ∀ m ∈ (before.slots gf).methods, alike image methods method m = true →
            agree image methods method m = true) := by
  intro before
  have consistent : MethodsLinked image methods gf before := unused.consistent.run laws calls
  refine ⟨consistent.apart.imp fun apart => ?_, consistent.linked, fun method after added => ?_⟩
  · refine Bool.eq_false_iff.mpr fun both => ?_
    rw [alike_of_agree laws both] at apart
    cases apart
  obtain ⟨-, kept⟩ :
      MethodsLinked image methods gf (addMethod image methods lists before gf method).1 ∧ _ :=
    addMethod_spec laws consistent method
  rw [added] at kept
  rw [ReplacesAgreeing, kept rfl, List.cons.injEq]
  constructor
  · intro ⟨_, same⟩ m member found
    by_contra apart
    have remains : m ∈ (before.slots gf).methods.filter fun m => !agree image methods method m :=
      mem_filter.mpr ⟨member, by simpa using apart⟩
    rw [← same, mem_filter, found] at remains
    exact Bool.false_ne_true remains.2
  · intro finer
    refine ⟨rfl, filter_congr fun m member => ?_⟩
    by_cases found : alike image methods method m = true
    · rw [found, finer m member found]
    · have apart : ¬agree image methods method m = true := mt (alike_of_agree laws) found
      rw [Bool.not_eq_true] at found apart
      rw [found, apart]

end Effects

/-- Strings by their characters and their place in memory. -/
def strings : Image (Char × Nat) where
  classOf := id
  precedenceList _ := []
  eql x y := x = y
  equal x y := x.1 = y.1
  nil := ('N', 0)

theorem strings_equalLaws : strings.EqualLaws where
  eql_refl _ := decide_eq_true rfl
  equal_of_eql same := decide_eq_true (congrArg Prod.fst (of_decide_eq_true same))
  equal_symm same := decide_eq_true (of_decide_eq_true same).symm
  equal_trans _ _ _ first second :=
    decide_eq_true ((of_decide_eq_true first).trans (of_decide_eq_true second))

/-- Method `n` is specialized on the string at place `n`. -/
def onStrings : MethodSlots (Char × Nat) Nat Unit where
  qualifiers _ := []
  specializers n := [some (.eql ('a', n))]
  lambdaList _ := ()

def oneArgument : LambdaLists Unit := ⟨fun _ _ => true, fun _ => 1, fun _ => 1⟩

def noMethods : MethodTable Unit Nat Unit := ⟨fun _ => ⟨none, 0, []⟩, fun _ => none⟩

theorem noMethods_unused : Unused () noMethods := ⟨rfl, nofun⟩

theorem addMethod_runs_strings :
    let before := [MethodCall.add 0].foldl (callMethod strings onStrings oneArgument ()) noMethods
    (∀ m, before.genericFunction m = some () ↔ m ∈ (before.slots ()).methods) ∧
      (before.slots ()).methods = [0] :=
  ⟨(addMethod_runs strings_equalLaws noMethods_unused [.add 0]).2.1, rfl⟩

/-- The method on one string replaces that on the other. -/
theorem addMethod_replaces_equal :
    let before := [MethodCall.add 0].foldl (callMethod strings onStrings oneArgument ()) noMethods
    let after := addMethod strings onStrings oneArgument before () 1
    agree strings onStrings 1 0 = false ∧ after.2 = none ∧ (after.1.slots ()).methods = [1] ∧
      ¬ReplacesAgreeing strings onStrings () before after.1 1 := by
  refine ⟨by decide, by decide, by decide, ?_⟩
  rw [ReplacesAgreeing]
  decide

end Ecl.Clos
