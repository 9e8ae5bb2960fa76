import Ecl.Lib.Select
import Ecl.Lib.Stable

/- The selection of methods for the arguments of a call. -/
namespace Ecl.Clos

/-- Objects are compared as pointers; classes are objects. -/
structure Image (Obj : Type) where
  classOf : Obj → Obj
  /-- Slot 4 of a class, CLASS-PRECEDENCE-LIST. -/
  precedenceList : Obj → List Obj
  eql : Obj → Obj → Bool
  equal : Obj → Obj → Bool
  nil : Obj

/-- A specializer: a class, or a list (EQL x). -/
inductive Specializer (Obj : Type) where
  | ofClass (c : Obj)
  | eql (x : Obj)
  deriving DecidableEq

/-- Errors of the selection. -/
inductive Failure where
  /-- CLASS-PRECEDENCE-LIST of the NIL behind the last argument. -/
  | noArgument
  /-- FIRST of a class. -/
  | notList
  /-- "Complex type specifiers are not yet supported." -/
  | complexSpecifiers
  /-- DESTRUCTURING-BIND of the wrong number of specializers. -/
  | badSpecializers
  /-- FEwrong_num_arguments. -/
  | wrongNumArguments
  deriving DecidableEq

/-- What COMPARE-SPECIALIZERS answers: 1, 2 or =. -/
inductive Comparison where
  | first
  | second
  | same
  deriving DecidableEq

section Comparing

variable {Obj : Type} [DecidableEq Obj] (image : Image Obj)

def subclassp (low high : Obj) : Bool :=
  low = high || high ∈ image.precedenceList low

def ofClassP (object c : Obj) : Bool :=
  image.classOf object = c || c ∈ image.precedenceList (image.classOf object)

/-- EQUAL of two specializers. -/
def equalSpecializers : Option (Specializer Obj) → Option (Specializer Obj) → Bool
  | none, none => true
  | some (.ofClass c), some (.ofClass d) => c = d
  | some (.eql x), some (.eql y) => image.equal x y
  | _, _ => false

def fastSubtypep : Specializer Obj → Specializer Obj → Except Failure Bool
  | .ofClass c, .ofClass d => .ok (subclassp image c d)
  -- (class-name (first spec1)), where spec1 is a class
  | .ofClass _, .eql y => if y = image.nil then .error .notList else .ok false
  | .eql x, .ofClass d => .ok (ofClassP image x d)
  | .eql x, .eql y => .ok (image.eql x y)

/-- MEMBER: the tail of the list that starts with the element. -/
def member (x : Obj) (l : List Obj) : List Obj := l.dropWhile (· ≠ x)

/-- The clauses of COMPARE-SPECIALIZERS behind the subtype tests. -/
def compareUnrelated (cpl : List Obj) :
    Specializer Obj → Specializer Obj → Except Failure Comparison
  | .eql _, _ => .ok .first
  | _, .eql _ => .ok .second
  | .ofClass c, .ofClass d =>
    if c ∈ member d cpl then .ok .second
    else if d ∈ member c cpl then .ok .first
    else .error .complexSpecifiers

def compareSpecializers (spec1 spec2 : Option (Specializer Obj)) (argClass : Option Obj) :
    Except Failure Comparison :=
  match argClass with
  | none => .error .noArgument
  | some argClass =>
    if equalSpecializers image spec1 spec2 then .ok .same
    else
      match spec1, spec2 with
      | none, _ => .ok .second
      | _, none => .ok .first
      | some spec1, some spec2 => do
          if ← fastSubtypep image spec1 spec2 then return .first
          if ← fastSubtypep image spec2 spec1 then return .second
          compareUnrelated (image.precedenceList argClass) spec1 spec2

/-- COMPARE-SPECIALIZERS-LISTS, on the pairs of specializers. -/
def compareSpecializersPairs :
    List (Option (Specializer Obj) × Option (Specializer Obj)) → List Obj →
      Except Failure Comparison
  | [], _ => .ok .same
  | (spec1, spec2) :: pairs, argsSpecializers => do
      match ← compareSpecializers image spec1 spec2 argsSpecializers.head? with
      | .same => compareSpecializersPairs pairs argsSpecializers.tail
      | decided => return decided

/-- COMPARE-SPECIALIZERS-LISTS: a list that ends early is continued with NIL. -/
def compareSpecializersLists (specList1 specList2 : List (Option (Specializer Obj)))
    (argsSpecializers : List Obj) : Except Failure Comparison :=
  compareSpecializersPairs image
    (List.zipWithAll (fun spec1 spec2 => (spec1.join, spec2.join)) specList1 specList2)
    argsSpecializers

/-- One argument against its specializer. -/
def satisfies (arg : Obj) : Option (Specializer Obj) → Bool
  | none => true
  | some (.eql x) => image.eql arg x
  | some (.ofClass c) => ofClassP image arg c

/-- The loop that tests the arguments against the specializers of a method. -/
def applicable : List Obj → List (Option (Specializer Obj)) → Bool
  | [], _ => true
  | arg :: args, specializers =>
    satisfies image arg specializers.head?.join && applicable args specializers.tail

end Comparing

/-- A generic function with the names of its required parameters. Methods are
added by add-method, which keeps out duplicates and incongruent lambda lists. -/
structure GenericFunction (Obj Meth Sym : Type) where
  self : Obj
  required : List Sym
  argumentPrecedenceOrder : List Sym
  methods : List Meth
  specializers : Meth → List (Option (Specializer Obj))
  required_nodup : required.Nodup
  order_perm : argumentPrecedenceOrder.Perm required
  methods_nodup : methods.Nodup
  congruent : ∀ m ∈ methods, (specializers m).length = required.length

namespace GenericFunction

variable {Obj Meth Sym : Type} [DecidableEq Sym]

/-- The lambda expression that COMPUTE-G-F-SPEC-LIST builds for another argument
precedence order. -/
def reorder {α : Type} (gf : GenericFunction Obj Meth Sym) (l : List α) :
    Except Failure (List α) :=
  if l.length = gf.required.length then
    match gf.argumentPrecedenceOrder.mapM fun name => l[gf.required.idxOf name]? with
    | some reordered => .ok reordered
    | none => .error .badSpecializers
  else .error .badSpecializers

/-- generic-function-a-p-o-function applied to a list of specializers; it is NIL
for the order of the lambda list. -/
def aPOFunction {α : Type} (gf : GenericFunction Obj Meth Sym) (l : List α) :
    Except Failure (List α) :=
  if gf.argumentPrecedenceOrder = gf.required then .ok l else gf.reorder l

variable [DecidableEq Obj]

def compareMethods (image : Image Obj) (gf : GenericFunction Obj Meth Sym)
    (argsSpecializers : List Obj) (method1 method2 : Meth) : Except Failure Comparison := do
  let list1 ← gf.aPOFunction (gf.specializers method1)
  let list2 ← gf.aPOFunction (gf.specializers method2)
  compareSpecializersLists image list1 list2 argsSpecializers

/-- The test of the ordering loop: the second method becomes the most specific
one. -/
def replaces (image : Image Obj) (gf : GenericFunction Obj Meth Sym) (args : List Obj)
    (mostSpecific method : Meth) : Except Failure Bool :=
  (gf.compareMethods image (args.map image.classOf) mostSpecific method).map (· = .second)

/-- The applicable methods, in the order in which they are stored. -/
def applicableMethods (image : Image Obj) (gf : GenericFunction Obj Meth Sym) (args : List Obj) :
    List Meth :=
  gf.methods.filter fun method => applicable image args (gf.specializers method)

def computeApplicableMethods [DecidableEq Meth] (image : Image Obj)
    (gf : GenericFunction Obj Meth Sym)
    (args : List Obj) : Except Failure (List Meth) :=
  Select.select (gf.replaces image args) (gf.applicableMethods image args).reverse

end GenericFunction

/- When one list of specializers is more specific than another. -/

/-- What the selection relies on: EQL is an equivalence that EQUAL and CLASS-OF
respect, and the precedence list of the class of an object contains that class,
and each of its members before the superclasses of that member. -/
structure Image.Lawful {Obj : Type} (image : Image Obj) : Prop where
  eql_symm : ∀ {x y}, image.eql x y = true → image.eql y x = true
  eql_trans : ∀ {x y z}, image.eql x y = true → image.eql y z = true → image.eql x z = true
  equal_of_eql : ∀ {x y}, image.eql x y = true → image.equal x y = true
  classOf_eql : ∀ {x y}, image.eql x y = true → image.classOf x = image.classOf y
  nodup : ∀ x, (image.precedenceList (image.classOf x)).Nodup
  self : ∀ x, image.classOf x ∈ image.precedenceList (image.classOf x)
  before : ∀ {x c d}, c ∈ image.precedenceList (image.classOf x) → d ∈ image.precedenceList c →
    c ≠ d → [c, d].Sublist (image.precedenceList (image.classOf x))

/-- A specializer as far as it orders methods that apply to the same argument:
NIL, some object, or a class. -/
def kind {Obj : Type} : Option (Specializer Obj) → Option (Option Obj)
  | none => none
  | some (.eql _) => some none
  | some (.ofClass c) => some (some c)

/-- More specific, for an argument with the given precedence list: EQL before
classes, classes by their position in the list, NIL last. -/
def MoreSpecific {Obj : Type} (cpl : List Obj) :
    Option (Option Obj) → Option (Option Obj) → Prop
  | some none, some (some _) => True
  | some (some c), some (some d) => c ≠ d ∧ [c, d].Sublist cpl
  | some _, none => True
  | _, _ => False

/-- The lexicographic order of lists of specializers. -/
def Precedes {Obj : Type} :
    List (Option (Option Obj)) → List (Option (Option Obj)) → List (List Obj) → Prop
  | k1 :: l1, k2 :: l2, cpl :: cpls => MoreSpecific cpl k1 k2 ∨ k1 = k2 ∧ Precedes l1 l2 cpls
  | _, _, _ => False

/-- A class among the kinds is in the precedence list. -/
def Inside {Obj : Type} (cpl : List Obj) (k : Option (Option Obj)) : Prop :=
  ∀ c, k = some (some c) → c ∈ cpl

section Order

variable {Obj : Type}

theorem moreSpecific_irrefl (cpl : List Obj) (k : Option (Option Obj)) :
    ¬ MoreSpecific cpl k k := by
  rcases k with - | - | c
  · exact id
  · exact id
  · exact fun more => more.1 rfl

variable {cpl : List Obj} {k1 k2 : Option (Option Obj)}

theorem moreSpecific_total (inside1 : Inside cpl k1) (inside2 : Inside cpl k2) (differ : k1 ≠ k2) :
    MoreSpecific cpl k1 k2 ∨ MoreSpecific cpl k2 k1 := by
  rcases k1 with - | - | c <;> rcases k2 with - | - | d
  · exact absurd rfl differ
  · exact .inr trivial
  · exact .inr trivial
  · exact .inl trivial
  · exact absurd rfl differ
  · exact .inl trivial
  · exact .inl trivial
  · exact .inr trivial
  · have distinct : c ≠ d := fun same => differ (by rw [same])
    exact (Before.total distinct (inside1 c rfl) (inside2 d rfl)).imp (⟨distinct, ·⟩)
      (⟨distinct.symm, ·⟩)

theorem moreSpecific_asymm (nodup : cpl.Nodup)
    (more : MoreSpecific cpl k1 k2) : ¬ MoreSpecific cpl k2 k1 := by
  rcases k1 with - | - | c <;> rcases k2 with - | - | d <;>
    try first | exact more.elim | exact id
  exact fun back => Before.asymm nodup more.1 more.2 back.2

theorem moreSpecific_trans (nodup : cpl.Nodup) {k3 : Option (Option Obj)}
    (first : MoreSpecific cpl k1 k2) (second : MoreSpecific cpl k2 k3) :
    MoreSpecific cpl k1 k3 := by
  rcases k1 with - | - | c <;> rcases k2 with - | - | d <;> rcases k3 with - | - | e <;>
    try first | exact first.elim | exact second.elim | trivial
  refine ⟨fun same => ?_, Before.trans nodup first.2 second.2⟩
  subst same
  exact Before.asymm nodup first.1 first.2 second.2

/-- The classes of a list of kinds are in the precedence lists beside it. -/
abbrev Fits (kinds : List (Option (Option Obj))) (cpls : List (List Obj)) : Prop :=
  List.Forall₂ (fun k cpl => Inside cpl k) kinds cpls

theorem precedes_irrefl (l : List (Option (Option Obj))) :
    ∀ cpls : List (List Obj), ¬ Precedes l l cpls := by
  induction l with
  | nil => exact fun _ => id
  | cons k l ih =>
    intro cpls precedes
    cases cpls with
    | nil => exact precedes
    | cons cpl cpls => exact precedes.elim (moreSpecific_irrefl cpl k) fun later => ih cpls later.2

variable {cpls : List (List Obj)}

theorem precedes_total : ∀ {l1 l2 : List (Option (Option Obj))},
    Fits l1 cpls → Fits l2 cpls → l1 ≠ l2 → Precedes l1 l2 cpls ∨ Precedes l2 l1 cpls := by
  induction cpls with
  | nil =>
    intro l1 l2 fits1 fits2 differ
    cases fits1
    cases fits2
    exact absurd rfl differ
  | cons cpl cpls ih =>
    intro l1 l2 fits1 fits2 differ
    cases fits1 with
    | @cons k1 _ l1 _ inside1 fits1 =>
      cases fits2 with
      | @cons k2 _ l2 _ inside2 fits2 =>
        by_cases same : k1 = k2
        · subst same
          have later : l1 ≠ l2 := fun equal => differ (by rw [equal])
          exact (ih fits1 fits2 later).imp (fun less => .inr ⟨rfl, less⟩)
            fun less => .inr ⟨rfl, less⟩
        · exact (moreSpecific_total inside1 inside2 same).imp .inl .inl

theorem precedes_split (nodup : ∀ cpl ∈ cpls, cpl.Nodup) :
    ∀ {l1 l2 l3 : List (Option (Option Obj))}, Fits l1 cpls → Fits l2 cpls → Fits l3 cpls →
      Precedes l1 l3 cpls → Precedes l1 l2 cpls ∨ Precedes l2 l3 cpls := by
  induction cpls with
  | nil =>
    intro l1 l2 l3 fits1 fits2 fits3 less
    cases fits1
    exact less.elim
  | cons cpl cpls ih =>
    intro l1 l2 l3 fits1 fits2 fits3 less
    obtain ⟨distinct, nodup⟩ := List.forall_mem_cons.mp nodup
    cases fits1 with
    | @cons k1 _ l1 _ inside1 fits1 =>
    cases fits2 with
    | @cons k2 _ l2 _ inside2 fits2 =>
    cases fits3 with
    | @cons k3 _ l3 _ inside3 fits3 =>
      by_cases same : k1 = k2
      · subst same
        rcases less with more | ⟨rfl, less⟩
        · exact .inr (.inl more)
        · exact (ih nodup fits1 fits2 fits3 less).imp (fun less => .inr ⟨rfl, less⟩)
            fun less => .inr ⟨rfl, less⟩
      · rcases moreSpecific_total inside1 inside2 same with more | back
        · exact .inl (.inl more)
        · rcases less with more | ⟨rfl, less⟩
          · exact .inr (.inl (moreSpecific_trans distinct back more))
          · exact .inr (.inl back)

theorem precedes_asymm (nodup : ∀ cpl ∈ cpls, cpl.Nodup) :
    ∀ {l1 l2 : List (Option (Option Obj))}, Precedes l1 l2 cpls → ¬ Precedes l2 l1 cpls := by
  induction cpls with
  | nil =>
    intro l1 l2 less
    cases l1 <;> cases l2 <;> exact less.elim
  | cons cpl cpls ih =>
    intro l1 l2 less back
    obtain ⟨distinct, nodup⟩ := List.forall_mem_cons.mp nodup
    cases l1 with
    | nil => exact less
    | cons k1 l1 =>
      cases l2 with
      | nil => exact less
      | cons k2 l2 =>
        rcases less with more | ⟨rfl, less⟩
        · rcases back with more' | ⟨rfl, -⟩
          · exact moreSpecific_asymm distinct more more'
          · exact moreSpecific_irrefl cpl _ more
        · rcases back with more' | ⟨-, back⟩
          · exact moreSpecific_irrefl cpl _ more'
          · exact ih nodup less back

end Order

end Ecl.Clos
