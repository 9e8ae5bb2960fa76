import Ecl.Clos.Dispatch

/- The order of the applicable methods. -/
namespace Ecl.Clos

open List

variable {α : Type} {l : List α}

theorem mem_member_iff [DecidableEq α] {c d : α} (differ : c ≠ d) :
    d ∈ member c l ↔ [c, d].Sublist l := by
  induction l with
  | nil => simp [member]
  | cons e l ih =>
    by_cases here : e = c
    · subst here
      have start : member e (e :: l) = e :: l := by simp [member]
      rw [start, mem_cons, cons_sublist_cons, singleton_sublist]
      exact or_iff_right (Ne.symm differ)
    · have next : member c (e :: l) = member c l := by simp [member, here]
      rw [next, ih]
      constructor
      · exact fun sub => sub.cons e
      · intro sub
        cases sub with
        | cons _ sub => exact sub
        | cons_cons _ sub => exact absurd rfl here


section Comparing

variable {Obj : Type} [DecidableEq Obj] {image : Image Obj}

/-- An argument satisfies a specializer. -/
def Applies (image : Image Obj) (arg : Obj) (spec : Option (Specializer Obj)) : Prop :=
  satisfies image arg spec = true

/-- A comparison returns, with 2 when the second is more specific and not when
the first is. -/
def RightAnswer (result : Except Failure Comparison) (less greater : Prop) : Prop :=
  ∃ answer, result = .ok answer ∧ (greater → answer = .second) ∧ (less → answer ≠ .second)

/-- The code's comparison decides two different specializers by the class of the
argument it looks at as it would by the class of their own argument. Of two
classes neither of which inherits from the other, both precedence lists contain
the same one first; a class is not compared with (EQL NIL). -/
def Settled (image : Image Obj) (looked own : Obj) :
    Option (Specializer Obj) → Option (Specializer Obj) → Prop
  | some (.ofClass c), some (.ofClass d) =>
    subclassp image c d = true ∨ subclassp image d c = true ∨
      ([c, d].Sublist (image.precedenceList looked) ∧
        [c, d].Sublist (image.precedenceList own)) ∨
      ([d, c].Sublist (image.precedenceList looked) ∧
        [d, c].Sublist (image.precedenceList own))
  | some (.ofClass _), some (.eql y) => y ≠ image.nil
  | _, _ => True

variable {arg c : Obj}

theorem ofClassP_iff (lawful : image.Lawful) :
    ofClassP image arg c = true ↔ c ∈ image.precedenceList (image.classOf arg) := by
  simp only [ofClassP, Bool.or_eq_true, decide_eq_true_eq, or_iff_right_iff_imp]
  rintro rfl
  exact lawful.self arg

theorem Applies.inside (lawful : image.Lawful) {spec : Option (Specializer Obj)}
    (applies : Applies image arg spec) :
    Inside (image.precedenceList (image.classOf arg)) (kind spec) := by
  intro c isClass
  rcases spec with - | d | x <;> cases isClass
  exact (ofClassP_iff lawful).mp applies

variable {looked : Obj} {spec1 spec2 : Option (Specializer Obj)}

theorem compareSpecializers_same (lawful : image.Lawful) (applies1 : Applies image arg spec1)
    (applies2 : Applies image arg spec2) (same : kind spec1 = kind spec2) :
    compareSpecializers image spec1 spec2 (some looked) = .ok .same := by
  have equal : equalSpecializers image spec1 spec2 = true := by
    rcases spec1 with - | c | x <;> rcases spec2 with - | d | y <;> cases same
    · rfl
    · simp [equalSpecializers]
    · exact lawful.equal_of_eql (lawful.eql_trans (lawful.eql_symm applies1) applies2)
  simp [compareSpecializers, equal]

theorem rightAnswer_ok {answer : Comparison} {less greater : Prop} :
    RightAnswer (.ok answer) less greater ↔
      (greater → answer = .second) ∧ (less → answer ≠ .second) := by
  simp [RightAnswer]

variable {d : Obj}

theorem compareUnrelated_classes {cpl own : List Obj} (nodup : cpl.Nodup) (nodupOwn : own.Nodup)
    (differ : c ≠ d) (memberC : c ∈ own) (memberD : d ∈ own) :
    RightAnswer (compareUnrelated cpl (.ofClass c) (.ofClass d))
        (MoreSpecific own (some (some c)) (some (some d)))
        (MoreSpecific own (some (some d)) (some (some c))) ↔
      [c, d].Sublist cpl ∧ [c, d].Sublist own ∨ [d, c].Sublist cpl ∧ [d, c].Sublist own := by
  simp only [compareUnrelated, mem_member_iff differ, mem_member_iff differ.symm, MoreSpecific]
  have total := Before.total differ memberC memberD
  by_cases second : [d, c].Sublist cpl
  · have notFirst := Before.asymm nodup differ.symm second
    rw [if_pos second, rightAnswer_ok]
    constructor
    · intro right
      refine .inr ⟨second, total.resolve_left fun first => right.2 ⟨differ, first⟩ rfl⟩
    · rintro (⟨first, -⟩ | ⟨-, ownSecond⟩)
      · exact absurd first notFirst
      · exact ⟨fun _ => rfl,
          fun less => absurd less.2 (Before.asymm nodupOwn differ.symm ownSecond)⟩
  · rw [if_neg second]
    by_cases first : [c, d].Sublist cpl
    · rw [if_pos first, rightAnswer_ok]
      constructor
      · intro right
        refine .inl ⟨first, total.resolve_right fun ownSecond => ?_⟩
        cases right.1 ⟨differ.symm, ownSecond⟩
      · rintro (⟨-, ownFirst⟩ | ⟨again, -⟩)
        · exact ⟨fun greater => absurd greater.2 (Before.asymm nodupOwn differ ownFirst),
            fun _ => by decide⟩
        · exact absurd again second
    · rw [if_neg first]
      constructor
      · rintro ⟨answer, returned, -⟩
        cases returned
      · rintro (⟨again, -⟩ | ⟨again, -⟩)
        · exact absurd again first
        · exact absurd again second

theorem compareSpecializers_classes (differ : c ≠ d) (looked : Obj) :
    compareSpecializers image (some (.ofClass c)) (some (.ofClass d)) (some looked) =
      if subclassp image c d then .ok .first
      else if subclassp image d c then .ok .second
      else compareUnrelated (image.precedenceList looked) (.ofClass c) (.ofClass d) := by
  simp only [compareSpecializers, equalSpecializers, differ, decide_false, Bool.false_eq_true,
    if_false, fastSubtypep]
  cases subclassp image c d <;> cases subclassp image d c <;> rfl

theorem compareSpecializers_class_eql (lawful : image.Lawful) {y : Obj}
    (applies1 : Applies image arg (some (.ofClass c)))
    (applies2 : Applies image arg (some (.eql y)))
    (looked : Obj) :
    compareSpecializers image (some (.ofClass c)) (some (.eql y)) (some looked) =
      if y = image.nil then .error .notList else .ok .second := by
  have within : ofClassP image y c = true := by
    have inside := (ofClassP_iff lawful).mp applies1
    rw [lawful.classOf_eql applies2] at inside
    exact (ofClassP_iff lawful).mpr inside
  simp only [compareSpecializers, equalSpecializers, Bool.false_eq_true, if_false, fastSubtypep,
    within]
  split <;> rfl

theorem compareSpecializers_eql_class (lawful : image.Lawful) {x : Obj}
    (applies1 : Applies image arg (some (.eql x)))
    (applies2 : Applies image arg (some (.ofClass d)))
    (looked : Obj) :
    compareSpecializers image (some (.eql x)) (some (.ofClass d)) (some looked) = .ok .first := by
  have within : ofClassP image x d = true := by
    have inside := (ofClassP_iff lawful).mp applies2
    rw [lawful.classOf_eql applies1] at inside
    exact (ofClassP_iff lawful).mpr inside
  simp only [compareSpecializers, equalSpecializers, Bool.false_eq_true, if_false, fastSubtypep,
    within]
  rfl

theorem subclassp_sublist (lawful : image.Lawful) (differ : c ≠ d)
    (applies : Applies image arg (some (.ofClass c))) (inherits : subclassp image c d = true) :
    [c, d].Sublist (image.precedenceList (image.classOf arg)) := by
  simp only [subclassp, differ, decide_false, Bool.false_or, decide_eq_true_eq] at inherits
  exact lawful.before ((ofClassP_iff lawful).mp applies) inherits differ

/-- What the code answers for two different specializers is right exactly when
they are settled. -/
theorem compareSpecializers_differ (lawful : image.Lawful) {other : Obj}
    (applies1 : Applies image arg spec1)
    (applies2 : Applies image arg spec2) (differ : kind spec1 ≠ kind spec2) :
    RightAnswer (compareSpecializers image spec1 spec2 (some (image.classOf other)))
        (MoreSpecific (image.precedenceList (image.classOf arg)) (kind spec1) (kind spec2))
        (MoreSpecific (image.precedenceList (image.classOf arg)) (kind spec2) (kind spec1)) ↔
      Settled image (image.classOf other) (image.classOf arg) spec1 spec2 := by
  have nodup := lawful.nodup arg
  rcases spec1 with - | c | x <;> rcases spec2 with - | d | y
  · exact absurd rfl differ
  · simp [compareSpecializers, equalSpecializers, kind, MoreSpecific, Settled, RightAnswer]
  · simp [compareSpecializers, equalSpecializers, kind, MoreSpecific, Settled, RightAnswer]
  · simp [compareSpecializers, equalSpecializers, kind, MoreSpecific, Settled, RightAnswer]
  · have distinct : c ≠ d := fun same => differ (by rw [same])
    have insideC := (ofClassP_iff lawful).mp applies1
    have insideD := (ofClassP_iff lawful).mp applies2
    rw [compareSpecializers_classes distinct]
    by_cases below : subclassp image c d = true
    · have order := subclassp_sublist lawful distinct applies1 below
      rw [if_pos below, rightAnswer_ok]
      exact iff_of_true ⟨fun greater => absurd greater.2 (Before.asymm nodup distinct order),
        fun _ => by decide⟩ (.inl below)
    · rw [if_neg below]
      by_cases above : subclassp image d c = true
      · have order := subclassp_sublist lawful distinct.symm applies2 above
        rw [if_pos above, rightAnswer_ok]
        exact iff_of_true ⟨fun _ => rfl,
          fun less => absurd less.2 (Before.asymm nodup distinct.symm order)⟩ (.inr (.inl above))
      · rw [if_neg above]
        refine (compareUnrelated_classes (lawful.nodup other) nodup distinct insideC insideD).trans
          ?_
        simp only [Settled, below, above, false_or, Bool.false_eq_true]
  · rw [compareSpecializers_class_eql lawful applies1 applies2]
    by_cases null : y = image.nil
    · rw [if_pos null]
      refine iff_of_false ?_ fun settled => settled null
      rintro ⟨answer, returned, -⟩
      cases returned
    · rw [if_neg null, rightAnswer_ok]
      exact iff_of_true ⟨fun _ => rfl, fun less => less.elim⟩ null
  · simp [compareSpecializers, equalSpecializers, kind, MoreSpecific, Settled, RightAnswer]
  · rw [compareSpecializers_eql_class lawful applies1 applies2, rightAnswer_ok]
    exact iff_of_true ⟨fun greater => greater.elim, fun _ => by decide⟩ trivial
  · exact absurd rfl differ

theorem compareSpecializers_ne_same (lawful : image.Lawful) (applies1 : Applies image arg spec1)
    (applies2 : Applies image arg spec2) (differ : kind spec1 ≠ kind spec2) :
    compareSpecializers image spec1 spec2 (some looked) ≠ .ok .same := by
  rcases spec1 with - | c | x <;> rcases spec2 with - | d | y
  · exact absurd rfl differ
  · simp [compareSpecializers, equalSpecializers]
  · simp [compareSpecializers, equalSpecializers]
  · simp [compareSpecializers, equalSpecializers]
  · have distinct : c ≠ d := fun same => differ (by rw [same])
    rw [compareSpecializers_classes distinct]
    simp only [compareUnrelated]
    split_ifs <;> simp
  · rw [compareSpecializers_class_eql lawful applies1 applies2]
    split_ifs <;> simp
  · simp [compareSpecializers, equalSpecializers]
  · rw [compareSpecializers_eql_class lawful applies1 applies2]
    simp
  · exact absurd rfl differ

/-- Two lists of specializers are settled at the first place where they
differ. -/
def Decided (image : Image Obj) :
    List (Option (Specializer Obj)) → List (Option (Specializer Obj)) → List Obj → List Obj → Prop
  | spec1 :: list1, spec2 :: list2, looked :: lookedLater, own :: ownLater =>
    if kind spec1 = kind spec2 then Decided image list1 list2 lookedLater ownLater
    else Settled image looked own spec1 spec2
  | _, _, _, _ => True

theorem compareSpecializersLists_same {list1 list2 : List (Option (Specializer Obj))}
    {lookedLater : List Obj}
    (same : compareSpecializers image spec1 spec2 (some looked) = .ok .same) :
    compareSpecializersLists image (spec1 :: list1) (spec2 :: list2) (looked :: lookedLater) =
      compareSpecializersLists image list1 list2 lookedLater := by
  show compareSpecializersPairs image ((spec1, spec2) :: _) _ = _
  rw [compareSpecializersPairs, List.head?_cons, same]
  rfl

theorem compareSpecializersLists_of_ne_same
    {list1 list2 : List (Option (Specializer Obj))} {lookedLater : List Obj}
    (differ : compareSpecializers image spec1 spec2 (some looked) ≠ .ok .same) :
    compareSpecializersLists image (spec1 :: list1) (spec2 :: list2) (looked :: lookedLater) =
      compareSpecializers image spec1 spec2 (some looked) := by
  show compareSpecializersPairs image ((spec1, spec2) :: _) _ = _
  rw [compareSpecializersPairs, List.head?_cons]
  cases returned : compareSpecializers image spec1 spec2 (some looked) with
  | error failure => rfl
  | ok answer =>
    cases answer with
    | same => exact absurd returned differ
    | first => rfl
    | second => rfl

theorem compareSpecializersLists_right (lawful : image.Lawful) {args : List Obj} :
    ∀ {list1 list2 : List (Option (Specializer Obj))} {others : List Obj},
      List.Forall₂ (Applies image) args list1 → List.Forall₂ (Applies image) args list2 →
      args.length ≤ others.length →
      (RightAnswer (compareSpecializersLists image list1 list2 (others.map image.classOf))
          (Precedes (list1.map kind) (list2.map kind)
            (args.map (image.precedenceList ∘ image.classOf)))
          (Precedes (list2.map kind) (list1.map kind)
            (args.map (image.precedenceList ∘ image.classOf))) ↔
        Decided image list1 list2 (others.map image.classOf) (args.map image.classOf)) := by
  induction args with
  | nil =>
    intro list1 list2 others applies1 applies2 _
    cases applies1
    cases applies2
    refine iff_of_true ?_ trivial
    exact ⟨.same, rfl, fun less => less.elim, fun less => less.elim⟩
  | cons arg args ih =>
    intro list1 list2 others applies1 applies2 enough
    cases applies1 with
    | @cons _ spec1 _ list1 here1 applies1 =>
    cases applies2 with
    | @cons _ spec2 _ list2 here2 applies2 =>
    cases others with
    | nil => simp at enough
    | cons other others =>
      simp only [map_cons, Decided, Precedes, Function.comp_apply]
      by_cases same : kind spec1 = kind spec2
      · have more := moreSpecific_irrefl (image.precedenceList (image.classOf arg)) (kind spec2)
        rw [compareSpecializersLists_same (compareSpecializers_same lawful here1 here2 same),
          if_pos same]
        simp only [same, more, false_or, true_and]
        exact ih applies1 applies2 (by simpa using enough)
      · have back : ¬ kind spec2 = kind spec1 := fun equal => same equal.symm
        have notSame : compareSpecializers image spec1 spec2 (some (image.classOf other)) ≠
            .ok .same := compareSpecializers_ne_same lawful here1 here2 same
        have answer : compareSpecializersLists image (spec1 :: list1) (spec2 :: list2)
            (image.classOf other :: others.map image.classOf) =
            compareSpecializers image spec1 spec2 (some (image.classOf other)) :=
          compareSpecializersLists_of_ne_same notSame
        rw [answer, if_neg same]
        simp only [same, back, false_and, or_false]
        exact compareSpecializers_differ lawful here1 here2 same

theorem compareSpecializersLists_kinds (lawful : image.Lawful) {args : List Obj} :
    ∀ {list1 list2 : List (Option (Specializer Obj))} {others : List Obj},
      List.Forall₂ (Applies image) args list1 → List.Forall₂ (Applies image) args list2 →
      args.length ≤ others.length → list1.map kind = list2.map kind →
      compareSpecializersLists image list1 list2 (others.map image.classOf) = .ok .same := by
  induction args with
  | nil =>
    intro list1 list2 others applies1 applies2 _ _
    cases applies1
    cases applies2
    rfl
  | cons arg args ih =>
    intro list1 list2 others applies1 applies2 enough same
    cases applies1 with
    | @cons _ spec1 _ list1 here1 applies1 =>
    cases applies2 with
    | @cons _ spec2 _ list2 here2 applies2 =>
    cases others with
    | nil => simp at enough
    | cons other others =>
      obtain ⟨here, later⟩ := cons.inj same
      rw [map_cons, compareSpecializersLists_same
        (compareSpecializers_same lawful here1 here2 here)]
      exact ih applies1 applies2 (by simpa using enough) later

end Comparing

section Applicable

variable {Obj : Type} [DecidableEq Obj] {image : Image Obj}

theorem applicable_iff {args : List Obj} : ∀ {specializers : List (Option (Specializer Obj))},
    applicable image args specializers = true ↔
      ∀ (i : Nat) (arg : Obj) (spec : Option (Specializer Obj)), args[i]? = some arg →
        specializers[i]? = some spec → Applies image arg spec := by
  induction args with
  | nil => simp [applicable]
  | cons arg args ih =>
    intro specializers
    cases specializers with
    | nil =>
      rw [applicable, Bool.and_eq_true, tail_nil, ih]
      simp [satisfies]
    | cons spec specializers =>
      rw [applicable, Bool.and_eq_true, tail_cons, ih]
      change Applies image arg spec ∧ _ ↔ _
      constructor
      · rintro ⟨applies, later⟩ i other spec' found found'
        cases i with
        | zero =>
          cases found
          cases found'
          exact applies
        | succ i => exact later i other spec' found found'
      · exact fun all => ⟨all 0 arg spec rfl rfl, fun i => all (i + 1)⟩

end Applicable

theorem forall₂_filterMap {β γ : Type} {R : β → γ → Prop} {f : α → Option β} {g : α → Option γ}
    (related : ∀ x ∈ l, ∃ b c, f x = some b ∧ g x = some c ∧ R b c) :
    List.Forall₂ R (l.filterMap f) (l.filterMap g) := by
  induction l with
  | nil => exact .nil
  | cons x l ih =>
    obtain ⟨⟨b, c, left, right, here⟩, later⟩ := forall_mem_cons.mp related
    rw [filterMap_cons_some left, filterMap_cons_some right]
    exact .cons here (ih later)

theorem mapM_some {β : Type} {f : α → Option β}
    (found : ∀ x ∈ l, (f x).isSome = true) : l.mapM f = some (l.filterMap f) := by
  induction l with
  | nil => rfl
  | cons x l ih =>
    obtain ⟨here, later⟩ := forall_mem_cons.mp found
    obtain ⟨y, isSome⟩ := Option.isSome_iff_exists.mp here
    rw [mapM_cons, isSome, ih later, filterMap_cons_some isSome]
    rfl

theorem filterMap_getElem?_idxOf {Sym : Type} [DecidableEq Sym] {names : List Sym}
    (nodup : names.Nodup) (length : l.length = names.length) :
    names.filterMap (fun name => l[names.idxOf name]?) = l := by
  induction names generalizing l with
  | nil =>
    cases eq_nil_of_length_eq_zero length
    rfl
  | cons name names ih =>
    cases l with
    | nil => simp at length
    | cons x l =>
      obtain ⟨fresh, nodup⟩ := nodup_cons.mp nodup
      have later : names.filterMap (fun other => (x :: l)[(name :: names).idxOf other]?) =
          names.filterMap fun other => l[names.idxOf other]? := by
        refine filterMap_congr fun other member => ?_
        have differ : name ≠ other := fun same => fresh (same ▸ member)
        rw [idxOf_cons_ne _ differ, List.getElem?_cons_succ]
      rw [filterMap_cons_some (b := x) (by rw [idxOf_cons_self]; rfl), later,
        ih nodup (by simpa using length)]

namespace GenericFunction

variable {Obj Meth Sym : Type} [DecidableEq Sym] {image : Image Obj}
  {gf : GenericFunction Obj Meth Sym}

/-- What belongs to the required parameters, in argument precedence order. -/
def inOrder {α : Type} (gf : GenericFunction Obj Meth Sym) (l : List α) : List α :=
  gf.argumentPrecedenceOrder.filterMap fun name => l[gf.required.idxOf name]?

theorem idxOf_lt {name : Sym} (member : name ∈ gf.argumentPrecedenceOrder) :
    gf.required.idxOf name < gf.required.length :=
  idxOf_lt_length_iff.mpr (gf.order_perm.mem_iff.mp member)

theorem getElem?_isSome {α : Type} {l : List α} (length : gf.required.length ≤ l.length) :
    ∀ name ∈ gf.argumentPrecedenceOrder, (l[gf.required.idxOf name]?).isSome = true := by
  intro name member
  have inside := gf.idxOf_lt member
  rw [List.getElem?_eq_getElem (by omega)]
  rfl

theorem aPOFunction_eq {α : Type} {l : List α} (length : l.length = gf.required.length) :
    gf.aPOFunction l = .ok (gf.inOrder l) := by
  unfold aPOFunction
  split
  · rename_i same
    rw [inOrder, same, filterMap_getElem?_idxOf gf.required_nodup length]
  · unfold reorder
    rw [if_pos length, mapM_some (gf.getElem?_isSome (Nat.le_of_eq length.symm))]
    rfl

/-- The specializers of a method as they order it, in argument precedence
order. -/
def kinds (gf : GenericFunction Obj Meth Sym) (method : Meth) : List (Option (Option Obj)) :=
  (gf.inOrder (gf.specializers method)).map kind

def precedenceLists (image : Image Obj) (gf : GenericFunction Obj Meth Sym) (args : List Obj) :
    List (List Obj) :=
  (gf.inOrder args).map (image.precedenceList ∘ image.classOf)

theorem precedenceLists_nodup (lawful : image.Lawful) (args : List Obj) :
    ∀ cpl ∈ gf.precedenceLists image args, cpl.Nodup := by
  intro cpl member
  obtain ⟨arg, -, rfl⟩ := mem_map.mp member
  exact lawful.nodup arg

def MoreSpecificMethod (image : Image Obj) (gf : GenericFunction Obj Meth Sym) (args : List Obj)
    (method method' : Meth) : Prop :=
  Precedes (gf.kinds method) (gf.kinds method') (gf.precedenceLists image args)

variable [DecidableEq Obj]

/-- The comparison of two methods comes out right. -/
def DecidedMethods (image : Image Obj) (gf : GenericFunction Obj Meth Sym) (args : List Obj)
    (method method' : Meth) : Prop :=
  Decided image (gf.inOrder (gf.specializers method)) (gf.inOrder (gf.specializers method'))
    (args.map image.classOf) ((gf.inOrder args).map image.classOf)

variable {args : List Obj} {method : Meth}

theorem applies_inOrder (enough : gf.required.length ≤ args.length)
    (member : method ∈ gf.applicableMethods image args) :
    List.Forall₂ (Applies image) (gf.inOrder args) (gf.inOrder (gf.specializers method)) := by
  obtain ⟨present, applies⟩ := mem_filter.mp member
  have length := gf.congruent method present
  refine forall₂_filterMap fun name inside => ?_
  obtain ⟨arg, found⟩ := Option.isSome_iff_exists.mp (gf.getElem?_isSome enough name inside)
  obtain ⟨spec, found'⟩ := Option.isSome_iff_exists.mp
    (gf.getElem?_isSome (Nat.le_of_eq length.symm) name inside)
  exact ⟨arg, spec, found, found', applicable_iff.mp applies _ arg spec found found'⟩

theorem kinds_fit (lawful : image.Lawful) (enough : gf.required.length ≤ args.length)
    (member : method ∈ gf.applicableMethods image args) :
    Fits (gf.kinds method) (gf.precedenceLists image args) := by
  unfold Fits kinds precedenceLists
  rw [forall₂_map_left_iff, forall₂_map_right_iff]
  exact (applies_inOrder enough member).flip.imp fun _ _ applies => Applies.inside lawful applies

theorem moreSpecificMethod_weak (lawful : image.Lawful)
    (enough : gf.required.length ≤ args.length) :
    Select.Weak (gf.MoreSpecificMethod image args) (gf.applicableMethods image args) where
  irrefl _ := precedes_irrefl _ _
  split memberX memberY memberZ :=
    precedes_split (precedenceLists_nodup lawful args) (kinds_fit lawful enough memberX)
      (kinds_fit lawful enough memberY) (kinds_fit lawful enough memberZ)

omit [DecidableEq Obj] in
theorem inOrder_length_le (enough : gf.required.length ≤ args.length) :
    (gf.inOrder args).length ≤ args.length := by
  refine Nat.le_trans (length_filterMap_le _ _) ?_
  rw [gf.order_perm.length_eq]
  exact enough

theorem compareMethods_eq {method' : Meth} (member : method ∈ gf.applicableMethods image args)
    (member' : method' ∈ gf.applicableMethods image args) :
    gf.compareMethods image (args.map image.classOf) method method' =
      compareSpecializersLists image (gf.inOrder (gf.specializers method))
        (gf.inOrder (gf.specializers method')) (args.map image.classOf) := by
  simp only [compareMethods, aPOFunction_eq (gf.congruent method (mem_filter.mp member).1),
    aPOFunction_eq (gf.congruent method' (mem_filter.mp member').1)]
  rfl

theorem replaces_kinds (lawful : image.Lawful) (enough : gf.required.length ≤ args.length)
    {method' : Meth} (member : method ∈ gf.applicableMethods image args)
    (member' : method' ∈ gf.applicableMethods image args)
    (same : gf.kinds method = gf.kinds method') :
    gf.replaces image args method method' = .ok false := by
  rw [replaces, compareMethods_eq member member',
    compareSpecializersLists_kinds lawful (applies_inOrder enough member)
      (applies_inOrder enough member') (inOrder_length_le enough) same]
  rfl

theorem right_iff_decided (lawful : image.Lawful) (enough : gf.required.length ≤ args.length)
    {method' : Meth}
    (member : method ∈ gf.applicableMethods image args)
    (member' : method' ∈ gf.applicableMethods image args) :
    Select.Right (gf.replaces image args) (gf.MoreSpecificMethod image args) method method' ↔
      gf.DecidedMethods image args method method' := by
  refine Iff.trans ?_ (compareSpecializersLists_right lawful (applies_inOrder enough member)
    (applies_inOrder enough member') (inOrder_length_le enough))
  simp only [Select.Right, replaces, compareMethods_eq member member', RightAnswer]
  cases compareSpecializersLists image (gf.inOrder (gf.specializers method))
    (gf.inOrder (gf.specializers method')) (args.map image.classOf) with
  | error failure => simp [Except.map]
  | ok answer => simp [Except.map, MoreSpecificMethod, kinds, precedenceLists]

/-- The same generic function, with its methods added in another order. -/
def rearranged (gf : GenericFunction Obj Meth Sym) (methods : List Meth)
    (perm : methods.Perm gf.methods) : GenericFunction Obj Meth Sym :=
  { gf with
    methods := methods
    methods_nodup := perm.nodup_iff.mpr gf.methods_nodup
    congruent := fun m member => gf.congruent m (perm.mem_iff.mp member) }

omit [DecidableEq Sym] in
/-- Every arrangement of the applicable methods comes from an order in which the
methods were added. -/
theorem exists_rearranged {arranged : List Meth}
    (perm : arranged.Perm (gf.applicableMethods image args)) :
    ∃ methods : List Meth, methods.Perm gf.methods ∧
      (methods.filter fun m => applicable image args (gf.specializers m)).reverse = arranged := by
  refine ⟨arranged.reverse ++
    gf.methods.filter fun m => !applicable image args (gf.specializers m), ?_, ?_⟩
  · exact ((arranged.reverse_perm.trans perm).append_right _).trans
      (filter_append_perm _ gf.methods)
  · have kept :
      arranged.filter (fun m => applicable image args (gf.specializers m)) = arranged := by
      refine filter_eq_self.mpr fun m member => ?_
      exact (mem_filter.mp (perm.mem_iff.mp member)).2
    have dropped : (gf.methods.filter fun m => !applicable image args (gf.specializers m)).filter
        (fun m => applicable image args (gf.specializers m)) = [] := by
      rw [filter_filter, filter_eq_nil_iff]
      intro m _
      cases applicable image args (gf.specializers m) <;> simp
    rw [filter_append, dropped, append_nil, filter_reverse, kept,
      reverse_reverse]

/-- Sorted by precedence: of two methods the earlier is more specific, or they
have the same specializers. -/
def InPrecedenceOrder (image : Image Obj) (gf : GenericFunction Obj Meth Sym) (args : List Obj)
    (methods : List Meth) : Prop :=
  methods.Pairwise fun m m' => gf.MoreSpecificMethod image args m m' ∨ gf.kinds m = gf.kinds m'

variable {methods : List Meth}

theorem ordered_iff (lawful : image.Lawful) (enough : gf.required.length ≤ args.length)
    (inside : methods ⊆ gf.applicableMethods image args) :
    Select.Ordered (gf.MoreSpecificMethod image args) methods ↔
      gf.InPrecedenceOrder image args methods := by
  have nodup : ∀ cpl ∈ gf.precedenceLists image args, cpl.Nodup := precedenceLists_nodup lawful args
  refine List.Pairwise.iff_of_mem fun {m m'} member member' => ⟨fun notMore => ?_, ?_⟩
  · by_cases same : gf.kinds m = gf.kinds m'
    · exact .inr same
    · exact .inl ((precedes_total (kinds_fit lawful enough (inside member))
        (kinds_fit lawful enough (inside member')) same).resolve_right notMore)
  · rintro (more | same)
    · exact precedes_asymm nodup more
    · intro more
      unfold MoreSpecificMethod at more
      rw [same] at more
      exact precedes_irrefl _ _ more

theorem eq_of_ordered (lawful : image.Lawful)
    (enough : gf.required.length ≤ args.length) {methods' : List Meth}
    (perm : methods.Perm (gf.applicableMethods image args))
    (perm' : methods'.Perm (gf.applicableMethods image args))
    (distinct : ∀ m ∈ gf.applicableMethods image args, ∀ m' ∈ gf.applicableMethods image args,
      m ≠ m' → gf.kinds m ≠ gf.kinds m')
    (ordered : Select.Ordered (gf.MoreSpecificMethod image args) methods)
    (ordered' : Select.Ordered (gf.MoreSpecificMethod image args) methods') :
    methods = methods' := by
  refine (perm.trans perm'.symm).eq_of_pairwise ?_ ordered ordered'
  intro m m' member member' notMore notMore'
  by_contra differ
  have inside := perm.mem_iff.mp member
  have inside' := perm'.mem_iff.mp member'
  exact (precedes_total (kinds_fit lawful enough inside) (kinds_fit lawful enough inside')
    (distinct m inside m' inside' differ)).elim notMore' notMore

variable [DecidableEq Meth]

theorem computeApplicableMethods_rearranged (args : List Obj) (perm : methods.Perm gf.methods) :
    (gf.rearranged methods perm).computeApplicableMethods image args =
      Select.select (gf.replaces image args)
        (methods.filter fun m => applicable image args (gf.specializers m)).reverse := rfl

/-- The comparison puts every two methods in order. -/
def AllDecided (image : Image Obj) (gf : GenericFunction Obj Meth Sym) (args : List Obj) : Prop :=
  ∀ m ∈ gf.applicableMethods image args, ∀ m' ∈ gf.applicableMethods image args, m ≠ m' →
    gf.DecidedMethods image args m m'

/-- The methods are sorted for every order in which they were added exactly when every two of them
are decided. -/
theorem sorts_iff (lawful : image.Lawful) (enough : gf.required.length ≤ args.length) :
    (∀ arranged : List Meth, arranged.Perm (gf.applicableMethods image args) →
      ∃ sorted, Select.select (gf.replaces image args) arranged = .ok sorted ∧
        sorted.Perm (gf.applicableMethods image args) ∧
        Select.Ordered (gf.MoreSpecificMethod image args) sorted) ↔
      gf.AllDecided image args := by
  rw [Select.select_ordered_iff (moreSpecificMethod_weak lawful enough)
    (gf.methods_nodup.filter _)]
  exact forall₂_congr fun m member => forall₂_congr fun m' member' =>
    imp_congr_right fun _ => right_iff_decided lawful enough member member'

/-- Methods that are added in the order that is the reverse of a sorted one are returned in that. -/
theorem select_ordered (lawful : image.Lawful) (enough : gf.required.length ≤ args.length)
    (decided : gf.AllDecided image args) (perm : methods.Perm (gf.applicableMethods image args))
    (ordered : Select.Ordered (gf.MoreSpecificMethod image args) methods) :
    Select.select (gf.replaces image args) methods = .ok methods := by
  have nodup : methods.Nodup := perm.nodup_iff.mpr (gf.methods_nodup.filter _)
  refine Select.select_stays nodup ?_
  refine ((ordered.and nodup).imp_of_mem ?_)
  rintro m m' member member' ⟨notMore, differ⟩
  have inside := perm.mem_iff.mp member
  have inside' := perm.mem_iff.mp member'
  by_cases same : gf.kinds m = gf.kinds m'
  · exact replaces_kinds lawful enough inside inside' same
  · obtain ⟨answer, returned, -, right⟩ :=
      (right_iff_decided lawful enough inside inside').mpr (decided m inside m' inside' differ)
    have more := (precedes_total (kinds_fit lawful enough inside)
      (kinds_fit lawful enough inside') same).resolve_right notMore
    rw [returned, right more]

omit [DecidableEq Obj] in
theorem exchanged_ordered {m m' : Meth} (same : gf.kinds m = gf.kinds m')
    (ordered : Select.Ordered (gf.MoreSpecificMethod image args) methods) :
    Select.Ordered (gf.MoreSpecificMethod image args) (methods.map (Equiv.swap m m')) := by
  have kinds (x : Meth) : gf.kinds (Equiv.swap m m' x) = gf.kinds x := by
    rw [Equiv.swap_apply_def]
    split_ifs with first second
    · rw [first, same]
    · rw [second, same]
    · rfl
  refine pairwise_map.mpr (ordered.imp fun {x y} notMore => ?_)
  unfold MoreSpecificMethod at notMore ⊢
  rwa [kinds, kinds]

/-- COMPUTE-APPLICABLE-METHODS returns the applicable methods, each once and sorted, and in one
order whatever the order in which the methods were added, exactly when every two of them are decided
and have different specializers. -/
theorem applicable_methods_sorted_iff (lawful : image.Lawful) (gf : GenericFunction Obj Meth Sym)
    {args : List Obj} (enough : gf.required.length ≤ args.length) :
    (∀ methods (perm : methods.Perm gf.methods), ∃ result,
      (gf.rearranged methods perm).computeApplicableMethods image args = .ok result ∧
        result.Perm (gf.applicableMethods image args) ∧
        gf.InPrecedenceOrder image args result ∧
        ∀ methods' (perm' : methods'.Perm gf.methods) result',
          (gf.rearranged methods' perm').computeApplicableMethods image args = .ok result' →
          result' = result) ↔
      ∀ m ∈ gf.applicableMethods image args, ∀ m' ∈ gf.applicableMethods image args, m ≠ m' →
        gf.DecidedMethods image args m m' ∧ gf.kinds m ≠ gf.kinds m' := by
  have arranged : ∀ {methods : List Meth}, methods.Perm gf.methods →
      (methods.filter fun m => applicable image args (gf.specializers m)).reverse.Perm
        (gf.applicableMethods image args) :=
    fun perm => (reverse_perm _).trans (perm.filter _)
  constructor
  · intro sorts
    have decided : gf.AllDecided image args := by
      refine (sorts_iff lawful enough).mp fun arranged perm => ?_
      obtain ⟨methods, added, rfl⟩ := exists_rearranged perm
      obtain ⟨result, returned, permResult, ordered, -⟩ := sorts methods added
      exact ⟨result, returned, permResult,
        (ordered_iff lawful enough permResult.subset).mpr ordered⟩
    intro m member m' member' differ
    refine ⟨decided m member m' member' differ, fun same => differ ?_⟩
    obtain ⟨result, -, perm, ordered, -⟩ := sorts gf.methods (.refl _)
    have ordered := (ordered_iff lawful enough perm.subset).mpr ordered
    -- the two methods exchanged in the result are a result too
    have nodup : result.Nodup := perm.nodup_iff.mpr (gf.methods_nodup.filter _)
    have perm' := (Select.map_swap_perm nodup (perm.mem_iff.mpr member)
      (perm.mem_iff.mpr member')).trans perm
    obtain ⟨methods1, added1, same1⟩ := exists_rearranged perm
    obtain ⟨methods2, added2, same2⟩ := exists_rearranged perm'
    obtain ⟨result1, returned1, -, -, unique⟩ := sorts methods1 added1
    rw [computeApplicableMethods_rearranged, same1,
      select_ordered lawful enough decided perm ordered] at returned1
    cases returned1
    have returned2 := unique methods2 added2 (result.map (Equiv.swap m m')) (by
      rw [computeApplicableMethods_rearranged, same2]
      exact select_ordered lawful enough decided perm' (exchanged_ordered same ordered))
    have fixed := map_inj_left.mp (returned2.trans (map_id result).symm) m (perm.mem_iff.mpr member)
    rw [Equiv.swap_apply_left] at fixed
    exact fixed.symm
  · intro apart methods perm
    have decided : gf.AllDecided image args :=
      fun m member m' member' differ => (apart m member m' member' differ).1
    have sorts := (sorts_iff lawful enough).mpr decided
    obtain ⟨result, returned, permResult, ordered⟩ := sorts _ (arranged perm)
    refine ⟨result, returned, permResult,
      (ordered_iff lawful enough permResult.subset).mp ordered, ?_⟩
    intro methods' perm' result' returned'
    obtain ⟨other, returnedOther, permOther, orderedOther⟩ := sorts _ (arranged perm')
    rw [computeApplicableMethods_rearranged, returnedOther] at returned'
    cases returned'
    exact eq_of_ordered lawful enough permOther permResult
      (fun m member m' member' differ => (apart m member m' member' differ).2) orderedOther ordered

end GenericFunction

/-- T is 1, A is 2, B is 3, C (A B) is 4, INTEGER is 5, the metaclass 6; the
object 7 is an integer and 8 an instance of C. -/
def diamond : Image Nat where
  classOf x := if x = 7 then 5 else if x = 8 then 4 else 6
  precedenceList c :=
    if c = 1 then [1] else if c = 4 then [4, 2, 3, 1]
    else if c = 2 ∨ c = 3 ∨ c = 5 ∨ c = 6 then [c, 1] else []
  eql x y := x = y
  equal x y := x = y
  nil := 0

theorem diamond_classOf (x : Nat) : diamond.classOf x ∈ [4, 5, 6] := by
  simp only [diamond]
  split_ifs <;> decide

theorem diamond_lawful : diamond.Lawful where
  eql_symm same := by simpa [diamond, eq_comm] using same
  eql_trans same same' := by simp_all [diamond]
  equal_of_eql same := same
  classOf_eql same := by simp_all [diamond]
  nodup x := by
    have all : ∀ k ∈ [4, 5, 6], (diamond.precedenceList k).Nodup := by decide
    exact all _ (diamond_classOf x)
  self x := by
    have all : ∀ k ∈ [4, 5, 6], k ∈ diamond.precedenceList k := by decide
    exact all _ (diamond_classOf x)
  before {x c d} memberC memberD differ := by
    have all : ∀ k ∈ [4, 5, 6], ∀ c ∈ diamond.precedenceList k, ∀ d ∈ diamond.precedenceList c,
        c ≠ d → [c, d].Sublist (diamond.precedenceList k) := by decide
    exact all _ (diamond_classOf x) c memberC d memberD differ

theorem twoMethods_nodup : [false, true].Nodup := by decide

/-- Two methods on A and on B in the second parameter. -/
def onAB (order : List Nat) (perm : order.Perm [0, 1]) : GenericFunction Nat Bool Nat where
  self := 9
  required := [0, 1]
  argumentPrecedenceOrder := order
  methods := [false, true]
  specializers m := [some (.ofClass 1), some (.ofClass (if m then 3 else 2))]
  required_nodup := by decide
  order_perm := perm
  methods_nodup := twoMethods_nodup
  congruent _ _ := rfl

/-- In the order of the lambda list the methods are sorted, whichever was added first. -/
theorem applicable_methods_sorted_iff_onAB :
    ∃ result, (onAB [0, 1] (.refl _)).InPrecedenceOrder diamond [7, 8] result ∧
      ((onAB [0, 1] (.refl _)).rearranged [true, false]
        (.swap _ _ _)).computeApplicableMethods diamond [7, 8] = .ok result ∧
      ((onAB [0, 1] (.refl _)).rearranged [false, true]
        (.refl _)).computeApplicableMethods diamond [7, 8] = .ok result := by
  have enough : (onAB [0, 1] (.refl _)).required.length ≤ [7, 8].length := by decide
  have decided := (GenericFunction.applicable_methods_sorted_iff diamond_lawful
    (onAB [0, 1] (.refl _)) enough).mpr (by
      intro m _ m' _ differ
      cases m <;> cases m' <;>
        simp [GenericFunction.DecidedMethods, GenericFunction.kinds, GenericFunction.inOrder, onAB,
          Decided, kind, Settled, diamond] at differ ⊢)
  obtain ⟨result, returned, -, ordered, unique⟩ := decided [true, false] (.swap _ _ _)
  obtain ⟨result', returned', -⟩ := decided [false, true] (.refl _)
  exact ⟨result, ordered, returned, unique _ (.refl _) result' returned' ▸ returned'⟩

/-- With the precedence order of the two parameters exchanged, A and B are looked
up in the precedence list of INTEGER. -/
theorem reordered_methods_fail :
    (onAB [1, 0] (.swap _ _ _)).applicableMethods diamond [7, 8] = [false, true] ∧
      (onAB [1, 0] (.swap _ _ _)).computeApplicableMethods diamond [7, 8] =
        .error .complexSpecifiers := by
  decide

end Ecl.Clos
