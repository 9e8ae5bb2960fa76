import Ecl.Types.Family
import Ecl.Types.OrderTags

/- The types of arrays and the classes are ordered, each in its family, and a type that is below
another one has no object that the other one has not. -/
namespace Ecl.Types.Family

variable {Class : Type} [DecidableEq Class] (h : Hierarchy Class)

theorem subclassp_iff (low high : Class) :
    subclassp h low high = true ↔
      Relation.ReflTransGen (Clos.Direct h.superiors) low high := by
  rw [subclassp, Bool.or_eq_true, decide_eq_true_eq, decide_eq_true_eq, (h.linear low).mem]
  exact or_iff_right_of_imp fun eq => eq ▸ .refl

theorem subclassp_refl (c : Class) : subclassp h c c = true := (subclassp_iff h c c).mpr .refl

theorem subclassp_trans {a b c : Class} (first : subclassp h a b = true)
    (second : subclassp h b c = true) : subclassp h a c = true :=
  (subclassp_iff h a c).mpr
    (((subclassp_iff h a b).mp first).trans ((subclassp_iff h b c).mp second))

theorem subclassp_antisymm {a b : Class} (first : subclassp h a b = true)
    (second : subclassp h b a = true) : a = b := by
  by_contra ne
  have up := (subclassp_iff h a b).mp first
  have down := (subclassp_iff h b a).mp second
  have path : Relation.TransGen (Clos.Direct h.superiors) a a :=
    ((Relation.reflTransGen_iff_eq_or_transGen.mp up).resolve_left (Ne.symm ne)).trans_left down
  have linear := h.linear a
  have twice := linear.before ((linear.mem a).mpr .refl) path
  have nodup := linear.nodup.sublist twice
  simp at nodup

theorem eq_top {a b : Class} (top : a = h.t) (le : subclassp h a b = true) : b = h.t := by
  refine subclassp_antisymm h ?_ (top ▸ le)
  rw [subclassp, Bool.or_eq_true]
  exact .inr (decide_eq_true (h.t_mem b))

theorem dimensionsLe_refl (pat : List Dimension) : dimensionsLe pat pat = true := by
  induction pat with
  | nil => rfl
  | cons d pat ih => simp [dimensionsLe, ih]

theorem dimensionsLe_trans {a b c : List Dimension} (first : dimensionsLe a b = true)
    (second : dimensionsLe b c = true) : dimensionsLe a c = true := by
  induction a generalizing b c with
  | nil =>
    cases b with
    | nil => exact second
    | cons e b => cases first
  | cons d a ih =>
    cases b with
    | nil => cases first
    | cons e b =>
      cases c with
      | nil => cases second
      | cons f c =>
        simp only [dimensionsLe, Bool.and_eq_true, Bool.or_eq_true, decide_eq_true_eq]
          at first second ⊢
        refine ⟨?_, ih first.2 second.2⟩
        cases second.1 with
        | inl star => exact .inl star
        | inr eq => exact eq ▸ first.1

theorem dimensionsLe_antisymm {a b : List Dimension} (first : dimensionsLe a b = true)
    (second : dimensionsLe b a = true) : a = b := by
  induction a generalizing b with
  | nil =>
    cases b with
    | nil => rfl
    | cons e b => cases first
  | cons d a ih =>
    cases b with
    | nil => cases first
    | cons e b =>
      simp only [dimensionsLe, Bool.and_eq_true, Bool.or_eq_true, decide_eq_true_eq]
        at first second
      have head : d = e := by
        cases first.1 with
        | inr eq => exact eq.symm
        | inl star =>
          cases second.1 with
          | inr eq => exact eq
          | inl star' => exact star'.trans star.symm
      rw [head, ih first.2 second.2]

theorem matchPattern_mono {a b : List Dimension} (le : dimensionsLe a b = true)
    {array : List Nat} (isIn : matchPattern array a = true) : matchPattern array b = true := by
  induction a generalizing b array with
  | nil =>
    cases b with
    | nil => exact isIn
    | cons e b => cases le
  | cons d a ih =>
    cases b with
    | nil => cases le
    | cons e b =>
      cases array with
      | nil => cases isIn
      | cons n array =>
        simp only [dimensionsLe, matchPattern, Bool.and_eq_true, Bool.or_eq_true,
          decide_eq_true_eq] at le isIn ⊢
        refine ⟨?_, ih le.2 isIn.2⟩
        cases le.1 with
        | inl star => exact .inl star
        | inr eq => exact eq ▸ isIn.1

/-- The dimensions of two types of the same family. -/
def patternLe (dim pat : Option (List Dimension)) : Bool :=
  match pat, dim with
  | none, _ => true
  | some _, none => false
  | some pat, some dim => dimensionsLe dim pat

theorem patternLe_refl (pat : Option (List Dimension)) : patternLe pat pat = true := by
  cases pat with
  | none => rfl
  | some pat => exact dimensionsLe_refl pat

theorem patternLe_trans {a b c : Option (List Dimension)} (first : patternLe a b = true)
    (second : patternLe b c = true) : patternLe a c = true := by
  cases c with
  | none => rfl
  | some c =>
    cases b with
    | none => cases second
    | some b =>
      cases a with
      | none => cases first
      | some a => exact dimensionsLe_trans first second

theorem patternLe_antisymm {a b : Option (List Dimension)} (first : patternLe a b = true)
    (second : patternLe b a = true) : a = b := by
  cases a with
  | none =>
    cases b with
    | none => rfl
    | some b => cases first
  | some a =>
    cases b with
    | none => cases second
    | some b => exact congrArg some (dimensionsLe_antisymm first second)

/-- A type is below another one of its family. -/
def Key.le (a b : Key Class) : Bool := arrayTypeLe a b || classLe h a b

theorem Key.le_array (s1 s2 : Bool) (e1 e2 : ElementType) (a b : Option (List Dimension)) :
    Key.le h (.array s1 e1 a) (.array s2 e2 b) = true ↔
      (s1 = s2 ∨ s2 = false) ∧ e1 = e2 ∧ patternLe a b = true := by
  show ((s1 = s2 || !s2) && decide (e1 = e2) && patternLe a b || false) = true ↔ _
  simp only [Bool.or_false, Bool.and_eq_true, Bool.or_eq_true, decide_eq_true_eq,
    Bool.not_eq_true', and_assoc]

theorem Key.ordered : Ordered (Key.le h) where
  refl a := by
    cases a with
    | array s e pat => exact (le_array h _ _ _ _ _ _).mpr ⟨.inl rfl, rfl, patternLe_refl pat⟩
    | ofClass c => exact subclassp_refl h c
  trans a b c first second := by
    cases a with
    | array s1 e1 a =>
      cases b with
      | ofClass b => cases first
      | array s2 e2 b =>
        cases c with
        | ofClass c => cases second
        | array s3 e3 c =>
          rw [le_array] at first second ⊢
          refine ⟨?_, first.2.1.trans second.2.1, patternLe_trans first.2.2 second.2.2⟩
          cases second.1 with
          | inr general => exact .inr general
          | inl eq => exact eq ▸ first.1
    | ofClass a =>
      cases b with
      | array s2 e2 b => cases first
      | ofClass b =>
        cases c with
        | array s3 e3 c => cases second
        | ofClass c => exact subclassp_trans h first second
  antisymm a b first second := by
    cases a with
    | array s1 e1 a =>
      cases b with
      | ofClass b => cases first
      | array s2 e2 b =>
        rw [le_array] at first second
        have simple : s1 = s2 := by
          cases first.1 with
          | inl eq => exact eq
          | inr general =>
            cases second.1 with
            | inl eq => exact eq.symm
            | inr general' => exact general'.trans general.symm
        rw [simple, first.2.1, patternLe_antisymm first.2.2 second.2.2]
    | ofClass a =>
      cases b with
      | array s2 e2 b => cases first
      | ofClass b => exact congrArg Key.ofClass (subclassp_antisymm h first second)

theorem arrayFamily (s : Bool) (e : ElementType) (pat : Option (List Dimension)) :
    Ecl.Types.Family (Key.le h) (.array s e pat) Key.arrayTypeP arrayTypeLe where
  own := rfl
  closed a b le := by cases a <;> cases b <;> first | rfl | cases le
  below a := by cases a <;> simp [Key.le, classLe]
  above a := by cases a <;> simp [Key.le, classLe]

theorem classFamily (c : Class) :
    Ecl.Types.Family (Key.le h) (.ofClass c) Key.instancep (classLe h) where
  own := rfl
  closed a b le := by cases a <;> cases b <;> first | rfl | cases le
  below a := by cases a <;> simp [Key.le, arrayTypeLe]
  above a := by cases a <;> simp [Key.le, arrayTypeLe]

theorem Key.typep_array (s : Bool) (e : ElementType) (pat : Option (List Dimension)) (s' : Bool)
    (e' : ElementType) (dims : List Nat) :
    (Key.array s e pat).typep h (.array s' e' dims) = true ↔
      (s = false ∨ s' = true) ∧ e = e' ∧ ∀ l, pat = some l → matchPattern dims l = true := by
  cases pat with
  | none => simp [Key.typep, Family.typep, matchDimensions]
  | some l => simp [Key.typep, Family.typep, matchDimensions, and_assoc]

theorem patternLe_some {a b : Option (List Dimension)} (le : patternLe a b = true)
    {array : List Nat}
    (isIn : ∀ l, a = some l → matchPattern array l = true) {l : List Dimension} (eq : b = some l) :
    matchPattern array l = true := by
  cases a with
  | none =>
    rw [eq] at le
    cases le
  | some a =>
    rw [eq] at le
    exact matchPattern_mono le (isIn a rfl)

theorem Key.typep_mono {a b : Key Class} (le : Key.le h a b = true) {object : Object Class}
    (isIn : a.typep h object = true) : b.typep h object = true := by
  cases a with
  | array s1 e1 a =>
    cases b with
    | ofClass b => cases le
    | array s2 e2 b =>
      cases object with
      | standard c => cases a <;> cases isIn
      | other => cases a <;> cases isIn
      | array s e dims =>
        rw [typep_array] at isIn ⊢
        rw [le_array] at le
        refine ⟨?_, le.2.1.symm.trans isIn.2.1, fun l eq => patternLe_some le.2.2 isIn.2.2 eq⟩
        cases le.1 with
        | inr general => exact .inl general
        | inl eq => exact eq ▸ isIn.1
  | ofClass a =>
    cases b with
    | array s2 e2 b => cases le
    | ofClass b =>
      cases object with
      | standard c => exact subclassp_trans h isIn le
      | array s e dims => exact decide_eq_true (eq_top h (of_decide_eq_true isIn) le)
      | other => exact decide_eq_true (eq_top h (of_decide_eq_true isIn) le)

end Ecl.Types.Family
