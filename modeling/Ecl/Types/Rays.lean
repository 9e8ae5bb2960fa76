import Ecl.Types.Members

/- Rays of integers are registered. A ray takes, from the smallest ray that contains it, all up
to the next ray that is registered. -/
namespace Ecl.Types

open Ecl.Lib List Prod Int

theorem boundsLe_refl (b : Option Int) : boundsLe b b = true := by
  cases b with
  | none => rfl
  | some b => exact decide_eq_true (le_refl b)

theorem boundsLe_total (b1 b2 : Option Int) : boundsLe b1 b2 = true ∨ boundsLe b2 b1 = true := by
  cases b1 with
  | none => exact .inl rfl
  | some b1 =>
    cases b2 with
    | none => exact .inr rfl
    | some b2 => simpa [boundsLe] using le_total b1 b2

theorem boundsLe_trans {b1 b2 b3 : Option Int} (first : boundsLe b1 b2 = true)
    (second : boundsLe b2 b3 = true) : boundsLe b1 b3 = true := by
  cases b1 with
  | none => rfl
  | some b1 =>
    cases b2 with
    | none => cases first
    | some b2 =>
      cases b3 with
      | none => cases second
      | some b3 =>
        simp only [boundsLe, decide_eq_true_eq] at first second ⊢
        omega

theorem boundsLe_antisymm {b1 b2 : Option Int} (first : boundsLe b1 b2 = true)
    (second : boundsLe b2 b1 = true) : b1 = b2 := by
  cases b1 with
  | none =>
    cases b2 with
    | none => rfl
    | some b2 => cases second
  | some b1 =>
    cases b2 with
    | none => cases first
    | some b2 =>
      simp only [boundsLe, decide_eq_true_eq] at first second
      exact congrArg some (le_antisymm first second)

theorem Key.typep_ray (b : Option Int) (m : Int) :
    (Key.ray b).typep (.integer m) = boundsLe b (some m) := by
  cases b with
  | none => rfl
  | some b =>
    simp only [Key.typep, Interval.typep, inIntervalP, Interval.low, Interval.high, boundsLe,
      Bool.and_true, ← decide_not, cast_lt, not_lt]

variable {b : Option Int}

theorem Key.exists_integer {x : Object} (isIn : (Key.ray b).typep x = true) :
    ∃ m, x = .integer m := by
  cases x with
  | integer m => exact ⟨m, rfl⟩
  | _ => cases b <;> cases isIn

theorem Key.ray_subset_iff (b1 b2 : Option Int) :
    (∀ x, (Key.ray b1).typep x = true → (Key.ray b2).typep x = true) ↔
      boundsLe b2 b1 = true := by
  constructor
  · intro included
    have integer : ∀ m, boundsLe b1 (some m) = true → boundsLe b2 (some m) = true := by
      intro m isIn
      have := included (.integer m)
      rw [typep_ray, typep_ray] at this
      exact this isIn
    cases b1 with
    | some b1 => exact integer b1 (boundsLe_refl (some b1))
    | none =>
      cases b2 with
      | none => rfl
      | some b2 =>
        have := integer (b2 - 1) rfl
        simp only [boundsLe, decide_eq_true_eq] at this
        omega
  · intro le x isIn
    obtain ⟨m, rfl⟩ := exists_integer isIn
    rw [typep_ray] at isIn ⊢
    exact boundsLe_trans le isIn

/-- An interval is a ray without the ray above it. -/
def Bound.beyond (high : Bound) (x : Object) : Bool :=
  match high.next with
  | none => false
  | some b => (Key.ray (some b)).typep x

theorem floor_le_iff (b : ℚ) (m : Int) : ⌊1 + b⌋ ≤ m ↔ b < m := by
  rw [← lt_add_one_iff, floor_lt, cast_add, cast_one, add_comm (1 : ℚ) b,
    add_lt_add_iff_right]

theorem Interval.typep_eq (interval : Interval) (x : Object) :
    interval.typep x =
      ((Key.ray interval.low.first).typep x && !interval.high.beyond x) := by
  cases x with
  | integer m =>
    rw [Key.typep_ray]
    show inIntervalP m interval = _
    unfold inIntervalP
    apply congrArg₂ and
    · cases interval.low with
      | star => rfl
      | inclusive b =>
        simp only [Bound.first, boundsLe, ceil_le, ← decide_not, not_lt]
      | exclusive b =>
        simp only [Bound.first, boundsLe, floor_le_iff, ← decide_not, not_le]
    · cases interval.high with
      | star => rfl
      | inclusive b =>
        simp only [Bound.beyond, Bound.next, Key.typep_ray, boundsLe, floor_le_iff]
      | exclusive b =>
        simp only [Bound.beyond, Bound.next, Key.typep_ray, boundsLe, ceil_le]
  | _ =>
    cases first : interval.low.first <;> rfl

theorem Key.typep_between (low high : Bound) (x : Object) :
    (Key.between low high).typep x = ((Key.ray low.first).typep x && !high.beyond x) :=
  Interval.typep_eq (.between low high) x

variable {db : TypeState} {n : Nat} {cell : Object → Nat}

variable {m : Int}

theorem Inv.cell_integer (inv : Inv db n cell) {k : Int}
    (same : ∀ b, .ray b ∈ db.keys → boundsLe b (some m) = boundsLe b (some k)) :
    cell (.integer m) = cell (.integer k) := by
  have ray : ∀ b, .ray b ∈ db.keys →
      (Key.ray b).typep (.integer m) = (Key.ray b).typep (.integer k) := by
    intro b isIn
    rw [Key.typep_ray, Key.typep_ray, same b isIn]
  refine inv.alike _ _ (alike_of_not_mem (inv.integer_not_mem m) (inv.integer_not_mem k) ?_)
  intro key isIn
  cases key with
  | name name => cases name <;> rfl
  | ray b => exact ray b isIn
  | between low high =>
    rw [Key.typep_between, Key.typep_between, ray _ (inv.low low high isIn), Bound.beyond,
      Bound.beyond]
    cases next : high.next with
    | none => rfl
    | some b => simp only [ray _ (inv.high low high b isIn next)]

theorem Inv.cell_integer_last (inv : Inv db n cell)
    (out : ∀ b, .ray b ∈ db.keys → boundsLe b (some m) = false) : cell (.integer m) = n := by
  have ray : ∀ b, .ray b ∈ db.keys → (Key.ray b).typep (.integer m) = false := by
    intro b isIn
    rw [Key.typep_ray, out b isIn]
  refine inv.cell_eq (inv.integer_not_mem m) fun key isIn => ?_
  cases key with
  | name name =>
    cases name with
    | integer => cases out none (inv.integer isIn)
    | _ => rfl
  | ray b => exact ray b isIn
  | between low high =>
    rw [Key.typep_between, ray _ (inv.low low high isIn), Bool.false_and]

/-- The union of the rays above a bound. -/
def aboveP (b : Option Int) (l : List (Key × Int)) (x : Object) : Bool :=
  l.any fun i => i.1.isRay && !Key.rayLe (.ray b) i.1 && i.1.typep x

/-- The smallest ray that contains a ray. -/
structure Smallest (b p : Option Int) (keys : List Key) : Prop where
  isIn : .ray p ∈ keys
  le : boundsLe p b = true
  greatest : ∀ q, .ray q ∈ keys → boundsLe q b = true → boundsLe q p = true

/-- What find-type-bounds has found in a part of the database. -/
structure RayBounds (n : Nat) (cell : Object → Nat) (b : Option Int) (l : List (Key × Int))
    (bounds : Database.Bounds) : Prop where
  sub : Denotes n cell bounds.subtypeTag (aboveP b l)
  disjoint : bounds.disjointTag = 0
  super : bounds.supertypeTag = -1 ∧
      (∀ q, Key.ray q ∈ l.map Prod.fst → boundsLe q b = false) ∨
    ∃ p, Smallest b p (l.map Prod.fst) ∧
      Denotes n cell bounds.supertypeTag fun x => (Key.ray p).typep x

variable {l : List (Key × Int)} {key : Key} {tag : Int}

theorem mem_keys_append {other : Key}
    (isIn : key ∈ (l ++ [(other, tag)]).map fst) : key ∈ l.map fst ∨ key = other := by
  rw [map_append, mem_append] at isIn
  exact isIn.imp_right mem_singleton.mp

variable {bounds : Database.Bounds}

theorem RayBounds.round_super (cells : Cells n cell) {q : Option Int}
    (done : RayBounds n cell b l bounds)
    (denotes : Denotes n cell tag fun x => (Key.ray q).typep x) (le : boundsLe q b = true) :
    RayBounds n cell b (l ++ [(.ray q, tag)])
      (if Int.ldiff tag bounds.supertypeTag = 0 then { bounds with supertypeTag := tag }
        else bounds) := by
  have keys : ∀ key, key ∈ l.map fst → key ∈ (l ++ [(Key.ray q, tag)]).map fst :=
    fun key isIn => by rw [map_append]; exact mem_append_left _ isIn
  have last : Key.ray q ∈ (l ++ [(Key.ray q, tag)]).map fst := by
    rw [map_append]
    exact mem_append_right _ mem_cons_self
  have sub : Denotes n cell bounds.subtypeTag (aboveP b (l ++ [(.ray q, tag)])) := by
    refine done.sub.congr fun x => ?_
    simp only [aboveP, any_append, any_cons, any_nil, Key.rayLe, le,
      Bool.not_true, Bool.and_false, Bool.false_and, Bool.or_false]
  cases done.super with
  | inl before =>
    have all : Int.ldiff tag bounds.supertypeTag = 0 := by
      rw [before.1, ldiff_eq_zero_iff]
      exact fun j _ => testBit_neg_one j
    rw [if_pos all]
    refine ⟨sub, done.disjoint, .inr ⟨q, ⟨last, le, fun q' isIn le' => ?_⟩, denotes⟩⟩
    cases mem_keys_append isIn with
    | inl old =>
      rw [before.2 q' old] at le'
      cases le'
    | inr new =>
      rw [Key.ray.inj new]
      exact boundsLe_refl q
  | inr before =>
    obtain ⟨p, smallest, super⟩ := before
    have iff := (denotes.ldiff_eq_zero_iff cells super).trans (Key.ray_subset_iff q p)
    by_cases smaller : boundsLe p q = true
    · rw [if_pos (iff.mpr smaller)]
      refine ⟨sub, done.disjoint, .inr ⟨q, ⟨last, le, fun q' isIn le' => ?_⟩, denotes⟩⟩
      cases mem_keys_append isIn with
      | inl old => exact boundsLe_trans (smallest.greatest q' old le') smaller
      | inr new =>
        rw [Key.ray.inj new]
        exact boundsLe_refl q
    · rw [if_neg fun zero => smaller (iff.mp zero)]
      refine ⟨sub, done.disjoint,
        .inr ⟨p, ⟨keys _ smallest.isIn, smallest.le, fun q' isIn le' => ?_⟩, super⟩⟩
      cases mem_keys_append isIn with
      | inl old => exact smallest.greatest q' old le'
      | inr new =>
        rw [Key.ray.inj new]
        exact (boundsLe_total q p).resolve_right smaller

theorem RayBounds.round_other {subtypeTag : Int} (done : RayBounds n cell b l bounds)
    (out : ∀ q, key = .ray q → boundsLe q b = false)
    (sub : Denotes n cell subtypeTag (aboveP b (l ++ [(key, tag)]))) :
    RayBounds n cell b (l ++ [(key, tag)]) { bounds with subtypeTag := subtypeTag } := by
  refine ⟨sub, done.disjoint, ?_⟩
  cases done.super with
  | inl before =>
    refine .inl ⟨before.1, fun q isIn => ?_⟩
    cases mem_keys_append isIn with
    | inl old => exact before.2 q old
    | inr new => exact out q new.symm
  | inr before =>
    obtain ⟨p, smallest, super⟩ := before
    refine .inr ⟨p, ⟨?_, smallest.le, fun q isIn le => ?_⟩, super⟩
    · rw [map_append]
      exact mem_append_left _ smallest.isIn
    · cases mem_keys_append isIn with
      | inl old => exact smallest.greatest q old le
      | inr new =>
        rw [out q new.symm] at le
        cases le

theorem RayBounds.round (cells : Cells n cell) {i : Key × Int} (done : RayBounds n cell b l bounds)
    (denotes : Denotes n cell i.2 fun x => i.1.typep x) :
    RayBounds n cell b (l ++ [i])
      (Database.boundsRound (.ray b) Key.isRay Key.rayLe true bounds i) := by
  obtain ⟨key, tag⟩ := i
  have apart : key.isRay = false → RayBounds n cell b (l ++ [(key, tag)]) bounds := by
    intro notRay
    refine done.round_other (fun q eq => ?_) (done.sub.congr fun x => ?_)
    · rw [eq] at notRay
      cases notRay
    · simp only [aboveP, any_append, any_cons, any_nil, notRay, Bool.false_and,
        Bool.or_false]
  cases key with
  | name name => exact apart rfl
  | between low high => exact apart rfl
  | ray q =>
    unfold Database.boundsRound
    rw [if_pos (show (Key.ray q).isRay = true from rfl)]
    cases le : boundsLe q b with
    | true =>
      rw [if_pos (show Key.rayLe (.ray b) (.ray q) = true from le), if_pos rfl]
      exact done.round_super cells denotes le
    | false =>
      have above : boundsLe b q = true :=
        (boundsLe_total b q).resolve_right fun le' => by rw [le] at le'; cases le'
      rw [if_neg (show ¬Key.rayLe (.ray b) (.ray q) = true by
          rw [Key.rayLe, le]; exact Bool.false_ne_true),
        if_pos (show Key.rayLe (.ray q) (.ray b) = true from above)]
      refine done.round_other (fun q' eq => Key.ray.inj eq ▸ le) ?_
      refine (denotes.lor done.sub).congr fun x => ?_
      simp only [aboveP, any_append, any_cons, any_nil, Key.isRay, Key.rayLe,
        le, Bool.not_false, Bool.true_and, Bool.or_false]
      exact Bool.or_comm _ _

theorem rayBounds_foldl (cells : Cells n cell) (b : Option Int) (l : List (Key × Int))
    (denotes : ∀ i ∈ l, Denotes n cell i.2 fun x => i.1.typep x) :
    RayBounds n cell b l
      (l.foldl (Database.boundsRound (.ray b) Key.isRay Key.rayLe true) ⟨0, 0, -1⟩) := by
  induction l using List.reverseRecOn with
  | nil => exact ⟨Denotes.none n cell, rfl, .inl ⟨rfl, fun _ isIn => nomatch isIn⟩⟩
  | append_singleton l i ih =>
    rw [foldl_concat]
    exact (ih fun j isIn => denotes j (mem_append_left _ isIn)).round cells
      (denotes i (mem_append_right _ mem_cons_self))

theorem aboveP_iff (b : Option Int) (l : List (Key × Int)) (x : Object) :
    aboveP b l x = true ↔ ∃ q, Key.ray q ∈ l.map fst ∧ boundsLe q b = false ∧
      (Key.ray q).typep x = true := by
  simp only [aboveP, any_eq_true, Bool.and_eq_true, Bool.not_eq_true']
  constructor
  · intro ⟨i, isIn, ⟨isRay, notLe⟩, belongs⟩
    obtain ⟨key, tag⟩ := i
    cases key with
    | ray q => exact ⟨q, mem_map_of_mem isIn, notLe, belongs⟩
    | name name => cases isRay
    | between low high => cases isRay
  · intro ⟨q, isIn, notLe, belongs⟩
    obtain ⟨i, isIn, eq⟩ := mem_map.mp isIn
    exact ⟨i, isIn, by rw [eq]; exact ⟨⟨rfl, notLe⟩, belongs⟩⟩

theorem findTypeBounds_ray (inv : Inv db n cell) (b : Option Int) :
    Denotes n cell (db.findTypeBounds (.ray b) Key.isRay Key.rayLe true).2
        (aboveP b db.elementaryTypes) ∧
      ((db.findTypeBounds (.ray b) Key.isRay Key.rayLe true).1 = 0 ∧
          (∀ q, .ray q ∈ db.keys → boundsLe q b = false) ∨
        ∃ p, Smallest b p db.keys ∧
          Denotes n cell (db.findTypeBounds (.ray b) Key.isRay Key.rayLe true).1
            fun x => (Key.ray p).typep x && !aboveP b db.elementaryTypes x) := by
  have bounds := rayBounds_foldl inv.cells b db.elementaryTypes inv.entry
  refine ⟨bounds.sub, ?_⟩
  unfold Database.findTypeBounds
  dsimp only
  rw [if_pos rfl]
  cases bounds.super with
  | inl before => exact .inl ⟨if_pos before.1, before.2⟩
  | inr before =>
    obtain ⟨p, smallest, super⟩ := before
    refine .inr ⟨p, smallest, ?_⟩
    have last := super.bit (.other 0)
    rw [if_neg, bounds.disjoint]
    · refine (super.ldiff ((Denotes.none n cell).lor bounds.sub)).congr fun x => ?_
      rw [Bool.false_or]
    · intro all
      rw [all, testBit_neg_one, Key.typep_other] at last
      cases last

/-- A ray without the registered rays above it. -/
def newRay (b : Option Int) (l : List (Key × Int)) (x : Object) : Bool :=
  (Key.ray b).typep x && !aboveP b l x

theorem newRay_iff (b : Option Int) (l : List (Key × Int)) (x : Object) :
    newRay b l x = true ↔ (Key.ray b).typep x = true ∧ aboveP b l x = false := by
  rw [newRay, Bool.and_eq_true, Bool.not_eq_true']

theorem aboveP_integer
    (out : aboveP b l (.integer m) = false) {q : Option Int} (isIn : Key.ray q ∈ l.map fst)
    (above : boundsLe q b = false) : boundsLe q (some m) = false := by
  rw [← Key.typep_ray, Bool.eq_false_iff]
  intro belongs
  rw [(aboveP_iff b l _).mpr ⟨q, isIn, above, belongs⟩] at out
  cases out

theorem exists_below (keys : List Key) :
    ∃ m : Int, ∀ q, Key.ray (some q) ∈ keys → m < q := by
  induction keys with
  | nil => exact ⟨0, fun _ isIn => nomatch isIn⟩
  | cons key keys ih =>
    obtain ⟨m, below⟩ := ih
    by_cases this : ∃ q, key = .ray (some q)
    · obtain ⟨q, rfl⟩ := this
      refine ⟨min m (q - 1), fun q' isIn => ?_⟩
      cases mem_cons.mp isIn with
      | inl head =>
        have : q' = q := Option.some.inj (Key.ray.inj head)
        omega
      | inr tail =>
        have := below q' tail
        omega
    · refine ⟨m, fun q isIn => ?_⟩
      cases mem_cons.mp isIn with
      | inl head => exact absurd ⟨q, head.symm⟩ this
      | inr tail => exact below q tail

theorem exists_newRay (b : Option Int) (l : List (Key × Int)) :
    ∃ m, newRay b l (.integer m) = true := by
  suffices bounded : ∃ m, boundsLe b (some m) = true ∧
      ∀ q, Key.ray q ∈ l.map fst → boundsLe q b = false → boundsLe q (some m) = false by
    obtain ⟨m, isIn, out⟩ := bounded
    refine ⟨m, (newRay_iff b l _).mpr ⟨by rw [Key.typep_ray, isIn], Bool.eq_false_iff.mpr ?_⟩⟩
    intro above
    obtain ⟨q, isIn, notLe, belongs⟩ := (aboveP_iff b l _).mp above
    rw [Key.typep_ray, out q isIn notLe] at belongs
    cases belongs
  cases b with
  | some b => exact ⟨b, boundsLe_refl (some b), fun _ _ notLe => notLe⟩
  | none =>
    obtain ⟨m, below⟩ := exists_below (l.map fst)
    refine ⟨m, rfl, fun q isIn notLe => ?_⟩
    cases q with
    | none => cases notLe
    | some q =>
      have := below q isIn
      simp only [boundsLe, decide_eq_false_iff_not]
      omega

/-- The integers from the smallest ray that contains the new one up to the next ray. -/
theorem Inv.cell_gap (inv : Inv db n cell) {p : Option Int} (smallest : Smallest b p db.keys)
    {k : Int} (fromM : boundsLe p (some m) = true) (fromK : boundsLe p (some k) = true)
    (notM : aboveP b db.elementaryTypes (.integer m) = false)
    (notK : aboveP b db.elementaryTypes (.integer k) = false) :
    cell (.integer m) = cell (.integer k) := by
  refine inv.cell_integer fun q isIn => ?_
  cases le : boundsLe q b with
  | true =>
    have below := smallest.greatest q isIn le
    rw [boundsLe_trans below fromM, boundsLe_trans below fromK]
  | false => rw [aboveP_integer notM isIn le, aboveP_integer notK isIn le]

/-- The integer before the bound of a new ray is in the smallest ray that contains it. -/
theorem exists_below_ray {p : Option Int} (missing : .ray b ∉ db.keys)
    (smallest : Smallest b p db.keys) :
    ∃ k : Int, boundsLe p (some k) = true ∧ boundsLe b (some k) = false ∧
      aboveP b db.elementaryTypes (.integer k) = false := by
  have ne : p ≠ b := fun eq => missing (eq ▸ smallest.isIn)
  have le := smallest.le
  cases b with
  | none =>
    cases p with
    | none => exact absurd rfl ne
    | some p => cases le
  | some b =>
    refine ⟨b - 1, ?_, ?_, ?_⟩
    · cases p with
      | none => rfl
      | some p =>
        have : p ≠ b := fun eq => ne (congrArg some eq)
        simp only [boundsLe, decide_eq_true_eq] at le ⊢
        omega
    · simp only [boundsLe, decide_eq_false_iff_not]
      omega
    · rw [Bool.eq_false_iff]
      intro above
      obtain ⟨q, isIn, notLe, belongs⟩ := (aboveP_iff _ _ _).mp above
      rw [Key.typep_ray] at belongs
      have le := boundsLe_trans belongs
        (show boundsLe (some (b - 1)) (some b) = true from decide_eq_true (by omega))
      rw [notLe] at le
      cases le

/-- The objects of a new ray are a part of one cell, and the types that get the new tag are
those that have the tag of this cell. -/
theorem Inv.exists_cell (inv : Inv db n cell) (missing : .ray b ∉ db.keys) {tagSuper tagSub : Int}
    (bounds : db.findTypeBounds (.ray b) Key.isRay Key.rayLe true = (tagSuper, tagSub)) :
    ∃ c, (∀ x, newRay b db.elementaryTypes x = true → cell x = c) ∧
      (∃ x, cell x = c ∧ newRay b db.elementaryTypes x = false) ∧
      ∀ i ∈ db.elementaryTypes,
        (!decide (Int.land i.2 (Int.ldiff tagSuper tagSub) = 0)) = i.2.testBit c := by
  have ⟨sub, super⟩ := findTypeBounds_ray inv b
  rw [bounds] at sub super
  cases super with
  | inl before =>
    -- The ray is apart from every registered type.
    refine ⟨n, fun x isNew => ?_, ⟨.other 0, inv.other 0, ?_⟩, fun i isIn => ?_⟩
    · have ⟨isIn, notAbove⟩ := (newRay_iff b _ x).mp isNew
      obtain ⟨m, rfl⟩ := Key.exists_integer isIn
      exact inv.cell_integer_last fun q registered =>
        aboveP_integer notAbove registered (before.2 q registered)
    · rw [newRay, Key.typep_other, Bool.false_and]
    · have mask : Int.ldiff tagSuper tagSub = 0 := by
        have none : tagSuper = 0 := before.1
        rw [none, ldiff_eq_zero_iff]
        intro j bit
        rw [testBit_zero] at bit
        cases bit
      have apart : Int.land i.2 (Int.ldiff tagSuper tagSub) = 0 := by
        rw [mask, land_eq_zero_iff]
        exact fun j _ => testBit_zero j
      rw [decide_eq_true apart, inv.entry_last isIn]
      rfl
  | inr before =>
    obtain ⟨p, smallest, super⟩ := before
    obtain ⟨m, isNew⟩ := exists_newRay b db.elementaryTypes
    have ⟨fromB, notAbove⟩ := (newRay_iff b _ _).mp isNew
    rw [Key.typep_ray] at fromB
    have fromP : boundsLe p (some m) = true := boundsLe_trans smallest.le fromB
    have mask : Denotes n cell (Int.ldiff tagSuper tagSub) fun x =>
        (Key.ray p).typep x && !aboveP b db.elementaryTypes x :=
      (super.ldiff sub).congr fun x => by
        rw [Bool.and_assoc, Bool.and_self]
    have gap : ∀ x, ((Key.ray p).typep x && !aboveP b db.elementaryTypes x) = true →
        cell x = cell (.integer m) := by
      intro x both
      rw [Bool.and_eq_true, Bool.not_eq_true'] at both
      obtain ⟨k, rfl⟩ := Key.exists_integer both.1
      rw [Key.typep_ray] at both
      exact inv.cell_gap smallest both.1 fromP both.2 notAbove
    refine ⟨cell (.integer m), fun x isNew => ?_, ?_, fun i isIn => ?_⟩
    · have ⟨isIn, notAbove⟩ := (newRay_iff b _ x).mp isNew
      refine gap x ?_
      rw [(Key.ray_subset_iff b p).mpr smallest.le x isIn, notAbove]
      rfl
    · obtain ⟨k, fromP', below, notAbove'⟩ := exists_below_ray missing smallest
      refine ⟨.integer k, inv.cell_gap smallest fromP' fromP notAbove' notAbove, ?_⟩
      rw [newRay, Key.typep_ray, below, Bool.false_and]
    · rw [(inv.entry i isIn).bit, Bool.eq_iff_iff, Bool.not_eq_true', decide_eq_false_iff_not,
        (inv.entry i isIn).land_eq_zero_iff inv.cells mask]
      constructor
      · intro meets
        by_contra notIn
        refine meets fun x isIn' => Bool.eq_false_iff.mpr fun both => notIn ?_
        rw [← (inv.entry i isIn).bit, ← gap x both, (inv.entry i isIn).bit]
        exact isIn'
      · intro isIn' apart
        have := apart (.integer m) isIn'
        rw [Key.typep_ray, fromP, notAbove] at this
        cases this

theorem Closed.ray {db db' : TypeState} (closed : Closed db)
    (keys : db'.keys = .ray b :: db.keys) (objects : db'.objects = db.objects) : Closed db' where
  objects := by rw [objects]; exact closed.objects
  low low high isIn := by
    rw [keys] at isIn ⊢
    cases mem_cons.mp isIn with
    | inl head => cases head
    | inr tail => exact mem_cons_of_mem _ (closed.low low high tail)
  high low high b isIn next := by
    rw [keys] at isIn ⊢
    cases mem_cons.mp isIn with
    | inl head => cases head
    | inr tail => exact mem_cons_of_mem _ (closed.high low high b tail next)
  integer isIn := by
    rw [keys] at isIn ⊢
    cases mem_cons.mp isIn with
    | inl head => cases head
    | inr tail => exact mem_cons_of_mem _ (closed.integer tail)
  keyword isIn := by
    rw [keys] at isIn ⊢
    cases mem_cons.mp isIn with
    | inl head => cases head
    | inr tail => exact mem_cons_of_mem _ (closed.keyword tail)

/-- The ray that is registered gets a cell of its own. The tags of the rays above it stay, also
those that were computed before. -/
theorem registerNew_ray (inv : Inv db n cell) (missing : .ray b ∉ db.keys) :
    ∃ cell', Inv (db.registerNew Key.typep (.ray b) Key.isRay Key.rayLe true).2 (n + 1) cell' ∧
      Denotes (n + 1) cell' (db.registerNew Key.typep (.ray b) Key.isRay Key.rayLe true).1
        (fun x => (Key.ray b).typep x) ∧
      ∀ high tag, .ray high ∈ db.keys → boundsLe b high = true →
        Denotes n cell tag (fun x => (Key.ray high).typep x) →
        Denotes (n + 1) cell' tag fun x => (Key.ray high).typep x := by
  have ⟨sub, _⟩ := findTypeBounds_ray inv b
  unfold Database.registerNew
  cases bounds : db.findTypeBounds (.ray b) Key.isRay Key.rayLe true with
  | mk tagSuper tagSub =>
  rw [bounds] at sub
  obtain ⟨c, within, rest, exact⟩ := inv.exists_cell missing bounds
  obtain ⟨m, isNew⟩ := exists_newRay b db.elementaryTypes
  have some : ∃ x, newRay b db.elementaryTypes x = true := ⟨_, isNew⟩
  let cell' := splitCell n cell (newRay b db.elementaryTypes)
  have fresh : ∀ o ∈ db.objects, newRay b db.elementaryTypes o = false := by
    intro o isIn
    rw [Bool.eq_false_iff]
    intro isNew
    obtain ⟨k, rfl⟩ := Key.exists_integer ((newRay_iff b _ o).mp isNew).1
    exact inv.integer_not_mem k isIn
  have subLast : tagSub.testBit n = false := by
    rw [← inv.other 0, sub.bit, Bool.eq_false_iff]
    intro above
    obtain ⟨q, -, -, belongs⟩ := (aboveP_iff _ _ _).mp above
    rw [Key.typep_other] at belongs
    cases belongs
  have sub' : Denotes (n + 1) cell' tagSub (aboveP b db.elementaryTypes) :=
    sub.split_outside within some (fun x isNew => ((newRay_iff b _ x).mp isNew).2) subLast
  have tag : Denotes (n + 1) cell' (Int.lor (2 ^ n) tagSub) fun x => (Key.ray b).typep x := by
    refine (Denotes.two_pow.lor sub').congr fun x => ?_
    have below : aboveP b db.elementaryTypes x = true → (Key.ray b).typep x = true := by
      intro above
      obtain ⟨q, -, notLe, belongs⟩ := (aboveP_iff _ _ _).mp above
      have le := (boundsLe_total b q).resolve_right fun le => by rw [notLe] at le; cases le
      exact (Key.ray_subset_iff q b).mpr le x belongs
    rw [newRay]
    cases above : aboveP b db.elementaryTypes x with
    | true => rw [below above]; rfl
    | false => rw [Bool.not_false, Bool.and_true, Bool.or_false]
  have keys :=
    Database.updateTypes_keys db.newTypeTag.2 (Int.ldiff tagSuper tagSub) db.highestTypeTag
  have entry := inv.entry_split within
    (fun i => !decide (Int.land i.2 (Int.ldiff tagSuper tagSub) = 0)) exact
  refine ⟨cell', ?_, ?_, ?_⟩
  · refine inv.push_new (db.newTypeTag.2.updateTypes (Int.ldiff tagSuper tagSub) db.highestTypeTag)
      (.ray b) within some rest fresh ?other rfl rfl keys ?entry ?own
      (fun _ isIn => isIn) (fun _ isIn _ => isIn) ?decided
      (inv.toClosed.ray (congrArg _ keys) rfl)
    case other =>
      intro address
      rw [newRay, Key.typep_other, Bool.false_and]
    case entry =>
      simp only [Bool.not_eq_true', decide_eq_false_iff_not, ite_not, ← inv.highest] at entry
      exact entry
    case own =>
      show Denotes (n + 1) cell' (Int.lor db.highestTypeTag tagSub) _
      rw [inv.highest]
      exact tag
    case decided =>
      intro x y same ray
      have above : aboveP b db.elementaryTypes x = aboveP b db.elementaryTypes y := by
        rw [Bool.eq_iff_iff, aboveP_iff, aboveP_iff]
        refine exists_congr fun q => and_congr_right fun isIn => and_congr_right fun _ => ?_
        rw [same.key (.ray q) isIn]
      rw [newRay, newRay, above, ray]
  · show Denotes (n + 1) cell' (Int.lor db.highestTypeTag tagSub) _
    rw [inv.highest]
    exact tag
  · intro high old registered le denotes
    refine denotes.split_outside within some (fun x isNew => ?_) ?_
    · have ⟨_, notAbove⟩ := (newRay_iff b _ x).mp isNew
      rw [Bool.eq_false_iff]
      intro belongs
      have notLe : boundsLe high b = false := by
        rw [Bool.eq_false_iff]
        exact fun le' => missing (boundsLe_antisymm le le' ▸ registered)
      rw [(aboveP_iff b _ x).mpr ⟨high, registered, notLe, belongs⟩] at notAbove
      cases notAbove
    · rw [← inv.other 0, denotes.bit, Key.typep_other]

theorem findRegisteredTag_of_mem (inv : Inv db n cell) (isIn : key ∈ db.keys) :
    ∃ tag, db.findRegisteredTag key = some tag ∧ Denotes n cell tag fun x => key.typep x := by
  obtain ⟨tag, found⟩ := Database.lookup_of_mem isIn
  exact ⟨tag, found, inv.entry (key, tag) (Database.mem_of_lookup found)⟩

theorem registerElementaryInterval_of_mem (inv : Inv db n cell) (isIn : .ray b ∈ db.keys) :
    ∃ tag, registerElementaryInterval b db = (tag, db) ∧
      Denotes n cell tag fun x => (Key.ray b).typep x := by
  obtain ⟨tag, found, denotes⟩ := findRegisteredTag_of_mem inv isIn
  exact ⟨tag, by rw [registerElementaryInterval, found], denotes⟩

theorem registerElementaryInterval_missing (missing : .ray b ∉ db.keys) :
    registerElementaryInterval b db =
      db.registerNew Key.typep (.ray b) Key.isRay Key.rayLe true := by
  rw [registerElementaryInterval]
  cases found : db.findRegisteredTag (.ray b) with
  | some tag => exact absurd (Database.mem_keys (Database.mem_of_lookup found)) missing
  | none => rfl

theorem registerNew_keys (db : TypeState) (b : Option Int) :
    (db.registerNew Key.typep (.ray b) Key.isRay Key.rayLe true).2.keys = .ray b :: db.keys :=
  congrArg (Key.ray b :: ·) (Database.updateTypes_keys db.newTypeTag.2 _ _)

theorem registerElementaryInterval_grows (b : Option Int) (db : TypeState) :
    Grows db (registerElementaryInterval b db).2 ∧
      .ray b ∈ (registerElementaryInterval b db).2.keys := by
  by_cases isIn : .ray b ∈ db.keys
  · obtain ⟨tag, found⟩ := Database.lookup_of_mem isIn
    rw [registerElementaryInterval, Database.findRegisteredTag, found]
    exact ⟨Grows.refl db, isIn⟩
  · rw [registerElementaryInterval_missing isIn]
    refine ⟨⟨?_, fun _ h => h⟩, ?_⟩
    · rw [registerNew_keys]
      exact fun _ h => mem_cons_of_mem _ h
    · rw [registerNew_keys]
      exact mem_cons_self

/-- A tag that was computed before stays that of its ray, unless a ray below it is registered
only now. -/
theorem registerElementaryInterval_inv (inv : Inv db n cell) (b : Option Int) :
    ∃ n' cell', Inv (registerElementaryInterval b db).2 n' cell' ∧
      Denotes n' cell' (registerElementaryInterval b db).1 (fun x => (Key.ray b).typep x) ∧
      ∀ high tag, .ray high ∈ db.keys → boundsLe b high = true ∨ .ray b ∈ db.keys →
        Denotes n cell tag (fun x => (Key.ray high).typep x) →
        Denotes n' cell' tag fun x => (Key.ray high).typep x := by
  by_cases isIn : .ray b ∈ db.keys
  · obtain ⟨tag, eq, denotes⟩ := registerElementaryInterval_of_mem inv isIn
    rw [eq]
    exact ⟨n, cell, inv, denotes, fun _ _ _ _ old => old⟩
  · obtain ⟨cell', after, denotes, keeps⟩ := registerNew_ray inv isIn
    rw [registerElementaryInterval_missing isIn]
    exact ⟨n + 1, cell', after, denotes, fun high tag registered le old =>
      keeps high tag registered (le.resolve_right isIn) old⟩

end Ecl.Types
