import Ecl.Equality.Equalp

/- Objects that are EQUALP have the same hash. -/
namespace Ecl.Equality

open List Option

variable {platform : Platform} {heap : Heap}

theorem allEqualp_eq_true {equalp : Ref → Ref → Option Bool} {pairs : List (Ref × Ref)} :
    allEqualp equalp pairs = some true ↔ ∀ pair ∈ pairs, equalp pair.1 pair.2 = some true := by
  induction pairs with
  | nil => simp [allEqualp]
  | cons pair pairs ih => simp [allEqualp, andAlso_eq_true, ih]

variable {xs : List Ref}

theorem elementsEqualp_eq_true {equalp : Ref → Ref → Option Bool} {ys : List Ref} :
    elementsEqualp equalp xs ys = some true ↔
      xs.length = ys.length ∧ ∀ pair ∈ xs.zip ys, equalp pair.1 pair.2 = some true := by
  unfold elementsEqualp
  split
  · rename_i length
    rw [allEqualp_eq_true]
    exact (and_iff_right length).symm
  · rename_i length
    simp [length]

variable (platform heap) in
/-- How two different objects can be EQUALP. -/
inductive Equalps (n : Nat) (x y : Ref) : Prop where
  | number {a b : Number} (numberX : (heap.look x).isNumber = true)
      (numberY : (heap.look y).isNumber = true) (valueX : numberAt heap x = some a)
      (valueY : numberAt heap y = some b) (equalp : numberEqualp platform a b = some true)
  | vector {xs ys : List Ref} (lookX : (heap.look x).elements = some xs)
      (lookY : (heap.look y).elements = some ys) (length : xs.length = ys.length)
      (equalp : ∀ pair ∈ xs.zip ys, eclEqualp platform heap n pair.1 pair.2 = some true)
  | array {dims dims' : List Nat} {xs ys : List Ref} (lookX : heap.look x = .array dims xs)
      (lookY : heap.look y = .array dims' ys) (length : xs.length = ys.length)
      (equalp : ∀ pair ∈ xs.zip ys, eclEqualp platform heap n pair.1 pair.2 = some true)
  | character {a b : Nat} (lookX : heap.look x = .character a) (lookY : heap.look y = .character b)
      (equalp : platform.charUpcase a = platform.charUpcase b)
  | cons {car cdr car' cdr' : Ref} (lookX : heap.look x = .cons car cdr)
      (lookY : heap.look y = .cons car' cdr')
      (first : eclEqualp platform heap n car car' = some true)
      (second : eclEqualp platform heap n cdr cdr' = some true)
  | clos {cls cls' : Ref} {slots slots' : List Ref} (lookX : heap.look x = .clos cls slots)
      (lookY : heap.look y = .clos cls' slots')
  | pathname {p p' : Pathname} (lookX : heap.look x = .pathname p)
      (lookY : heap.look y = .pathname p') (equal : eclEqual heap n x y = some true)
  | hashtable {test test' : Nat} {entries entries' : List TableEntry}
      (lookX : heap.look x = .hashtable test entries)
      (lookY : heap.look y = .hashtable test' entries')
  | random {value value' : Ref} (lookX : heap.look x = .random value)
      (lookY : heap.look y = .random value')

variable {n : Nat} {x y : Ref}

theorem not_eql_of_neither (differ : x ≠ y)
    (notNumber : (heap.look x).isNumber ≠ true)
    (notCharacter : ∀ code, heap.look x ≠ .character code) :
    eclEql heap n x y ≠ some true := by
  intro eql
  cases n with
  | zero => cases eql
  | succ n =>
    rcases eclEql_succ eql with same | ⟨_, lookX, _⟩ | ⟨_, _, _, _, lookX, _⟩ |
      ⟨_, _, _, _, lookX, _⟩ | ⟨_, lookX, _⟩ | ⟨_, lookX, _⟩ | ⟨code, lookX, _⟩
    · exact differ same
    · exact notNumber (by rw [lookX]; rfl)
    · exact notNumber (by rw [lookX]; rfl)
    · exact notNumber (by rw [lookX]; rfl)
    · exact notNumber (by rw [lookX]; rfl)
    · exact notNumber (by rw [lookX]; rfl)
    · exact notCharacter code lookX

theorem eclEqualp_succ (differ : x ≠ y)
    (equalp : eclEqualp platform heap (n + 1) x y = some true) : Equalps platform heap n x y := by
  rw [eclEqualp, if_neg differ] at equalp
  split at equalp
  · rename_i numberX
    split at equalp
    · rename_i numberY
      obtain ⟨a, valueX, equalp⟩ := bind_eq_some_iff.mp equalp
      obtain ⟨b, valueY, equalp⟩ := bind_eq_some_iff.mp equalp
      exact .number numberX numberY valueX valueY equalp
    · cases equalp
  · rename_i notNumber
    split at equalp
    · rename_i lookX lookY
      obtain ⟨length, equalp⟩ := elementsEqualp_eq_true.mp equalp
      exact .vector lookX lookY length equalp
    · cases equalp
    · split at equalp
      · rename_i lookX lookY
        split at equalp
        · obtain ⟨length, equalp⟩ := elementsEqualp_eq_true.mp equalp
          exact .array lookX lookY length equalp
        · cases equalp
      · cases equalp
      · rename_i lookX lookY
        exact .character lookX lookY (beq_iff_eq.mp (some.inj equalp))
      · cases equalp
      · cases equalp
      · rename_i lookX lookY
        obtain ⟨first, second⟩ := andAlso_eq_true.mp equalp
        exact .cons lookX lookY first second
      · cases equalp
      · rename_i lookX lookY
        exact .clos lookX lookY
      · cases equalp
      · rename_i lookX lookY
        exact .pathname lookX lookY equalp
      · cases equalp
      · rename_i lookX lookY
        exact .hashtable lookX lookY
      · cases equalp
      · rename_i lookX lookY
        exact .random lookX lookY
      · cases equalp
      · exact absurd equalp (not_eql_of_neither differ notNumber
          ‹∀ code, heap.look x = .character code → False›)

def Object.float : Object → Option FloatValue
  | singleFloat bits => some (floatValue 8 23 bits.toNat)
  | doubleFloat bits => some (floatValue 11 52 bits.toNat)
  | _ => none

/-- The conversion to an index is defined. -/
def FloatValue.Convertible : FloatValue → Prop
  | finite q => -1 < q
  | _ => False

/-- Numbers that are hashed alike when they are EQUALP: of the same type, floats, or a
fixnum and a float that is not negative; a bignum never. -/
def NumbersAlike : Object → Object → Prop
  | .fixnum _, .fixnum _ => True
  | .ratio _ _, .ratio _ _ => True
  | .complex _ _, .complex _ _ => True
  | .fixnum _, y => ∃ v, y.float = some v ∧ v.Convertible
  | x, .fixnum _ => ∃ v, x.float = some v ∧ v.Convertible
  | x, y => x.float.isSome ∧ y.float.isSome

variable (heap) in
/-- Different objects at a place that the hash function reaches with a depth. -/
structure EqualpAlike (depth : Int) (x y : Ref) : Prop where
  number : (heap.look x).isNumber = true → (heap.look y).isNumber = true →
    NumbersAlike (heap.look x) (heap.look y)
  pathname : ∀ p p', heap.look x = .pathname p → heap.look y = .pathname p' →
    HashClear heap depth x y
  random : ∀ value value', heap.look x = .random value → heap.look y = .random value' →
    value = value'

def Object.hashedParts (depth : Int) (o : Object) : Int × List Ref :=
  match o with
  | ratio num den => (0, [num, den])
  | complex re im => (0, [re, im])
  | cons car cdr => (depth - 1, if depth - 1 = 0 then [] else [car, cdr])
  | array _ self => (depth - 1, if depth - 1 = 0 then [] else self)
  | o => (depth - 1, if depth - 1 = 0 then [] else o.elements.getD [])

variable (heap) in
/-- The pairs of objects at the same place that the hash function reaches. -/
inductive MeetsParts : Int → Ref → Ref → Int → Ref → Ref → Prop where
  | here (depth : Int) (x y : Ref) : MeetsParts depth x y depth x y
  | part {depth inner : Int} {x y q q' u v : Ref}
      (member : (q, q') ∈ ((heap.look x).hashedParts depth).2.zip
        ((heap.look y).hashedParts depth).2)
      (rest : MeetsParts ((heap.look x).hashedParts depth).1 q q' inner u v) :
      MeetsParts depth x y inner u v

variable (heap) in
/-- Different objects at the same place of the two are hashed alike. -/
def EqualpClear (depth : Int) (x y : Ref) : Prop :=
  ∀ inner u v, MeetsParts heap depth x y inner u v → u ≠ v → EqualpAlike heap inner u v

variable {depth : Int}

theorem EqualpClear.part {q q' : Ref} (clear : EqualpClear heap depth x y)
    (member : (q, q') ∈ ((heap.look x).hashedParts depth).2.zip
      ((heap.look y).hashedParts depth).2) :
    EqualpClear heap ((heap.look x).hashedParts depth).1 q q' :=
  fun inner u v meets => clear inner u v (.part member meets)

variable (platform heap) in
/-- The two objects have the same hash, whatever was hashed before. -/
def SameHash (depth : Int) (x y : Ref) : Prop :=
  ∀ m h, hashEqualp platform heap m depth h x = hashEqualp platform heap m depth h y

theorem SameHash.refl (depth : Int) (x : Ref) : SameHash platform heap depth x x :=
  fun _ _ => rfl

/-- The objects that are hashed by their parts. -/
def Object.isCompound : Object → Bool
  | ratio _ _ | complex _ _ | cons _ _ | array _ _ | vector _ _ | baseString _ | string _
  | bitVector _ => true
  | _ => false

theorem hashEqualp_parts (compound : (heap.look x).isCompound = true) (m : Nat)
    (depth : Int) (h : Word) :
    hashEqualp platform heap (m + 1) depth h x =
      hashEach (hashEqualp platform heap m ((heap.look x).hashedParts depth).1)
        ((heap.look x).hashedParts depth).2 h := by
  rw [hashEqualp]
  cases look : heap.look x with
  | ratio num den => rfl
  | complex re im => rfl
  | cons car cdr | array dims self | vector self fillp | baseString s | string s | bitVector v =>
    simp only [Object.hashedParts, Object.elements, hashElements, getD_some]
    split <;> rfl
  | _ =>
    rw [look] at compound
    cases compound

theorem hashEach_congr {hash hash' : Word → Ref → Except HashFault Word} {xs ys : List Ref}
    (length : xs.length = ys.length)
    (same : ∀ pair ∈ xs.zip ys, ∀ h, hash h pair.1 = hash' h pair.2) :
    ∀ h, hashEach hash xs h = hashEach hash' ys h := by
  induction xs generalizing ys with
  | nil =>
    intro h
    cases eq_nil_of_length_eq_zero length.symm
    rfl
  | cons x xs ih =>
    intro h
    cases ys with
    | nil => cases length
    | cons y ys =>
      rw [hashEach, hashEach, same (x, y) mem_cons_self h]
      cases hash' h y with
      | error fault => rfl
      | ok h' =>
        exact ih (Nat.succ.inj length) (fun pair member => same pair (mem_cons_of_mem _ member)) h'

theorem sameHash_of_parts (compoundX : (heap.look x).isCompound = true)
    (compoundY : (heap.look y).isCompound = true)
    (inner : ((heap.look y).hashedParts depth).1 = ((heap.look x).hashedParts depth).1)
    (length : ((heap.look x).hashedParts depth).2.length =
      ((heap.look y).hashedParts depth).2.length)
    (parts : ∀ pair ∈ ((heap.look x).hashedParts depth).2.zip ((heap.look y).hashedParts depth).2,
      SameHash platform heap ((heap.look x).hashedParts depth).1 pair.1 pair.2) :
    SameHash platform heap depth x y := by
  intro m h
  cases m with
  | zero => rfl
  | succ m =>
    rw [hashEqualp_parts compoundX, hashEqualp_parts compoundY, inner]
    exact hashEach_congr length (fun pair member => parts pair member m) h

theorem sameHash_of_word {w : Word}
    (hashX : ∀ m h, hashEqualp platform heap (m + 1) depth h x = .ok (hashWord h w))
    (hashY : ∀ m h, hashEqualp platform heap (m + 1) depth h y = .ok (hashWord h w)) :
    SameHash platform heap depth x y := by
  intro m h
  cases m with
  | zero => rfl
  | succ m => rw [hashX, hashY]

theorem hashEqualp_fixnum {k : BitVec 62} (look : heap.look x = .fixnum k) (m : Nat)
    (depth : Int) (h : Word) :
    hashEqualp platform heap (m + 1) depth h x = .ok (hashWord h (k.signExtend 64)) := by
  rw [hashEqualp, look]
  rfl

variable {v : FloatValue}

theorem hashEqualp_float (look : (heap.look x).float = some v) (m : Nat) (depth : Int) (h : Word) :
    hashEqualp platform heap (m + 1) depth h x = .ok (hashWord h (platform.toIndex v)) := by
  rw [hashEqualp]
  cases object : heap.look x with
  | singleFloat bits | doubleFloat bits =>
    rw [object] at look
    cases look
    rfl
  | _ =>
    rw [object] at look
    cases look

theorem realAt_float (look : (heap.look x).float = some v) : realAt heap x = some (.float v) := by
  rw [realAt]
  cases object : heap.look x with
  | singleFloat bits | doubleFloat bits =>
    rw [object] at look
    cases look
    rfl
  | _ =>
    rw [object] at look
    cases look

theorem lt_of_truncate_lt {q : ℚ} {bound : Int} (below : truncate q < bound)
    (positive : 0 < bound) :
    q < bound := by
  unfold truncate at below
  split at below
  · rename_i negative
    have : (0 : ℚ) < bound := by exact_mod_cast positive
    linarith
  · exact Int.floor_lt.mp below

theorem toIndex_of_equal {k : BitVec 62} (convertible : v.Convertible)
    (equal : doubleFixEqual platform k.toInt v = true) :
    platform.toIndex v = k.signExtend 64 := by
  cases v with
  | finite q =>
    have value : k.toInt = truncate q := by
      simp only [doubleFixEqual] at equal
      split at equal
      · cases equal
      · split at equal
        · cases equal
        · exact beq_iff_eq.mp equal
    have small : k.toInt < 2 ^ 61 := BitVec.toInt_lt
    have below : q < (2 ^ 64 : Int) := lt_of_truncate_lt (by omega) (by norm_num)
    rw [platform.toIndex_finite q convertible (by exact_mod_cast below), ← value]
    rfl
  | infinite negative => cases convertible
  | nan => cases convertible

theorem FloatValue.eq_of_same {w : FloatValue} (same : v.same w = true) : v = w := by
  cases v <;> cases w <;> simp_all [FloatValue.same]

theorem EqualpClear.alike (clear : EqualpClear heap depth x y)
    (differ : x ≠ y) : EqualpAlike heap depth x y :=
  clear depth x y (.here depth x y) differ

theorem NumbersAlike.integers {x y : Object} (alike : NumbersAlike x y) (exactX : x.float = none)
    (exactY : y.float = none) :
    (∃ a b, x = .fixnum a ∧ y = .fixnum b) ∨ (∃ num den num' den', x = .ratio num den ∧
      y = .ratio num' den') ∨ (∃ re im re' im', x = .complex re im ∧ y = .complex re' im') := by
  unfold NumbersAlike at alike
  split at alike
  · exact .inl ⟨_, _, rfl, rfl⟩
  · exact .inr (.inl ⟨_, _, _, _, rfl, rfl⟩)
  · exact .inr (.inr ⟨_, _, _, _, rfl, rfl⟩)
  · obtain ⟨v, float, -⟩ := alike
    rw [exactY] at float
    cases float
  · obtain ⟨v, float, -⟩ := alike
    rw [exactX] at float
    cases float
  · rw [exactX] at alike
    cases alike.1

theorem sameHash_of_integer {i : Int} (clear : EqualpClear heap 0 x y)
    (valueX : integerAt heap x = some i) (valueY : integerAt heap y = some i) :
    SameHash platform heap 0 x y := by
  by_cases same : x = y
  · rw [same]
    exact .refl 0 y
  have integer : ∀ {z : Ref}, integerAt heap z = some i →
      (heap.look z).isNumber = true ∧ (heap.look z).float = none := by
    intro z value
    unfold integerAt at value
    split at value
    · rename_i look
      rw [look]
      exact ⟨rfl, rfl⟩
    · rename_i look
      rw [look]
      exact ⟨rfl, rfl⟩
    · cases value
  have alike := (clear.alike same).number (integer valueX).1 (integer valueY).1
  rcases alike.integers (integer valueX).2 (integer valueY).2 with ⟨a, b, lookX, lookY⟩ |
    ⟨_, _, _, _, lookX, _⟩ | ⟨_, _, _, _, lookX, _⟩
  · rw [integerAt, lookX] at valueX
    rw [integerAt, lookY] at valueY
    have value : a.toInt = b.toInt := some.inj (valueX.trans valueY.symm)
    cases BitVec.toInt_inj.mp value
    exact sameHash_of_word (fun m h => hashEqualp_fixnum lookX m 0 h)
      fun m h => hashEqualp_fixnum lookY m 0 h
  · rw [integerAt, lookX] at valueX
    cases valueX
  · rw [integerAt, lookX] at valueX
    cases valueX

theorem NumbersAlike.fixnum_right {x y : Object} (alike : NumbersAlike x y)
    (float : x.float = some v) (exact : y.float = none) :
    ∃ k, y = .fixnum k ∧ v.Convertible := by
  unfold NumbersAlike at alike
  split at alike
  · cases float
  · cases float
  · cases float
  · cases float
  · obtain ⟨w, float', convertible⟩ := alike
    cases float.symm.trans float'
    exact ⟨_, rfl, convertible⟩
  · rw [exact] at alike
    cases alike.2

theorem NumbersAlike.fixnum_left {x y : Object} (alike : NumbersAlike x y)
    (exact : x.float = none) (float : y.float = some v) :
    ∃ k, x = .fixnum k ∧ v.Convertible := by
  unfold NumbersAlike at alike
  split at alike
  · cases float
  · cases float
  · cases float
  · obtain ⟨w, float', convertible⟩ := alike
    cases float.symm.trans float'
    exact ⟨_, rfl, convertible⟩
  · cases float
  · rw [exact] at alike
    cases alike.1

variable {a : RealNumber}

theorem sameHash_of_ratio {num den num' den' : Ref} {b : RealNumber}
    (clear : EqualpClear heap depth x y) (lookX : heap.look x = .ratio num den)
    (lookY : heap.look y = .ratio num' den') (valueX : realAt heap x = some a)
    (valueY : realAt heap y = some b) (equalp : realEqualp platform a b = some true) :
    SameHash platform heap depth x y := by
  rw [realAt, lookX] at valueX
  rw [realAt, lookY] at valueY
  obtain ⟨i, numX, valueX⟩ := bind_eq_some_iff.mp valueX
  obtain ⟨j, denX, rfl⟩ := map_eq_some_iff.mp valueX
  obtain ⟨i', numY, valueY⟩ := bind_eq_some_iff.mp valueY
  obtain ⟨j', denY, rfl⟩ := map_eq_some_iff.mp valueY
  simp only [realEqualp, rationalEqualp, some.injEq, Bool.and_eq_true, beq_iff_eq] at equalp
  obtain ⟨rfl, rfl⟩ := equalp
  refine sameHash_of_parts (by rw [lookX]; rfl) (by rw [lookY]; rfl) (by rw [lookX, lookY]; rfl)
    (by rw [lookX, lookY]; rfl) fun pair member => ?_
  have clearPair := clear.part member
  rw [lookX, lookY] at member
  rw [lookX] at clearPair ⊢
  rcases mem_cons.mp member with rfl | member
  · exact sameHash_of_integer clearPair numX numY
  · cases mem_singleton.mp member
    exact sameHash_of_integer clearPair denX denY

theorem sameHash_of_real {b : RealNumber}
    (clear : EqualpClear heap depth x y) (numberX : (heap.look x).isNumber = true)
    (numberY : (heap.look y).isNumber = true) (valueX : realAt heap x = some a)
    (valueY : realAt heap y = some b) (equalp : realEqualp platform a b = some true) :
    SameHash platform heap depth x y := by
  by_cases same : x = y
  · rw [same]
    exact .refl depth y
  have alike := (clear.alike same).number numberX numberY
  cases floatX : (heap.look x).float with
  | some v =>
    cases valueX.symm.trans (realAt_float floatX)
    cases floatY : (heap.look y).float with
    | some w =>
      cases valueY.symm.trans (realAt_float floatY)
      cases FloatValue.eq_of_same (some.inj equalp)
      exact sameHash_of_word (fun m h => hashEqualp_float floatX m depth h)
        fun m h => hashEqualp_float floatY m depth h
    | none =>
      obtain ⟨k, lookY, convertible⟩ := alike.fixnum_right floatX floatY
      rw [realAt, lookY] at valueY
      cases valueY
      refine sameHash_of_word (fun m h => hashEqualp_float floatX m depth h) fun m h => ?_
      rw [toIndex_of_equal convertible (some.inj equalp)]
      exact hashEqualp_fixnum lookY m depth h
  | none =>
    cases floatY : (heap.look y).float with
    | some w =>
      cases valueY.symm.trans (realAt_float floatY)
      obtain ⟨k, lookX, convertible⟩ := alike.fixnum_left floatX floatY
      rw [realAt, lookX] at valueX
      cases valueX
      refine sameHash_of_word (fun m h => ?_) fun m h => hashEqualp_float floatY m depth h
      rw [toIndex_of_equal convertible (some.inj equalp)]
      exact hashEqualp_fixnum lookX m depth h
    | none =>
      rcases alike.integers floatX floatY with ⟨k, l, lookX, lookY⟩ |
        ⟨_, _, _, _, lookX, lookY⟩ | ⟨_, _, _, _, lookX, _⟩
      · rw [realAt, lookX] at valueX
        rw [realAt, lookY] at valueY
        cases valueX
        cases valueY
        simp only [realEqualp, rationalEqualp, some.injEq, beq_iff_eq] at equalp
        cases BitVec.toInt_inj.mp equalp
        exact sameHash_of_word (fun m h => hashEqualp_fixnum lookX m depth h)
          fun m h => hashEqualp_fixnum lookY m depth h
      · exact sameHash_of_ratio clear lookX lookY valueX valueY equalp
      · rw [realAt, lookX] at valueX
        cases valueX

theorem isNumber_of_realAt (value : realAt heap x = some a) : (heap.look x).isNumber = true := by
  unfold realAt at value
  split at value
  · rename_i look
    rw [look]
    rfl
  · rename_i look
    rw [look]
    rfl
  · rename_i look
    rw [look]
    rfl
  · rename_i look
    rw [look]
    rfl
  · rename_i look
    rw [look]
    rfl
  · cases value

theorem sameHash_of_complex {re im re' im' : Ref} {a b : Number}
    (clear : EqualpClear heap depth x y) (lookX : heap.look x = .complex re im)
    (lookY : heap.look y = .complex re' im') (valueX : numberAt heap x = some a)
    (valueY : numberAt heap y = some b) (equalp : numberEqualp platform a b = some true) :
    SameHash platform heap depth x y := by
  rw [numberAt, lookX] at valueX
  rw [numberAt, lookY] at valueY
  obtain ⟨c, reX, valueX⟩ := bind_eq_some_iff.mp valueX
  obtain ⟨d, imX, rfl⟩ := map_eq_some_iff.mp valueX
  obtain ⟨c', reY, valueY⟩ := bind_eq_some_iff.mp valueY
  obtain ⟨d', imY, rfl⟩ := map_eq_some_iff.mp valueY
  obtain ⟨real, imag⟩ := andAlso_eq_true.mp equalp
  refine sameHash_of_parts (by rw [lookX]; rfl) (by rw [lookY]; rfl) (by rw [lookX, lookY]; rfl)
    (by rw [lookX, lookY]; rfl) fun pair member => ?_
  have clearPair := clear.part member
  rw [lookX, lookY] at member
  rw [lookX] at clearPair ⊢
  rcases mem_cons.mp member with rfl | member
  · exact sameHash_of_real clearPair (isNumber_of_realAt reX) (isNumber_of_realAt reY) reX reY real
  · cases mem_singleton.mp member
    exact sameHash_of_real clearPair (isNumber_of_realAt imX) (isNumber_of_realAt imY) imX imY imag

theorem NumbersAlike.complex_iff {x y : Object} (alike : NumbersAlike x y) :
    (∃ re im, x = .complex re im) ↔ ∃ re im, y = .complex re im := by
  unfold NumbersAlike at alike
  split at alike
  · simp
  · simp
  · simp
  · rename_i y _
    obtain ⟨v, float, -⟩ := alike
    refine iff_of_false (by simp) ?_
    rintro ⟨re, im, rfl⟩
    cases float
  · obtain ⟨v, float, -⟩ := alike
    refine iff_of_false ?_ (by simp)
    rintro ⟨re, im, rfl⟩
    cases float
  · refine iff_of_false ?_ ?_
    · rintro ⟨re, im, rfl⟩
      cases alike.1
    · rintro ⟨re, im, rfl⟩
      cases alike.2

theorem numberAt_real {a : Number} (notComplex : ¬ ∃ re im, heap.look x = .complex re im)
    (value : numberAt heap x = some a) : ∃ r, realAt heap x = some r ∧ a = .real r := by
  unfold numberAt at value
  split at value
  · rename_i look
    exact absurd ⟨_, _, look⟩ notComplex
  · obtain ⟨r, real, rfl⟩ := map_eq_some_iff.mp value
    exact ⟨r, real, rfl⟩

theorem sameHash_of_number {a b : Number} (differ : x ≠ y)
    (clear : EqualpClear heap depth x y) (numberX : (heap.look x).isNumber = true)
    (numberY : (heap.look y).isNumber = true) (valueX : numberAt heap x = some a)
    (valueY : numberAt heap y = some b) (equalp : numberEqualp platform a b = some true) :
    SameHash platform heap depth x y := by
  have alike := (clear.alike differ).number numberX numberY
  by_cases complex : ∃ re im, heap.look x = .complex re im
  · obtain ⟨_, _, lookY⟩ := alike.complex_iff.mp complex
    obtain ⟨_, _, lookX⟩ := complex
    exact sameHash_of_complex clear lookX lookY valueX valueY equalp
  · obtain ⟨r, realX, rfl⟩ := numberAt_real complex valueX
    obtain ⟨r', realY, rfl⟩ :=
      numberAt_real (fun other => complex (alike.complex_iff.mpr other)) valueY
    exact sameHash_of_real clear numberX numberY realX realY equalp

theorem isCompound_of_elements {o : Object} (elements : o.elements = some xs) :
    o.isCompound = true := by
  cases o with
  | vector self fillp | baseString s | string s | bitVector v => rfl
  | _ => cases elements

theorem hashedParts_of_elements {o : Object} (elements : o.elements = some xs)
    (depth : Int) : o.hashedParts depth = (depth - 1, if depth - 1 = 0 then [] else xs) := by
  cases o with
  | vector self fillp | baseString s | string s | bitVector v =>
    cases elements
    rfl
  | _ => cases elements

theorem sameHash_of_lists {ys : List Ref}
    (clear : EqualpClear heap depth x y) (compoundX : (heap.look x).isCompound = true)
    (compoundY : (heap.look y).isCompound = true)
    (partsX : (heap.look x).hashedParts depth = (depth - 1, if depth - 1 = 0 then [] else xs))
    (partsY : (heap.look y).hashedParts depth = (depth - 1, if depth - 1 = 0 then [] else ys))
    (length : xs.length = ys.length)
    (parts : ∀ pair ∈ xs.zip ys, EqualpClear heap (depth - 1) pair.1 pair.2 →
      SameHash platform heap (depth - 1) pair.1 pair.2) : SameHash platform heap depth x y := by
  refine sameHash_of_parts compoundX compoundY (by rw [partsX, partsY]) ?_ fun pair member => ?_
  · rw [partsX, partsY]
    dsimp only
    split
    · rfl
    · exact length
  · have clearPair := clear.part member
    rw [partsX] at clearPair ⊢
    rw [partsX, partsY] at member
    dsimp only at member
    split at member
    · cases member
    · exact parts pair member clearPair

theorem hashEqualp_of_equalp : ∀ {depth : Int} {x y : Ref}, EqualpClear heap depth x y →
    eclEqualp platform heap n x y = some true → SameHash platform heap depth x y := by
  induction n with
  | zero =>
    intro depth x y _ equalp
    cases equalp
  | succ n ih =>
    intro depth x y clear equalp
    by_cases same : x = y
    · rw [same]
      exact .refl depth y
    have alike := clear.alike same
    cases eclEqualp_succ same equalp with
    | number numberX numberY valueX valueY equalp =>
      exact sameHash_of_number same clear numberX numberY valueX valueY equalp
    | vector lookX lookY length parts =>
      exact sameHash_of_lists clear (isCompound_of_elements lookX)
        (isCompound_of_elements lookY) (hashedParts_of_elements lookX depth)
        (hashedParts_of_elements lookY depth) length
        fun pair member clearPair => ih clearPair (parts pair member)
    | array lookX lookY length parts =>
      exact sameHash_of_lists clear (by rw [lookX]; rfl) (by rw [lookY]; rfl)
        (by rw [lookX]; rfl) (by rw [lookY]; rfl) length
        fun pair member clearPair => ih clearPair (parts pair member)
    | @cons car cdr car' cdr' lookX lookY first second =>
      have length : [car, cdr].length = [car', cdr'].length := rfl
      refine sameHash_of_lists clear (by rw [lookX]; rfl) (by rw [lookY]; rfl)
        (by rw [lookX]; rfl) (by rw [lookY]; rfl) length fun pair member clearPair => ?_
      rcases mem_cons.mp member with rfl | member
      · exact ih clearPair first
      · cases mem_singleton.mp member
        exact ih clearPair second
    | @character a b lookX lookY upcase =>
      refine sameHash_of_word (w := BitVec.ofNat 64 (platform.charUpcase a)) (fun m h => ?_)
        fun m h => ?_
      · rw [hashEqualp, lookX]
        rfl
      · rw [hashEqualp, lookY, upcase]
        rfl
    | clos lookX lookY =>
      refine sameHash_of_word (w := 42) (fun m h => ?_) fun m h => ?_
      · rw [hashEqualp, lookX]
        rfl
      · rw [hashEqualp, lookY]
        rfl
    | hashtable lookX lookY =>
      refine sameHash_of_word (w := 42) (fun m h => ?_) fun m h => ?_
      · rw [hashEqualp, lookX]
        rfl
      · rw [hashEqualp, lookY]
        rfl
    | pathname lookX lookY equal =>
      intro m h
      cases m with
      | zero => rfl
      | succ m =>
        rw [hashEqualp, hashEqualp, lookX, lookY]
        exact congrArg (fun o => o.elim (Except.error HashFault.rounds) Except.ok)
          (hashEqual_of_equal (alike.pathname _ _ lookX lookY) equal m h)
    | random lookX lookY =>
      intro m h
      cases m with
      | zero => rfl
      | succ m =>
        cases alike.random _ _ lookX lookY
        rw [hashEqualp, hashEqualp, lookX, lookY]
        cases m with
        | zero => rfl
        | succ m =>
          simp only [Object.elements, hashEqual, lookX, lookY]

variable (heap) in
/-- The objects that the hash function reaches in one. -/
inductive Reaches : Int → Ref → Ref → Prop where
  | here (depth : Int) (x : Ref) : Reaches depth x x
  | part {depth : Int} {x q u : Ref} (member : q ∈ ((heap.look x).hashedParts depth).2)
      (rest : Reaches ((heap.look x).hashedParts depth).1 q u) : Reaches depth x u

variable (heap) in
/-- The hash function reaches no bignum, whose words it would take for objects. -/
def NoBignum (depth : Int) (x : Ref) : Prop :=
  ∀ u value, Reaches heap depth x u → heap.look u ≠ .bignum value

theorem hashEach_ne_wild {hash : Word → Ref → Except HashFault Word} {xs : List Ref}
    (tame : ∀ x ∈ xs, ∀ h, hash h x ≠ .error .wild) :
    ∀ h, hashEach hash xs h ≠ .error .wild := by
  induction xs with
  | nil =>
    intro h wild
    cases wild
  | cons x xs ih =>
    intro h wild
    rw [hashEach] at wild
    split at wild
    · exact ih (fun y member => tame y (mem_cons_of_mem _ member)) _ wild
    · rename_i fault hashed
      cases wild
      exact tame x mem_cons_self h hashed

theorem hashEqualp_character_ne_wild (m : Nat) (depth : Int) (h : Word) (code : Nat) :
    hashEqualp platform heap m depth h (.character code) ≠ .error .wild := by
  intro wild
  cases m with
  | zero => cases wild
  | succ m => cases wild

theorem hashEqualp_ne_wild (m : Nat) : ∀ {depth : Int} {x : Ref}, NoBignum heap depth x →
    ∀ h, hashEqualp platform heap m depth h x ≠ .error .wild := by
  induction m with
  | zero =>
    intro depth x _ h wild
    cases wild
  | succ m ih =>
    intro depth x clean h
    by_cases compound : (heap.look x).isCompound = true
    · rw [hashEqualp_parts compound]
      exact hashEach_ne_wild (fun q member =>
        ih fun u value reaches => clean u value (.part member reaches)) h
    · intro wild
      rw [hashEqualp] at wild
      cases look : heap.look x with
      | bignum value => exact clean x value (.here depth x) look
      | nil =>
        simp only [look, Object.elements, hashElements] at wild
        split at wild
        · cases wild
        · refine hashEach_ne_wild (fun q member => ?_) h wild
          obtain ⟨c, -, rfl⟩ := mem_map.mp member
          exact fun h => hashEqualp_character_ne_wild m _ h c.toNat
      | ratio _ _ | complex _ _ | cons _ _ | array _ _ | vector _ _ | baseString _ | string _
      | bitVector _ =>
        rw [look] at compound
        exact compound rfl
      | _ =>
        simp only [look, Object.elements] at wild
        first
          | cases wild
          | (cases value : hashEqual heap m depth h x <;> rw [value] at wild <;> cases wild)

/-- Objects that are EQUALP have the same hash, unless a bignum, different numbers of different
types, or different random states stand at the same place. -/
theorem equalp_objects_same_hash (platform : Platform) (heap : Heap) (x y : Ref) (h : Word)
    (cleanX : NoBignum heap 3 x) (clear : EqualpClear heap 3 x y)
    (equalp : ∃ n, eclEqualp platform heap n x y = some true) (m : Nat) :
    hashEqualp platform heap m 3 h x = hashEqualp platform heap m 3 h y ∧
      hashEqualp platform heap m 3 h y ≠ .error .wild := by
  obtain ⟨n, equalp⟩ := equalp
  have same := hashEqualp_of_equalp clear equalp m h
  exact ⟨same, same ▸ hashEqualp_ne_wild m cleanX h⟩

/-- Conversions that wrap around, and characters without case but for the letters A to
Z. -/
def somePlatform : Platform where
  toDouble n := n
  nanToFixnum := -2 ^ 63
  toIndex v :=
    match v with
    | .finite q => BitVec.ofInt 64 (truncate q)
    | _ => 0
  toIndex_finite _ _ _ := rfl
  charUpcase code := if 97 ≤ code ∧ code ≤ 122 then code - 32 else code
  searchHash _ _ _ := none

/-- A vector of 2 and a character, and one of 2.0 and the character in upper case. -/
def vectors : Heap := fun address =>
  if address = 16 then .vector [.fixnum 2, .character 97] 2
  else if address = 32 then .doubleFloat 0x4000000000000000
  else .vector [.pointer 32, .character 65] 2

theorem equalpAlike_of_elements
    (elements : (heap.look x).elements = some xs) : EqualpAlike heap depth x y := by
  refine ⟨fun number => ?_, fun p _ look => ?_, fun value _ look => ?_⟩
  · cases look : heap.look x with
    | vector self fillp | baseString s | string s | bitVector v =>
      rw [look] at number
      cases number
    | _ =>
      rw [look] at elements
      cases elements
  · rw [look] at elements
    cases elements
  · rw [look] at elements
    cases elements

theorem equalpAlike_of_character {code : Nat} : EqualpAlike heap depth (.character code) y := by
  refine ⟨fun number => ?_, fun p _ look => ?_, fun value _ look => ?_⟩
  · cases number
  · cases look
  · cases look

theorem vectors_clear : EqualpClear vectors 3 (.pointer 16) (.pointer 48) := by
  have two : (vectors.look (.pointer 32)).float = some (.finite 2) := by decide +kernel
  have elements : (vectors.look (.pointer 16)).elements = some [.fixnum 2, .character 97] := rfl
  have partsX : (vectors.look (.pointer 16)).hashedParts 3 = (2, [.fixnum 2, .character 97]) := rfl
  have partsY : (vectors.look (.pointer 48)).hashedParts 3 = (2, [.pointer 32, .character 65]) :=
    rfl
  intro inner u v meets _
  cases meets with
  | here => exact equalpAlike_of_elements elements
  | part member rest =>
    rw [partsX] at rest
    rw [partsX, partsY] at member
    rcases mem_cons.mp member with pair | member
    · cases pair
      cases rest with
      | here =>
        refine ⟨fun _ _ => ⟨.finite 2, two, ?_⟩, fun _ _ look => ?_, fun _ _ look => ?_⟩
        · norm_num [FloatValue.Convertible]
        · cases look
        · cases look
      | part member _ => cases member
    · cases mem_singleton.mp member
      cases rest with
      | here => exact equalpAlike_of_character
      | part member _ => cases member

theorem vectors_noBignum : NoBignum vectors 3 (.pointer 16) := by
  have parts : (vectors.look (.pointer 16)).hashedParts 3 = (2, [.fixnum 2, .character 97]) := rfl
  intro u value reaches look
  cases reaches with
  | here => cases look
  | part member rest =>
    rw [parts] at member rest
    rcases mem_cons.mp member with rfl | member
    · cases rest with
      | here => cases look
      | part member _ => cases member
    · cases mem_singleton.mp member
      cases rest with
      | here => cases look
      | part member _ => cases member

theorem equalp_objects_same_hash_vectors :
    eclEqualp somePlatform vectors 3 (.pointer 16) (.pointer 48) = some true ∧
      ∀ m, hashEqualp somePlatform vectors m 3 0 (.pointer 16) =
          hashEqualp somePlatform vectors m 3 0 (.pointer 48) ∧
        hashEqualp somePlatform vectors m 3 0 (.pointer 48) ≠ .error .wild :=
  ⟨by decide +kernel, equalp_objects_same_hash somePlatform vectors (.pointer 16) (.pointer 48) 0
    vectors_noBignum vectors_clear ⟨3, by decide +kernel⟩⟩

/-- The ratio 1/2 and the float 0.5. -/
def halves : Heap := fun address =>
  if address = 16 then .ratio (.fixnum 1) (.fixnum 2) else .doubleFloat 0x3fe0000000000000

theorem ratio_and_float_differ :
    ¬ ∀ (platform : Platform) (heap : Heap) (x y : Ref) (h : Word),
      (∃ n, eclEqualp platform heap n x y = some true) →
        ∀ m, hashEqualp platform heap m 3 h x = hashEqualp platform heap m 3 h y := by
  intro claim
  have same := claim somePlatform halves (.pointer 16) (.pointer 32) 0 ⟨1, by decide +kernel⟩ 2
  revert same
  decide +kernel

end Ecl.Equality
