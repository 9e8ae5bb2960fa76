import Ecl.Equality.EqualHash

/- EQUALP and the hash function for it. -/
namespace Ecl.Equality

inductive FloatValue where
  | finite (q : ℚ)
  | infinite (negative : Bool)
  | nan
  deriving DecidableEq

/-- The float of an integral significand and a binary exponent. -/
def scaled (significand : Int) (exponent : Int) : ℚ :=
  if 0 ≤ exponent then (significand * 2 ^ exponent.toNat : Int)
  else mkRat significand (2 ^ (-exponent).toNat)

def floatValue (e m bits : Nat) : FloatValue :=
  let exponent := bits / 2 ^ m % 2 ^ e
  let significand := bits % 2 ^ m
  let negative := decide (2 ^ (e + m) ≤ bits)
  let sign : Int := if negative then -1 else 1
  let bias : Int := 2 ^ (e - 1) - 1 + m
  if exponent = 2 ^ e - 1 then if significand = 0 then .infinite negative else .nan
  else if exponent = 0 then .finite (scaled (sign * significand) (1 - bias))
  else .finite (scaled (sign * (2 ^ m + significand : Nat)) (exponent - bias))

/-- The operator == of C on the values. -/
def FloatValue.same : FloatValue → FloatValue → Bool
  | finite q, finite q' => q == q'
  | infinite negative, infinite negative' => negative == negative'
  | _, _ => false

/-- Rounding towards zero. -/
def truncate (q : ℚ) : Int := if q < 0 then ⌈q⌉ else ⌊q⌋

/-- What the C compiler, the character tables and the hash tables provide. -/
structure Platform where
  /-- (double)n. -/
  toDouble : Int → ℚ
  /-- (cl_fixnum)d of a NaN. -/
  nanToFixnum : Int
  /-- (cl_index)d, which is defined when the integral part fits. -/
  toIndex : FloatValue → Word
  toIndex_finite : ∀ q, -1 < q → q < 2 ^ 64 → toIndex (.finite q) = BitVec.ofInt 64 (truncate q)
  /-- ecl_char_upcase. -/
  charUpcase : Nat → Nat
  /-- The value that ECL_SEARCH_HASH finds for a key in a table. -/
  searchHash : Heap → Ref → Ref → Option Ref

/-- A real number: the integers by their type, and any float by its value. -/
inductive RealNumber where
  | fixnum (n : Int)
  | bignum (n : Int)
  | ratio (num den : Int)
  | float (v : FloatValue)

inductive Number where
  | real (r : RealNumber)
  | complex (real imag : RealNumber)

variable (platform : Platform)

/-- double_fix_compare(n, d) == 0. -/
def doubleFixEqual (n : Int) : FloatValue → Bool
  | .finite d =>
    if platform.toDouble n < d then false
    else if d < platform.toDouble n then false
    else n == truncate d
  | .infinite _ => false
  | .nan => n == platform.nanToFixnum

def makeInteger (n : Int) : RealNumber :=
  if -2 ^ 61 ≤ n ∧ n < 2 ^ 61 then .fixnum n else .bignum n

/-- cl_rational of a float; there is none for infinities and NaNs. -/
def clRational : FloatValue → Option RealNumber
  | .finite q => some (if q.den = 1 then makeInteger q.num else .ratio q.num q.den)
  | _ => none

/-- ecl_number_equalp of rational numbers. -/
def rationalEqualp : RealNumber → RealNumber → Bool
  | .fixnum a, .fixnum b => a == b
  | .bignum a, .bignum b => a == b
  | .ratio num den, .ratio num' den' => num == num' && den == den'
  | _, _ => false

/-- ecl_number_equalp of real numbers. -/
def realEqualp : RealNumber → RealNumber → Option Bool
  | .fixnum a, .float v => some (doubleFixEqual platform a v)
  | .float v, .fixnum b => some (doubleFixEqual platform b v)
  | .float v, .float w => some (v.same w)
  | .float v, y => (clRational v).map (rationalEqualp · y)
  | x, .float w => (clRational w).map (rationalEqualp x)
  | x, y => some (rationalEqualp x y)

/-- ecl_zerop of a real number. -/
def RealNumber.isZero : RealNumber → Bool
  | fixnum n => n == 0
  | float v => v.same (.finite 0)
  | _ => false

def numberEqualp : Number → Number → Option Bool
  | .real x, .real y => realEqualp platform x y
  | .real x, .complex re im => if im.isZero then realEqualp platform x re else some false
  | .complex re im, .complex re' im' =>
    andAlso (realEqualp platform re re') (realEqualp platform im im')
  | .complex re im, .real y => if im.isZero then realEqualp platform re y else some false

variable (heap : Heap)

/-- The value of an integer object. -/
def integerAt (x : Ref) : Option Int :=
  match heap.look x with
  | .fixnum n => some n.toInt
  | .bignum value => some value
  | _ => none

def realAt (x : Ref) : Option RealNumber :=
  match heap.look x with
  | .fixnum n => some (.fixnum n.toInt)
  | .bignum value => some (.bignum value)
  | .ratio num den =>
    (integerAt heap num).bind fun a => (integerAt heap den).map fun b => .ratio a b
  | .singleFloat bits => some (.float (floatValue 8 23 bits.toNat))
  | .doubleFloat bits => some (.float (floatValue 11 52 bits.toNat))
  | _ => none

def numberAt (x : Ref) : Option Number :=
  match heap.look x with
  | .complex re im =>
    (realAt heap re).bind fun a => (realAt heap im).map fun b => .complex a b
  | _ => (realAt heap x).map .real

/-- ECL_NUMBER_TYPE_P. -/
def Object.isNumber : Object → Bool
  | fixnum _ | bignum _ | ratio _ _ | singleFloat _ | doubleFloat _ | complex _ _ => true
  | _ => false

def Bits.bit (v : Bits) (i : Nat) : BitVec 62 := if v.masked i = 0 then 0 else 1

/-- The elements of a vector up to its fill pointer. -/
def Object.elements : Object → Option (List Ref)
  | vector self fillp => some (self.take fillp)
  | baseString s => some (s.active.map fun c => .character c.toNat)
  | string s => some (s.active.map fun c => .character c.toNat)
  | bitVector v => some ((List.range v.fillp).map fun i => .fixnum (v.bit i))
  | _ => none

/-- A loop that stops at the first pair that differs. -/
def allEqualp (equalp : Ref → Ref → Option Bool) : List (Ref × Ref) → Option Bool
  | [] => some true
  | (x, y) :: rest => andAlso (equalp x y) (allEqualp equalp rest)

/-- The loop over the elements of two vectors or arrays of the same length. -/
def elementsEqualp (equalp : Ref → Ref → Option Bool) (xs ys : List Ref) : Option Bool :=
  if xs.length = ys.length then allEqualp equalp (xs.zip ys) else some false

def eclEqualp : Nat → Ref → Ref → Option Bool
  | 0, _, _ => none
  | n + 1, x, y =>
    if x = y then some true
    else if (heap.look x).isNumber then
      if (heap.look y).isNumber then
        (numberAt heap x).bind fun a => (numberAt heap y).bind (numberEqualp platform a)
      else some false
    else
      match (heap.look x).elements, (heap.look y).elements with
      | some xs, some ys => elementsEqualp (eclEqualp n) xs ys
      | some _, none => some false
      | none, _ =>
        match heap.look x, heap.look y with
        | .array dims self, .array dims' self' =>
          if dims.length = dims'.length ∧ (1 < dims.length → dims = dims') then
            elementsEqualp (eclEqualp n) self self'
          else some false
        | .array _ _, _ => some false
        | .character a, .character b => some (platform.charUpcase a == platform.charUpcase b)
        | .character _, _ => some false
        | .nil, _ => some false
        | .cons car cdr, .cons car' cdr' =>
          andAlso (eclEqualp n car car') (eclEqualp n cdr cdr')
        | .cons _ _, _ => some false
        | .clos cls slots, .clos cls' slots' =>
          if cls = cls' then allEqualp (eclEqualp n) (slots.zip slots') else some false
        | .clos _ _, _ => some false
        | .pathname _, .pathname _ => eclEqual heap n x y
        | .pathname _, _ => some false
        | .hashtable test entries, .hashtable test' entries' =>
          if entries.length = entries'.length ∧ test = test' then
            entries.foldr (fun entry rest =>
              match platform.searchHash heap entry.key y with
              | some value => andAlso (eclEqualp n entry.value value) rest
              | none => some false) (some true)
          else some false
        | .hashtable _ _, _ => some false
        | .random value, .random value' => eclEqualp n value value'
        | .random _, _ => some false
        | _, _ => eclEql heap n x y

/-- The hash function has no word after so many rounds, or it reads words that are no objects. -/
inductive HashFault where
  | rounds
  | wild
  deriving DecidableEq

def hashEach (hash : Word → Ref → Except HashFault Word) : List Ref → Word → Except HashFault Word
  | [], h => .ok h
  | x :: xs, h =>
    match hash h x with
    | .ok h => hashEach hash xs h
    | .error fault => .error fault

/-- The loop over the elements in _HASH_EQUALP. -/
def hashElements (hash : Int → Word → Ref → Except HashFault Word) (depth : Int) (xs : List Ref)
    (h : Word) : Except HashFault Word :=
  if depth - 1 = 0 then .ok h else hashEach (hash (depth - 1)) xs h

def hashEqualp : Nat → Int → Word → Ref → Except HashFault Word
  | 0, _, _, _ => .error .rounds
  | n + 1, depth, h, x =>
    match (heap.look x).elements with
    | some xs => hashElements (hashEqualp n) depth xs h
    | none =>
      match heap.look x with
      | .character code => .ok (hashWord h (BitVec.ofNat 64 (platform.charUpcase code)))
      | .nil =>
        hashElements (hashEqualp n) depth (nilName.map fun c => .character c.toNat) h
      | .cons car cdr =>
        if depth - 1 = 0 then .ok h
        else hashEach (hashEqualp n (depth - 1)) [car, cdr] h
      | .array _ self => hashElements (hashEqualp n) depth self h
      | .fixnum k => .ok (hashWord h (k.signExtend 64))
      | .singleFloat bits =>
        .ok (hashWord h (platform.toIndex (floatValue 8 23 bits.toNat)))
      | .doubleFloat bits =>
        .ok (hashWord h (platform.toIndex (floatValue 11 52 bits.toNat)))
      -- the address of the limbs and the word of the sizes are taken for numerator and denominator
      | .bignum _ => .error .wild
      | .ratio num den => hashEach (hashEqualp n 0) [num, den] h
      | .complex re im => hashEach (hashEqualp n 0) [re, im] h
      | .clos _ _ => .ok (hashWord h 42)
      | .hashtable _ _ => .ok (hashWord h 42)
      | _ => (hashEqual heap n depth h x).elim (.error .rounds) .ok

end Ecl.Equality
