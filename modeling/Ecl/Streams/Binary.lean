import Ecl.Number.Boole
import Ecl.Streams.Stream

/- Binary streams: the integers of an element type as octets, in both orders. -/
namespace Ecl.Streams

open Ecl.Number (Integer makeFixnum fix mostPositiveFixnum)
open Ecl.Number.Integer (logOp ash)

/-- What the fields byte_size and flags of a stream say about its elements: how many octets they
have and whether they are signed. IO_STREAM_ELT_TYPE holds the number of bits as a fixnum. -/
structure ByteType where
  octets : Nat
  signed : Bool
  positive : 0 < octets
  fixnum : (8 * octets : Nat) ≤ mostPositiveFixnum

/-- The field byte_size. -/
def ByteType.byteSize (type : ByteType) : Nat := 8 * type.octets

/-- The functions read_byte8 and write_byte8 of the dispatch table, for a single octet. -/
structure ByteOps (State : Type) where
  readByte8 : State → Option Byte × State
  writeByte8 : State → Byte → Option State

/-- A file that is read and one that is written, as the octets after the position and as those
before it. -/
def fileOps : ByteOps (List Byte) where
  readByte8
    | [] => (none, [])
    | c :: rest => (some c, rest)
  writeByte8 octets c := some (octets ++ [c])

/-- cl_logior and cl_logand of two integers. -/
def logior (x y : Integer) : Integer := logOp .ior x [y]

def logand (x y : Integer) : Integer := logOp .and x [y]

/-- cl_ash by MAKE_FIXNUM(w). -/
def ashBy (x : Integer) (w : BitVec 64) : Integer := ash x (fix (w.setWidth 62))

/-- The cast of fix(b) to unsigned char. No bignum has only eight bits. -/
def octetOf : Integer → Byte
  | .fixnum n => (fix n).setWidth 8
  | .bignum _ => 0

/-- MAKE_FIXNUM of an octet as a signed and as an unsigned char. -/
def octetFixnum (signed : Bool) (c : Byte) : Integer :=
  makeFixnum (if signed then c.signExtend 64 else c.setWidth 64)

section

variable {State : Type} (ops : ByteOps State)

/-- The loop of generic_read_byte_le with k octets left, so that bs is 8 * k. -/
def readByteLeLoop (signed : Bool) : Nat → Nat → Integer → State → Option Integer × State
  | 0, _, output, strm => (some output, strm)
  | k + 1, nb, output, strm =>
    match ops.readByte8 strm with
    | (none, strm) => (none, strm)
    | (some c, strm) =>
      let aux := octetFixnum (8 * (k + 1) ≤ 8 && signed) c
      readByteLeLoop signed k (nb + 8) (logior output (ashBy aux (BitVec.ofNat 64 nb))) strm

/-- generic_read_byte_le, with NIL as `none`. -/
def genericReadByteLe (type : ByteType) (strm : State) : Option Integer × State :=
  readByteLeLoop ops type.signed type.octets 0 (makeFixnum 0) strm

/-- The loop of generic_write_byte_le with k octets left. -/
def writeByteLeLoop : Nat → Integer → State → State
  | 0, _, strm => strm
  | k + 1, c, strm =>
    match ops.writeByte8 strm (octetOf (logand c (makeFixnum 0xFF))) with
    | none => strm
    | some strm => writeByteLeLoop k (ashBy c (-8)) strm

def genericWriteByteLe (type : ByteType) (c : Integer) (strm : State) : State :=
  writeByteLeLoop ops type.octets c strm

/-- The loop of generic_read_byte, where output is NULL before the first octet. -/
def readByteLoop (signed : Bool) : Nat → Option Integer → State → Option Integer × State
  | 0, output, strm => (output, strm)
  | k + 1, output, strm =>
    match ops.readByte8 strm with
    | (none, strm) => (none, strm)
    | (some c, strm) =>
      let output := match output with
        | some output => logior (octetFixnum false c) (ashBy output 8)
        | none => octetFixnum signed c
      readByteLoop signed k (some output) strm

def genericReadByte (type : ByteType) (strm : State) : Option Integer × State :=
  readByteLoop ops type.signed type.octets none strm

/-- The loop of generic_write_byte with k octets left. -/
def writeByteLoop : Nat → Integer → State → State
  | 0, _, strm => strm
  | k + 1, c, strm =>
    let bs := 8 * k
    let b := logand (makeFixnum 0xFF) (if bs = 0 then c else ashBy c (-BitVec.ofNat 64 bs))
    match ops.writeByte8 strm (octetOf b) with
    | none => strm
    | some strm => writeByteLoop k c strm

def genericWriteByte (type : ByteType) (c : Integer) (strm : State) : State :=
  writeByteLoop ops type.octets c strm

/-- The two orders: the functions with ECL_STREAM_LITTLE_ENDIAN and those without. -/
def readByte (littleEndian : Bool) (type : ByteType) (strm : State) : Option Integer × State :=
  if littleEndian then genericReadByteLe ops type strm else genericReadByte ops type strm

def writeByte (littleEndian : Bool) (type : ByteType) (c : Integer) (strm : State) : State :=
  if littleEndian then genericWriteByteLe ops type c strm else genericWriteByte ops type c strm

def readBytes (littleEndian : Bool) (type : ByteType) : Nat → State → List (Option Integer) × State
  | 0, strm => ([], strm)
  | n + 1, strm =>
    let (x, strm) := readByte ops littleEndian type strm
    let (xs, strm) := readBytes littleEndian type n strm
    (x :: xs, strm)

def writeBytes (littleEndian : Bool) (type : ByteType) (xs : List Integer) (strm : State) : State :=
  xs.foldl (fun strm x => writeByte ops littleEndian type x strm) strm

end

/-- An integer of the element type. -/
structure Element (type : ByteType) where
  object : Integer
  canonical : object.Canonical
  low : if type.signed then -(2 : Int) ^ (type.byteSize - 1) ≤ object.value else 0 ≤ object.value
  high :
    if type.signed then object.value < (2 : Int) ^ (type.byteSize - 1)
    else object.value < (2 : Int) ^ type.byteSize

/- What is written to a binary stream is read again. -/

open List Int

open Ecl.Number (Integer makeFixnum fix toInt_fix makeFixnum_is mostPositiveFixnum
  mostPositiveFixnum_eq mostNegativeFixnum mostNegativeFixnum_eq)
open Ecl.Number.Integer (ash_is boole_is is_value)

theorem logior_is (x y : Integer) : (logior x y).Is (Int.lor x.value y.value) :=
  (boole_is .ior x y).of_eq (congrFun (congrFun bitwise_or x.value) y.value)

theorem logand_is (x y : Integer) : (logand x y).Is (Int.land x.value y.value) :=
  (boole_is .and x y).of_eq (congrFun (congrFun bitwise_and x.value) y.value)

variable {x : Integer}

theorem ashBy_is {n : Int} (is : x.Is n) (w : BitVec 64) :
    (ashBy x w).Is (Lib.shift n (w.setWidth 62).toInt) := by
  have shifted := ash_is is.canonical (fix (w.setWidth 62))
  rw [toInt_fix, is.value_eq] at shifted
  exact shifted

theorem ashBy_left {n : Int} (is : x.Is n) {bits : Nat}
    (small : (bits : Int) ≤ mostPositiveFixnum) :
    (ashBy x (BitVec.ofNat 64 bits)).Is (n * 2 ^ bits) := by
  rw [mostPositiveFixnum_eq] at small
  have count : ((BitVec.ofNat 64 bits).setWidth 62).toInt = bits := by
    rw [BitVec.toInt_eq_toNat_cond, BitVec.toNat_setWidth, BitVec.toNat_ofNat]
    split <;> omega
  have shifted := ashBy_is is (BitVec.ofNat 64 bits)
  rw [count, Lib.shift_left (by omega), toNat_natCast] at shifted
  exact shifted

theorem ashBy_right {n : Int} (is : x.Is n) {bits : Nat}
    (small : (bits : Int) ≤ mostPositiveFixnum) :
    (ashBy x (-BitVec.ofNat 64 bits)).Is (n / 2 ^ bits) := by
  rw [mostPositiveFixnum_eq] at small
  have count : ((-BitVec.ofNat 64 bits).setWidth 62).toInt = -(bits : Int) := by
    rw [BitVec.toInt_eq_toNat_cond, BitVec.toNat_setWidth, BitVec.toNat_neg, BitVec.toNat_ofNat]
    split <;> omega
  have shifted := ashBy_is is (-BitVec.ofNat 64 bits)
  rw [count, Lib.shift_right] at shifted
  exact shifted

theorem octetFixnum_is (signed : Bool) (c : Byte) :
    (octetFixnum signed c).Is (if signed then c.toInt else c.toNat) := by
  have low := mostNegativeFixnum_eq
  have high := mostPositiveFixnum_eq
  have range := c.isLt
  cases signed with
  | true =>
    have value : (c.signExtend 64).toInt = c.toInt := BitVec.toInt_signExtend_of_le (by decide)
    have word := BitVec.toInt_eq_toNat_cond c
    have made := makeFixnum_is (w := c.signExtend 64) (by split at word <;> omega)
      (by split at word <;> omega)
    rw [value] at made
    exact made
  | false =>
    have value : (c.setWidth 64).toInt = c.toNat := by
      rw [BitVec.toInt_eq_toNat_cond, BitVec.toNat_setWidth]
      split <;> omega
    have made := makeFixnum_is (w := c.setWidth 64) (by omega) (by omega)
    rw [value] at made
    exact made

/-- The lowest octet of a number. -/
def octet (n : Int) : Byte := BitVec.ofInt 8 n

theorem toNat_octet (n : Int) : ((octet n).toNat : Int) = n % 256 := by
  rw [octet, BitVec.toNat_ofInt]
  omega

theorem toInt_octet {n : Int} (low : -128 ≤ n) (high : n < 128) : (octet n).toInt = n := by
  rw [octet, BitVec.toInt_ofInt, bmod_def]
  split <;> omega

theorem octetOf_is {b : Integer} {n : Int} (is : b.Is (n % 256)) : octetOf b = octet n := by
  have least := mostNegativeFixnum_eq
  have most := mostPositiveFixnum_eq
  cases b with
  | fixnum w =>
    have value : w.toInt = n % 256 := is.value_eq
    have word := BitVec.toInt_eq_toNat_cond w
    have range := w.isLt
    apply BitVec.eq_of_toNat_eq
    have found := toNat_octet n
    rw [octetOf, BitVec.toNat_setWidth]
    have extended : (fix w).toNat = w.toNat := by
      have same := toInt_fix w
      have wide := BitVec.toInt_eq_toNat_cond (fix w)
      have bound := (fix w).isLt
      split at word <;> split at wide <;> omega
    split at word <;> omega
  | bignum v =>
    have outside : v < mostNegativeFixnum ∨ mostPositiveFixnum < v := is.canonical
    have value : v = n % 256 := is.value_eq
    omega

theorem mask_is : (makeFixnum 0xFF).Is 255 := ⟨trivial, by decide⟩

theorem land_mask (n : Int) : Int.land n 255 = n % 256 := Lib.land_ones n 8

/-- The octets of a number, the lowest one first. -/
def octetsLe : Nat → Int → List Byte
  | 0, _ => []
  | k + 1, n => octet n :: octetsLe k (n / 256)

/-- The octets of a number, the highest one first. -/
def octetsBe : Nat → Int → List Byte
  | 0, _ => []
  | k + 1, n => octet (n / 2 ^ (8 * k)) :: octetsBe k n

theorem length_octetsLe (k : Nat) (n : Int) : (octetsLe k n).length = k := by
  induction k generalizing n with
  | zero => rfl
  | succ k ih => rw [octetsLe, length_cons, ih]

theorem length_octetsBe (k : Nat) (n : Int) : (octetsBe k n).length = k := by
  induction k with
  | zero => rfl
  | succ k ih => rw [octetsBe, length_cons, ih]

theorem writeByteLeLoop_eq (k : Nat) {c : Integer} {n : Int} (is : c.Is n) (strm : List Byte) :
    writeByteLeLoop fileOps k c strm = strm ++ octetsLe k n := by
  induction k generalizing c n strm with
  | zero => rw [writeByteLeLoop, octetsLe, append_nil]
  | succ k ih =>
    have masked : (logand c (makeFixnum 0xFF)).Is (n % 256) := by
      apply (logand_is _ _).of_eq
      rw [is.value_eq, mask_is.value_eq, land_mask]
    have shifted : (ashBy c (-8)).Is (n / 256) := @ashBy_right c n is 8 (by decide)
    rw [writeByteLeLoop, octetOf_is masked, octetsLe]
    show writeByteLeLoop fileOps k _ (strm ++ [octet n]) = _
    rw [ih shifted, append_assoc, singleton_append]

theorem writeByteLoop_eq (k : Nat) {c : Integer} {n : Int} (is : c.Is n)
    (small : (8 * k : Nat) ≤ mostPositiveFixnum) (strm : List Byte) :
    writeByteLoop fileOps k c strm = strm ++ octetsBe k n := by
  induction k generalizing strm with
  | zero => rw [writeByteLoop, octetsBe, append_nil]
  | succ k ih =>
    have shifted : (if 8 * k = 0 then c else ashBy c (-BitVec.ofNat 64 (8 * k))).Is
        (n / 2 ^ (8 * k)) := by
      split
      · rename_i last
        rw [last, pow_zero, ediv_one]
        exact is
      · exact ashBy_right is (by omega)
    have masked := logand_is (makeFixnum 0xFF)
      (if 8 * k = 0 then c else ashBy c (-BitVec.ofNat 64 (8 * k)))
    rw [mask_is.value_eq, shifted.value_eq, Lib.land_comm, land_mask] at masked
    rw [writeByteLoop, octetOf_is masked, octetsBe]
    show writeByteLoop fileOps k c (strm ++ [octet (n / 2 ^ (8 * k))]) = _
    rw [ih (by omega), append_assoc, singleton_append]

/-- A number has so many octets, with its sign or without one. -/
def Fits (signed : Bool) (k : Nat) (n : Int) : Prop :=
  if signed then -2 ^ (8 * k) ≤ 2 * n ∧ 2 * n < 2 ^ (8 * k) else 0 ≤ n ∧ n < 2 ^ (8 * k)

theorem two_pow_octets (k : Nat) : (2 : Int) ^ (8 * (k + 1)) = 256 * 2 ^ (8 * k) := by
  rw [Nat.mul_succ, pow_add, mul_comm]
  rfl

variable {signed : Bool}

theorem Fits.zero {n : Int} (fits : Fits signed 0 n) : n = 0 := by
  cases signed <;> · simp only [Fits, if_true, if_false, Bool.false_eq_true] at fits; omega

theorem Fits.tail {k : Nat} {n : Int} (fits : Fits signed (k + 2) n) :
    Fits signed (k + 1) (n / 256) := by
  have power := two_pow_octets k
  have power' : (2 : Int) ^ (8 * (k + 2)) = 256 * 2 ^ (8 * (k + 1)) := two_pow_octets (k + 1)
  have positive : (0 : Int) < 2 ^ (8 * k) := by positivity
  cases signed <;>
    · simp only [Fits, if_true, if_false, Bool.false_eq_true] at fits ⊢
      omega

theorem Fits.octet_eq {n : Int} (fits : Fits signed 1 n) :
    (if signed then (octet n).toInt else ((octet n).toNat : Int)) = n := by
  cases signed with
  | true =>
    simp only [Fits, if_true] at fits
    exact toInt_octet (by omega) (by omega)
  | false =>
    simp only [Fits, Bool.false_eq_true, if_false] at fits ⊢
    have found := toNat_octet n
    omega

theorem Fits.head {k : Nat} {n : Int} (fits : Fits signed (k + 1) n) :
    Fits signed 1 (n / 2 ^ (8 * k)) := by
  induction k generalizing n with
  | zero => rwa [Nat.mul_zero, pow_zero, ediv_one]
  | succ k ih =>
    have lower := ih fits.tail
    rwa [ediv_ediv_of_nonneg (by decide), ← two_pow_octets] at lower

theorem lor_place {low high : Int} {bits : Nat} (nonneg : 0 ≤ low) (below : low < 2 ^ bits) :
    Int.lor low (high * 2 ^ bits) = low + high * 2 ^ bits := by
  rw [Lib.lor_comm, Lib.lor_mul_two_pow high nonneg below, add_comm]

theorem readByteLeLoop_eq (signed : Bool) (rest : List Byte) (k : Nat) :
    ∀ {n low : Int} {nb : Nat} {output : Integer}, Fits signed k n →
      (nb + 8 * k : Nat) ≤ mostPositiveFixnum → output.Is low → 0 ≤ low → low < 2 ^ nb →
      ∃ x : Integer, readByteLeLoop fileOps signed k nb output (octetsLe k n ++ rest) =
        (some x, rest) ∧ x.Is (low + n * 2 ^ nb) := by
  induction k with
  | zero =>
    intro n low nb output fits _ is _ _
    refine ⟨output, rfl, ?_⟩
    rw [fits.zero, zero_mul, add_zero]
    exact is
  | succ k ih =>
    intro n low nb output fits small is nonneg below
    have digit := octetFixnum_is (8 * (k + 1) ≤ 8 && signed) (octet n)
    have placed := logior_is output
      (ashBy (octetFixnum (8 * (k + 1) ≤ 8 && signed) (octet n)) (BitVec.ofNat 64 nb))
    rw [is.value_eq, (ashBy_left digit (by omega)).value_eq, lor_place nonneg below] at placed
    have step : readByteLeLoop fileOps signed (k + 1) nb output (octetsLe (k + 1) n ++ rest) =
        readByteLeLoop fileOps signed k (nb + 8)
          (logior output (ashBy (octetFixnum (8 * (k + 1) ≤ 8 && signed) (octet n))
            (BitVec.ofNat 64 nb))) (octetsLe k (n / 256) ++ rest) := rfl
    rw [step]
    cases k with
    | zero =>
      refine ⟨_, rfl, placed.of_eq ?_⟩
      have one : (decide (8 * (0 + 1) ≤ 8) && signed) = signed := rfl
      rw [one, fits.octet_eq]
    | succ k =>
      have plain : (decide (8 * (k + 1 + 1) ≤ 8) && signed) = false := by
        rw [decide_eq_false (by omega), Bool.false_and]
      rw [plain, if_neg Bool.false_ne_true, toNat_octet] at placed
      have power : (2 : Int) ^ (nb + 8) = 2 ^ nb * 256 := pow_add 2 nb 8
      have positive : (0 : Int) < 2 ^ nb := by positivity
      have byte := emod_lt_of_pos n (b := 256) (by decide)
      have byteNonneg := emod_nonneg n (b := 256) (by decide)
      have added : low + n % 256 * 2 ^ nb < 2 ^ (nb + 8) := by
        rw [power]
        nlinarith
      rw [← plain] at placed
      obtain ⟨x, found, isX⟩ := @ih _ _ (nb + 8) _ fits.tail (by omega) placed
        (by positivity) added
      refine ⟨x, found, isX.of_eq ?_⟩
      have whole := emod_add_mul_ediv n 256
      have spread := congrArg (· * (2 : Int) ^ nb) whole
      simp only [add_mul] at spread
      rw [power, ← spread]
      ring

theorem readByteLoop_some (signed : Bool) (rest : List Byte) (n : Int) (k : Nat) :
    ∀ {output : Integer}, output.Is (n / 2 ^ (8 * k)) →
      ∃ x : Integer, readByteLoop fileOps signed k (some output) (octetsBe k n ++ rest) =
        (some x, rest) ∧ x.Is n := by
  induction k with
  | zero =>
    intro output is
    rw [Nat.mul_zero, pow_zero, ediv_one] at is
    exact ⟨output, rfl, is⟩
  | succ k ih =>
    intro output is
    have placed := logior_is (octetFixnum false (octet (n / 2 ^ (8 * k)))) (ashBy output 8)
    have shifted : (ashBy output 8).Is (n / 2 ^ (8 * (k + 1)) * 2 ^ 8) :=
      @ashBy_left output _ is 8 (by decide)
    have byte := toNat_octet (n / 2 ^ (8 * k))
    have range := (octet (n / 2 ^ (8 * k))).isLt
    have digit : (octetFixnum false (octet (n / 2 ^ (8 * k)))).value =
        ((octet (n / 2 ^ (8 * k))).toNat : Int) := (octetFixnum_is false _).value_eq
    have whole := emod_add_mul_ediv (n / 2 ^ (8 * k)) 256
    have next : Int.lor (octetFixnum false (octet (n / 2 ^ (8 * k)))).value
        (ashBy output 8).value = n / 2 ^ (8 * k) := by
      rw [digit, shifted.value_eq, lor_place (by omega) (by omega), byte, two_pow_octets,
        mul_comm 256, ← ediv_ediv_of_nonneg (by positivity)]
      omega
    exact ih (placed.of_eq next)

variable {type : ByteType}

theorem Element.fits (x : Element type) : Fits type.signed type.octets x.object.value := by
  have low := x.low
  have high := x.high
  have positive := type.positive
  have power : (2 : Int) ^ type.byteSize = 2 * 2 ^ (type.byteSize - 1) := by
    rw [← pow_succ']
    congr 1
    unfold ByteType.byteSize
    omega
  rw [ByteType.byteSize] at low high power
  cases signed : type.signed with
  | true =>
    simp only [signed, if_true] at low high
    simp only [Fits, if_true]
    omega
  | false =>
    simp only [signed, Bool.false_eq_true, if_false] at low high
    exact ⟨low, high⟩

/-- The octets that stand for an integer in either order. -/
def octets (littleEndian : Bool) (type : ByteType) (n : Int) : List Byte :=
  if littleEndian then octetsLe type.octets n else octetsBe type.octets n

theorem length_octets (littleEndian : Bool) (type : ByteType) (n : Int) :
    (octets littleEndian type n).length = type.octets := by
  cases littleEndian
  · exact length_octetsBe _ n
  · exact length_octetsLe _ n

theorem writeByte_eq (littleEndian : Bool) (x : Element type) (strm : List Byte) :
    writeByte fileOps littleEndian type x.object strm =
      strm ++ octets littleEndian type x.object.value := by
  cases littleEndian
  · exact writeByteLoop_eq _ (is_value x.canonical) type.fixnum strm
  · exact writeByteLeLoop_eq _ (is_value x.canonical) strm

theorem readByte_eq (littleEndian : Bool) (x : Element type) (rest : List Byte) :
    readByte fileOps littleEndian type (octets littleEndian type x.object.value ++ rest) =
      (some x.object, rest) := by
  have is := is_value x.canonical
  cases littleEndian with
  | true =>
    obtain ⟨y, found, isY⟩ := @readByteLeLoop_eq type.signed rest type.octets _ 0 0 _ x.fits
      (by have := type.fixnum; omega) Ecl.Number.Integer.makeFixnum_zero (le_refl 0)
      (by decide)
    rw [pow_zero, mul_one, zero_add] at isY
    rw [isY.unique is] at found
    exact found
  | false =>
    obtain ⟨k, count⟩ : ∃ k, type.octets = k + 1 := Nat.exists_eq_succ_of_ne_zero
      (Nat.pos_iff_ne_zero.mp type.positive)
    have fits := x.fits
    rw [count] at fits
    have first := octetFixnum_is type.signed (octet (x.object.value / 2 ^ (8 * k)))
    rw [fits.head.octet_eq] at first
    obtain ⟨y, found, isY⟩ := readByteLoop_some type.signed rest x.object.value k first
    rw [isY.unique is] at found
    rw [readByte, if_neg Bool.false_ne_true, genericReadByte, octets, if_neg Bool.false_ne_true,
      count]
    exact found

/-- The octets of a sequence of integers. -/
def allOctets (littleEndian : Bool) {type : ByteType} (xs : List (Element type)) : List Byte :=
  xs.flatMap fun x => octets littleEndian type x.object.value

theorem length_allOctets (littleEndian : Bool) (xs : List (Element type)) :
    (allOctets littleEndian xs).length = type.octets * xs.length := by
  induction xs with
  | nil => rfl
  | cons x xs ih =>
    rw [allOctets, flatMap_cons, length_append, length_octets, ← allOctets, ih,
      length_cons, Nat.mul_succ, Nat.add_comm]

theorem writeBytes_eq (littleEndian : Bool) (xs : List (Element type)) :
    ∀ strm : List Byte, writeBytes fileOps littleEndian type (xs.map Element.object) strm =
      strm ++ allOctets littleEndian xs := by
  induction xs with
  | nil => exact fun strm => (append_nil strm).symm
  | cons x xs ih =>
    intro strm
    rw [map_cons, writeBytes, foldl_cons, writeByte_eq, ← writeBytes, ih,
      append_assoc]
    rfl

theorem readBytes_eq (littleEndian : Bool) (xs : List (Element type)) (rest : List Byte) :
    readBytes fileOps littleEndian type xs.length (allOctets littleEndian xs ++ rest) =
      (xs.map fun x => some x.object, rest) := by
  induction xs with
  | nil => rfl
  | cons x xs ih =>
    have first := readByte_eq littleEndian x (allOctets littleEndian xs ++ rest)
    have split : allOctets littleEndian (x :: xs) =
        octets littleEndian type x.object.value ++ allOctets littleEndian xs := rfl
    rw [length_cons, readBytes, split, append_assoc, first]
    simp only [ih, map_cons]

/-- What is written to a binary file is read again, one integer after the other, and each of them
takes its own number of octets. -/
theorem binary_round_trip (littleEndian : Bool) (type : ByteType) (xs : List (Element type))
    (before rest : List Byte) :
    ∃ written, writeBytes fileOps littleEndian type (xs.map Element.object) before =
        before ++ written ∧
      written.length = type.octets * xs.length ∧
      ∀ k ≤ xs.length, readBytes fileOps littleEndian type k (written ++ rest) =
        ((xs.take k).map fun x => some x.object, written.drop (type.octets * k) ++ rest) := by
  refine ⟨allOctets littleEndian xs, writeBytes_eq littleEndian xs before,
    length_allOctets littleEndian xs, ?_⟩
  intro k le
  have split : allOctets littleEndian xs =
      allOctets littleEndian (xs.take k) ++ allOctets littleEndian (xs.drop k) := by
    rw [allOctets, allOctets, allOctets, ← flatMap_append, take_append_drop]
  have count : (xs.take k).length = k := length_take_of_le le
  have read := readBytes_eq littleEndian (xs.take k) (allOctets littleEndian (xs.drop k) ++ rest)
  have length := length_allOctets littleEndian (xs.take k)
  rw [count] at read length
  rw [split, append_assoc, read, ← length, drop_left]

end Ecl.Streams
