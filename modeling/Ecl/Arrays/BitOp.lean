import Ecl.Arrays.Displace
import Ecl.Number.Boole

/- The function si_bit_array_op of num_log.d. An int has 32 bits and a cl_fixnum 64. -/
namespace Ecl.Arrays

open Ecl.Lib (Memory)
open Ecl.Number (BitOperator fixnumOperations)

inductive BitError where
  | illegalArguments
  | invalidOperator
  deriving DecidableEq

/-- The operators by their codes. -/
def bitOperators : List BitOperator :=
  [.clr, .and, .andc2, .b1, .andc1, .b2, .xor, .ior, .nor, .eqv, .c2, .orc2, .c1, .orc1, .nand,
    .set]

def coerceToLogicalOperator (o : Int) : Except BitError BitOperator :=
  if o < 0 then .error .invalidOperator
  else
    match bitOperators[o.toNat]? with
    | some op => .ok op
    | none => .error .invalidOperator

def highMask (nbits : Nat) : BitVec 32 := (~~~0xff#32).sshiftRight nbits

def setHigh (place : BitVec 32) (nbits : Nat) (value : BitVec 32) : BitVec 32 :=
  (place &&& ~~~highMask nbits) ||| (value &&& highMask nbits)

def setLow (place : BitVec 32) (nbits : Nat) (value : BitVec 32) : BitVec 32 :=
  (place &&& highMask (8 - nbits)) ||| (value &&& ~~~highMask (8 - nbits))

def byteAt (m : Memory) (address : Nat) : BitVec 32 := (m address).setWidth 32

/-- An int is stored in a byte. -/
def putByte (m : Memory) (address : Nat) (value : BitVec 32) : Memory :=
  m.write address (value.setWidth 8)

/-- The bits above the byte are not masked out. -/
def extractByte (m : Memory) (pointer index offset : Nat) : BitVec 32 :=
  let integer := byteAt m (pointer + index + 1) &&& 0xff#32
  (byteAt m (pointer + index) <<< offset) ||| integer.sshiftRight (8 - offset)

def storeByte (m : Memory) (pointer index offset : Nat) (value : BitVec 32) : Memory :=
  let m := putByte m (pointer + index)
    (setLow (byteAt m (pointer + index)) (8 - offset) (value.sshiftRight offset))
  putByte m (pointer + index + 1)
    (setHigh (byteAt m (pointer + index + 1)) offset (value <<< (8 - offset)))

/-- An operation on cl_fixnum is given ints, and its value is cut to an int or a byte. -/
def operate (op : BitOperator) (x y : BitVec 32) : BitVec 32 :=
  (fixnumOperations op (x.signExtend 64) (y.signExtend 64)).setWidth 32

/-- The loop for bits that begin with the bytes. -/
def operateAligned (op : BitOperator) (xp yp rp d : Nat) (m : Memory) : Memory :=
  let n := d / 8
  let m := (List.range n).foldl
    (fun m i => putByte m (rp + i) (operate op (byteAt m (xp + i)) (byteAt m (yp + i)))) m
  let j := d % 8
  if 0 < j then
    putByte m (rp + n)
      (setHigh (byteAt m (rp + n)) j (operate op (byteAt m (xp + n)) (byteAt m (yp + n))))
  else m

/-- One round of the other loops, which store the byte that `value` computes; the last
byte may be a part of one. -/
def storeRound (rp ro d : Nat) (value : Memory → Nat → BitVec 32) (m : Memory) (i : Nat) :
    Memory :=
  if i = d / 8 then
    let j := d % 8
    if j = 0 then m
    else storeByte m rp i ro (setHigh (extractByte m rp i ro) j (value m i))
  else storeByte m rp i ro (value m i)

def storeBytes (rp ro d : Nat) (value : Memory → Nat → BitVec 32) (m : Memory) : Memory :=
  (List.range (d / 8 + 1)).foldl (storeRound rp ro d value) m

/-- The loop for bits that begin anywhere. -/
def operateShifted (op : BitOperator) (xp xo yp yo rp ro d : Nat) (m : Memory) : Memory :=
  storeBytes rp ro d
    (fun m i => operate op (extractByte m xp i xo) (extractByte m yp i yo)) m

/-- The loop that copies the bytes of a temporary vector. -/
def copyBits (self rp ro d : Nat) (m : Memory) : Memory :=
  storeBytes rp ro d (fun m i => byteAt m (self + i)) m

namespace Header

/-- The tests that go to ERROR: the other array has the same shape. -/
def fits (x y : Header) : Bool :=
  match x.type with
  | .bitvector => y.type = .bitvector && x.dim = y.dim
  | .array =>
    x.elttype = .bit && y.type = .array && y.elttype = .bit &&
      x.dims.length = y.dims.length && x.dims = y.dims
  | _ => false

/-- The result array overlaps an argument, and does not begin with it. -/
def overlaps (r x : Header) (d : Nat) : Bool :=
  let i : Int := ((r.self : Int) - x.self) * 8 + ((r.offset : Int) - x.offset)
  0 < i && i < d || i < 0 && -i < d

/-- A new simple vector, or a new array with the dimensions of `x`, at an address. -/
def allocBits (x : Header) (address : Nat) : Header where
  type := x.type
  elttype := .bit
  adjustable := false
  hasFillPointer := false
  displaced := none
  dim := x.dim
  dims := x.dims
  fillp := x.dim
  self := address
  offset := 0

end Header

/-- The last argument: NIL, T or an array. -/
inductive Destination where
  | nil
  | t
  | array (r : Header)
  deriving DecidableEq

/-- T stands for the first array. -/
def Destination.given (x : Header) : Destination → Option Header
  | .nil => none
  | .t => some x
  | .array r => some r

def operateInto (op : BitOperator) (x y r : Header) (d : Nat) (m : Memory) : Memory :=
  if x.offset = 0 ∧ y.offset = 0 ∧ r.offset = 0 then
    operateAligned op x.self y.self r.self d m
  else operateShifted op x.self x.offset y.self y.offset r.self r.offset d m

/-- The bits of a new array are at the address `new`. -/
def bitArrayOp (m : Memory) (new : Nat) (o : Int) (x y : Header) (r : Destination) :
    Except BitError (Header × Memory) := do
  let d := x.dim
  if !x.fits y then .error .illegalArguments
  else
    match r.given x with
    | none => do
        let r := x.allocBits new
        let op ← coerceToLogicalOperator o
        .ok (r, operateInto op x y r d m)
    | some r0 =>
      if !x.fits r0 then .error .illegalArguments
      else if r0.overlaps x d || r0.overlaps y d then do
        let r := x.allocBits new
        let op ← coerceToLogicalOperator o
        .ok (r0, copyBits r.self r0.self r0.offset d (operateInto op x y r d m))
      else do
        let op ← coerceToLogicalOperator o
        .ok (r0, operateInto op x y r0 d m)

/- The operations on bit arrays work bit by bit, also where the arrays overlap. -/

open List BitVec

open Ecl.Lib (Memory)
open Ecl.Number (BitOperator)

theorem getLsbD_byteMask (j : Nat) : (0xff#32).getLsbD j = decide (j < 8) := by
  have ones : 0xff#32 = (BitVec.allOnes 8).setWidth 32 := by decide
  rw [ones, getLsbD_setWidth, getLsbD_allOnes, Bool.and_eq_right_iff_imp]
  intro below
  have small := of_decide_eq_true below
  exact decide_eq_true (by omega)

theorem msb_not_byteMask : (~~~0xff#32).msb = true := by
  rw [msb_eq_getLsbD_last, getLsbD_not, getLsbD_byteMask]
  rfl

theorem getLsbD_highMask {nbits j : Nat} (below : j < 8) :
    (highMask nbits).getLsbD j = decide (8 ≤ nbits + j) := by
  have small : ¬ 32 ≤ j := by omega
  unfold highMask
  rw [getLsbD_sshiftRight, msb_not_byteMask, decide_eq_false small]
  by_cases inside : nbits + j < 32
  · rw [if_pos inside, getLsbD_not, getLsbD_byteMask, decide_eq_true inside]
    by_cases high : 8 ≤ nbits + j
    · rw [decide_eq_true high, decide_eq_false (by omega)]
      rfl
    · rw [decide_eq_false high, decide_eq_true (by omega)]
      rfl
  · rw [if_neg inside, decide_eq_true (by omega)]
    rfl

theorem getLsbD_setHigh (place value : BitVec 32) {nbits k : Nat} (below : k < 8) :
    (setHigh place nbits value).getLsbD (7 - k) =
      if k < nbits then value.getLsbD (7 - k) else place.getLsbD (7 - k) := by
  have mask : (highMask nbits).getLsbD (7 - k) = decide (8 ≤ nbits + (7 - k)) :=
    getLsbD_highMask (by omega)
  have small : 7 - k < 32 := by omega
  rw [setHigh, getLsbD_or, getLsbD_and, getLsbD_and, getLsbD_not, mask]
  by_cases high : k < nbits
  · have reached : 8 ≤ nbits + (7 - k) := by omega
    simp [high, reached]
  · have missed : ¬ 8 ≤ nbits + (7 - k) := by omega
    simp [high, missed, small]

theorem getLsbD_setLow (place value : BitVec 32) {nbits k : Nat} (below : k < 8)
    (le : nbits ≤ 8) :
    (setLow place nbits value).getLsbD (7 - k) =
      if k < 8 - nbits then place.getLsbD (7 - k) else value.getLsbD (7 - k) := by
  have mask : (highMask (8 - nbits)).getLsbD (7 - k) = decide (8 ≤ 8 - nbits + (7 - k)) :=
    getLsbD_highMask (by omega)
  have small : 7 - k < 32 := by omega
  rw [setLow, getLsbD_or, getLsbD_and, getLsbD_and, getLsbD_not, mask]
  by_cases high : k < 8 - nbits
  · have reached : 8 ≤ 8 - nbits + (7 - k) := by omega
    simp [high, reached]
  · have missed : ¬ 8 ≤ 8 - nbits + (7 - k) := by omega
    simp [high, missed, small]

theorem getLsbD_byteAt (m : Memory) (address : Nat) {k : Nat} (below : k < 8) :
    (byteAt m address).getLsbD (7 - k) = m.bit (8 * address + k) := by
  have quotient : (8 * address + k) / 8 = address := by omega
  have remainder : (8 * address + k) % 8 = k := by omega
  have small : 7 - k < 32 := by omega
  rw [Memory.bit, quotient, remainder, byteAt, getLsbD_setWidth]
  simp [small]

theorem bit_putByte (m : Memory) (address : Nat) (value : BitVec 32) (k : Nat) :
    (putByte m address value).bit k =
      if k / 8 = address then value.getLsbD (7 - k % 8) else m.bit k := by
  have small : 7 - k % 8 < 8 := by omega
  rw [putByte, Memory.bit_write, getLsbD_setWidth]
  simp [small]

theorem getLsbD_masked (m : Memory) (address j : Nat) :
    (byteAt m address &&& 0xff#32).getLsbD j =
      ((byteAt m address).getLsbD j && decide (j < 8)) := by
  rw [getLsbD_and, getLsbD_byteMask]

theorem msb_masked (m : Memory) (address : Nat) : (byteAt m address &&& 0xff#32).msb = false := by
  rw [msb_eq_getLsbD_last, getLsbD_masked, decide_eq_false (by omega), Bool.and_false]

theorem getLsbD_extractByte (m : Memory) (pointer index : Nat) {offset k : Nat}
    (inside : offset < 8) (below : k < 8) :
    (extractByte m pointer index offset).getLsbD (7 - k) =
      m.bit (8 * (pointer + index) + offset + k) := by
  have small : 7 - k < 32 := by omega
  unfold extractByte
  rw [getLsbD_or, getLsbD_shiftLeft, getLsbD_sshiftRight, msb_masked]
  simp only [small, decide_true, Bool.true_and, show ¬ 32 ≤ 7 - k by omega, decide_false,
    Bool.not_false]
  by_cases first : offset + k < 8
  · have above : ¬ 7 - k < offset := by omega
    have bit := getLsbD_byteAt m (pointer + index) first
    rw [show 7 - (offset + k) = 7 - k - offset by omega, ← Nat.add_assoc] at bit
    have none : ¬ 8 - offset + (7 - k) < 8 := by omega
    rw [if_pos (by omega), getLsbD_masked, bit]
    simp [above, none]
  · have low : 7 - k < offset := by omega
    have second : offset + k - 8 < 8 := by omega
    have bit := getLsbD_byteAt m (pointer + index + 1) second
    rw [show 7 - (offset + k - 8) = 8 - offset + (7 - k) by omega] at bit
    have some : 8 - offset + (7 - k) < 8 := by omega
    rw [if_pos (by omega), getLsbD_masked, bit]
    have place : 8 * (pointer + index + 1) + (offset + k - 8) =
        8 * (pointer + index) + offset + k := by omega
    rw [place]
    simp [low, some]

theorem written_storeByte (m : Memory) (pointer index : Nat) {offset : Nat} (inside : offset < 8)
    (value : BitVec 32) :
    m.Written (storeByte m pointer index offset value) (8 * (pointer + index) + offset)
      (fun k => value.getLsbD (7 - k)) 8 := by
  intro k
  have below : k % 8 < 8 := Nat.mod_lt k (by decide)
  have place : 8 * (k / 8) + k % 8 = k := Nat.div_add_mod k 8
  unfold storeByte
  rw [bit_putByte]
  by_cases second : k / 8 = pointer + index + 1
  · rw [if_pos second, getLsbD_setHigh _ _ below]
    by_cases high : k % 8 < offset
    · rw [if_pos high, if_pos (by omega), getLsbD_shiftLeft]
      have word : 7 - k % 8 < 32 := by omega
      have moved : ¬ 7 - k % 8 < 8 - offset := by omega
      simp only [word, moved, decide_true, decide_false, Bool.not_false, Bool.true_and]
      congr 1
      omega
    · rw [if_neg high, if_neg (by omega), getLsbD_byteAt _ _ below, ← second, place, bit_putByte,
        if_neg (by omega)]
  · rw [if_neg second, bit_putByte]
    by_cases first : k / 8 = pointer + index
    · rw [if_pos first, getLsbD_setLow _ _ below (by omega)]
      by_cases high : k % 8 < offset
      · rw [if_pos (by omega), if_neg (by omega), getLsbD_byteAt _ _ below, ← first, place]
      · rw [if_neg (by omega), if_pos (by omega), getLsbD_sshiftRight]
        have word : ¬ 32 ≤ 7 - k % 8 := by omega
        simp only [word, decide_false, Bool.not_false, Bool.true_and]
        rw [if_pos (by omega)]
        congr 1
        omega
    · rw [if_neg first, if_neg (by omega)]

variable {m m' : Memory}

theorem written_storeRound (rp : Nat) {ro d i : Nat} (inside : ro < 8)
    (value : Memory → Nat → BitVec 32) (m : Memory) (some : 8 * i ≤ d) :
    m.Written (storeRound rp ro d value m i) (8 * rp + ro + 8 * i)
      (fun k => (value m i).getLsbD (7 - k)) (min 8 (d - 8 * i)) := by
  have start : 8 * (rp + i) + ro = 8 * rp + ro + 8 * i := by omega
  unfold storeRound
  by_cases last : i = d / 8
  · rw [if_pos last]
    have rest : min 8 (d - 8 * i) = d % 8 := by omega
    rw [rest]
    by_cases none : d % 8 = 0
    · simp only [none, if_true]
      exact Memory.Written.none m _ _
    · simp only [none, if_false]
      intro k
      rw [← start, written_storeByte m rp i inside _ k]
      by_cases byte : 8 * (rp + i) + ro ≤ k ∧ k < 8 * (rp + i) + ro + 8
      · rw [if_pos byte]
        dsimp only
        rw [getLsbD_setHigh _ _ (by omega)]
        by_cases high : k - (8 * (rp + i) + ro) < d % 8
        · rw [if_pos high, if_pos (by omega)]
        · rw [if_neg high, if_neg (by omega), getLsbD_extractByte m rp i inside (by omega),
            Nat.add_sub_cancel' byte.1]
      · rw [if_neg byte, if_neg (by omega)]
  · rw [if_neg last, ← start]
    have whole : min 8 (d - 8 * i) = 8 := by omega
    rw [whole]
    exact written_storeByte m rp i inside (value m i)

/-- The rounds before `n` have written the bits of `f`, if the bytes that are stored show
these bits as long as only the bits before have been written. -/
theorem written_rounds {rp ro d : Nat} (inside : ro < 8) {value : Memory → Nat → BitVec 32}
    {f : Nat → Bool}
    (source : ∀ i m', m.Written m' (8 * rp + ro) f (8 * i) →
      ∀ k < 8, 8 * i + k < d → (value m' i).getLsbD (7 - k) = f (8 * i + k))
    {n : Nat} (rounds : 8 * n ≤ d + 8) :
    m.Written ((List.range n).foldl (storeRound rp ro d value) m) (8 * rp + ro) f
      (min (8 * n) d) := by
  induction n with
  | zero =>
    rw [Nat.mul_zero, Nat.zero_min]
    exact Memory.Written.none m _ f
  | succ n ih =>
    have before := ih (by omega)
    rw [Nat.min_eq_left (by omega)] at before
    rw [range_succ, foldl_append]
    show m.Written (storeRound rp ro d value _ n) _ _ _
    have round := written_storeRound rp inside value
      ((List.range n).foldl (storeRound rp ro d value) m) (show 8 * n ≤ d by omega)
    have total : min (8 * (n + 1)) d = 8 * n + min 8 (d - 8 * n) := by omega
    rw [total]
    apply before.append
    intro k
    rw [round k]
    by_cases new : 8 * rp + ro + 8 * n ≤ k ∧ k < 8 * rp + ro + 8 * n + min 8 (d - 8 * n)
    · rw [if_pos new, if_pos new]
      exact source n _ before _ (by omega) (by omega)
    · rw [if_neg new, if_neg new]

theorem written_storeBytes {rp ro d : Nat} (inside : ro < 8) {value : Memory → Nat → BitVec 32}
    {f : Nat → Bool}
    (source : ∀ i m', m.Written m' (8 * rp + ro) f (8 * i) →
      ∀ k < 8, 8 * i + k < d → (value m' i).getLsbD (7 - k) = f (8 * i + k)) :
    m.Written (storeBytes rp ro d value m) (8 * rp + ro) f d := by
  have all := written_rounds inside source (show 8 * (d / 8 + 1) ≤ d + 8 by omega)
  rwa [Nat.min_eq_right (by omega)] at all

theorem extractByte_zero (m : Memory) (pointer index : Nat) :
    extractByte m pointer index 0 = byteAt m (pointer + index) := by
  have none : (byteAt m (pointer + index + 1) &&& 0xff#32).sshiftRight 8 = 0#32 := by
    apply eq_of_getLsbD_eq
    intro j below
    rw [getLsbD_sshiftRight, msb_masked, getLsbD_masked, decide_eq_false (by omega)]
    simp
  show byteAt m (pointer + index) <<< 0 |||
    (byteAt m (pointer + index + 1) &&& 0xff#32).sshiftRight 8 = _
  rw [none, shiftLeft_zero, or_zero]

theorem storeByte_zero (m : Memory) (pointer index : Nat) (value : BitVec 32) :
    storeByte m pointer index 0 value = putByte m (pointer + index) value := by
  apply Memory.ext_bit
  intro k
  rw [bit_putByte, written_storeByte m pointer index (by decide) value k]
  by_cases byte : k / 8 = pointer + index
  · rw [if_pos byte, if_pos (by omega)]
    congr 1
    omega
  · rw [if_neg byte, if_neg (by omega)]

theorem operateAligned_eq (op : BitOperator) (xp yp rp d : Nat) (m : Memory) :
    operateAligned op xp yp rp d m = operateShifted op xp 0 yp 0 rp 0 d m := by
  unfold operateAligned operateShifted storeBytes
  rw [range_succ, foldl_append]
  have rounds : (List.range (d / 8)).foldl
      (fun m i => putByte m (rp + i) (operate op (byteAt m (xp + i)) (byteAt m (yp + i)))) m =
      (List.range (d / 8)).foldl (storeRound rp 0 d
        (fun m i => operate op (extractByte m xp i 0) (extractByte m yp i 0))) m := by
    apply foldl_ext
    intro m i member
    have early : i ≠ d / 8 := Nat.ne_of_lt (mem_range.mp member)
    rw [storeRound, if_neg early, extractByte_zero, extractByte_zero, storeByte_zero]
  dsimp only
  rw [rounds, foldl_cons, foldl_nil, storeRound, if_pos rfl, extractByte_zero,
    extractByte_zero, extractByte_zero]
  dsimp only
  by_cases rest : d % 8 = 0
  · rw [if_neg (by omega), if_pos rest]
  · rw [if_pos (by omega), if_neg rest, storeByte_zero]

theorem getLsbD_operate (op : BitOperator) (x y : BitVec 32) {k : Nat} (below : k < 8) :
    (operate op x y).getLsbD (7 - k) = op.truth (x.getLsbD (7 - k)) (y.getLsbD (7 - k)) := by
  have small : 7 - k < 32 := by omega
  have word : 7 - k < 64 := by omega
  rw [operate, getLsbD_setWidth, Number.getLsbD_fixnumOperations op _ _ word,
    getLsbD_signExtend, getLsbD_signExtend]
  simp only [small, word, decide_true, Bool.true_and, if_true]

namespace Header

/-- The first bit of a bit array in memory. -/
def bitStart (x : Header) : Nat := 8 * x.self + x.offset

/-- Two rows of `d` bits are the same or have no bit in common. -/
def Apart (r x : Header) (d : Nat) : Prop :=
  x.bitStart = r.bitStart ∨ x.bitStart + d ≤ r.bitStart ∨ r.bitStart + d ≤ x.bitStart

theorem apart_of_overlaps {r x : Header} {d : Nat} (clear : r.overlaps x d = false) :
    r.Apart x d := by
  unfold overlaps at clear
  simp only [Bool.or_eq_false_iff, Bool.and_eq_false_iff, decide_eq_false_iff_not] at clear
  unfold Apart bitStart
  omega

end Header

theorem read_before {r x : Header} {d n : Nat} {f : Nat → Bool} (inside : x.offset < 8)
    (apart : r.Apart x d) (written : m.Written m' r.bitStart f (8 * n)) {k : Nat} (below : k < 8)
    (some : 8 * n + k < d) :
    (extractByte m' x.self n x.offset).getLsbD (7 - k) = m.bit (x.bitStart + (8 * n + k)) := by
  have place : 8 * (x.self + n) + x.offset + k = x.bitStart + (8 * n + k) := by
    unfold Header.bitStart
    omega
  rw [getLsbD_extractByte m' x.self n inside below, place]
  apply written.outside
  unfold Header.Apart at apart
  omega

/-- The result of an operation on two arrays. -/
def resultBit (op : BitOperator) (x y : Header) (m : Memory) (i : Nat) : Bool :=
  op.truth (m.bit (x.bitStart + i)) (m.bit (y.bitStart + i))

theorem written_operateInto (op : BitOperator) {x y r : Header} {d : Nat} (insideX : x.offset < 8)
    (insideY : y.offset < 8) (insideR : r.offset < 8) (apartX : r.Apart x d)
    (apartY : r.Apart y d) :
    m.Written (operateInto op x y r d m) r.bitStart (resultBit op x y m) d := by
  have shifted : operateInto op x y r d m =
      operateShifted op x.self x.offset y.self y.offset r.self r.offset d m := by
    unfold operateInto
    split
    · rename_i aligned
      rw [operateAligned_eq, aligned.1, aligned.2.1, aligned.2.2]
    · rfl
  rw [shifted]
  apply written_storeBytes insideR
  intro n m' written k below some
  rw [getLsbD_operate op _ _ below, read_before insideX apartX written below some,
    read_before insideY apartY written below some]
  rfl

/-- The bytes that hold the bits of an array are in use. -/
structure Header.Within (x : Header) (used : Nat → Prop) (d : Nat) : Prop where
  offset : x.offset < 8
  bits : ∀ i < d, used ((x.bitStart + i) / 8)

/-- None of the bytes for `d` bits at an address is in use. -/
def Fresh (used : Nat → Prop) (new d : Nat) : Prop := ∀ i < (d + 7) / 8, ¬ used (new + i)

section Temporary

variable {used : Nat → Prop} {new d : Nat} {x y r : Header}

theorem Fresh.outside (fresh : Fresh used new d) {k : Nat} (isUsed : used (k / 8)) :
    k < 8 * new ∨ 8 * new + d ≤ k := by
  by_contra inside
  have here : new + (k / 8 - new) = k / 8 := by omega
  have unused := fresh (k / 8 - new) (by omega)
  rw [here] at unused
  exact unused isUsed

theorem bitStart_allocBits (x : Header) (new : Nat) : (x.allocBits new).bitStart = 8 * new := rfl

theorem Fresh.apart (fresh : Fresh used new d) (within : r.Within used d) :
    (x.allocBits new).Apart r d := by
  unfold Header.Apart
  rw [bitStart_allocBits]
  by_contra common
  -- the later of the two first bits
  by_cases later : r.bitStart ≤ 8 * new
  · have isUsed := within.bits (8 * new - r.bitStart) (by omega)
    rw [Nat.add_sub_cancel' later] at isUsed
    have := fresh.outside isUsed
    omega
  · have isUsed := within.bits 0 (by omega)
    rw [Nat.add_zero] at isUsed
    have := fresh.outside isUsed
    omega

theorem written_copyBits (inside : r.offset < 8) {self : Nat} {f : Nat → Bool}
    (source : ∀ i < d, m.bit (8 * self + i) = f i)
    (apart : ∀ i < d, 8 * self + i < r.bitStart ∨ r.bitStart + d ≤ 8 * self + i) :
    m.Written (copyBits self r.self r.offset d m) r.bitStart f d := by
  apply written_storeBytes inside
  intro n m' written k below some
  have place : 8 * (self + n) + k = 8 * self + (8 * n + k) := by omega
  have out := apart (8 * n + k) some
  rw [getLsbD_byteAt m' _ below, place]
  have kept : m'.bit (8 * self + (8 * n + k)) = m.bit (8 * self + (8 * n + k)) := by
    apply written.outside
    show _ < r.bitStart ∨ r.bitStart + 8 * n ≤ _
    omega
  rw [kept, source _ some]

end Temporary

theorem Header.fits_self {x y : Header} (shape : x.fits y = true) : x.fits x = true := by
  unfold fits at shape ⊢
  cases type : x.type with
  | bitvector => simp
  | array =>
    rw [type] at shape
    simp only [Bool.and_eq_true] at shape
    simp [shape.1.1.1.1]
  | vector | string | baseString =>
    rw [type] at shape
    cases shape

section Calls

variable {used : Nat → Prop} {new : Nat} {o : Int} {op : BitOperator} {x y : Header}
  (operator : coerceToLogicalOperator o = .ok op) (shape : x.fits y = true)
  (withinX : x.Within used x.dim) (withinY : y.Within used x.dim) (fresh : Fresh used new x.dim)

include withinX withinY fresh in
theorem written_new (op : BitOperator) (m : Memory) :
    m.Written (operateInto op x y (x.allocBits new) x.dim m) (8 * new) (resultBit op x y m)
      x.dim :=
  written_operateInto op withinX.offset withinY.offset (by decide : 0 < 8)
    (fresh.apart withinX) (fresh.apart withinY)

include operator shape withinX withinY fresh in
theorem bitArrayOp_given (m : Memory) {r : Destination} {r0 : Header}
    (given : r.given x = some r0) (shapeR : x.fits r0 = true) (withinR : r0.Within used x.dim) :
    ∃ m', bitArrayOp m new o x y r = .ok (r0, m') ∧
      (∀ i < x.dim, m'.bit (r0.bitStart + i) = resultBit op x y m i) ∧
      ∀ k, (k < r0.bitStart ∨ r0.bitStart + x.dim ≤ k) → used (k / 8) → m'.bit k = m.bit k := by
  unfold bitArrayOp
  simp only [shape, shapeR, given, operator]
  cases overlap : r0.overlaps x x.dim || r0.overlaps y x.dim with
  | true =>
    have into := written_new withinX withinY fresh op m
    let m1 := operateInto op x y (x.allocBits new) x.dim m
    have copied : m1.Written (copyBits new r0.self r0.offset x.dim m1) r0.bitStart
        (resultBit op x y m) x.dim := by
      apply written_copyBits withinR.offset
      · intro i below
        exact into.inside below
      · intro i below
        by_contra inside
        have isUsed := withinR.bits (8 * new + i - r0.bitStart) (by omega)
        have place : r0.bitStart + (8 * new + i - r0.bitStart) = 8 * new + i := by omega
        rw [place] at isUsed
        have := fresh.outside isUsed
        omega
    refine ⟨copyBits new r0.self r0.offset x.dim m1, rfl, ?_, ?_⟩
    · intro i below
      exact copied.inside below
    · intro k out isUsed
      rw [copied.outside out]
      exact into.outside (fresh.outside isUsed)
  | false =>
    have clear := Bool.or_eq_false_iff.mp overlap
    have into := written_operateInto (m := m) op withinX.offset withinY.offset withinR.offset
      (Header.apart_of_overlaps clear.1) (Header.apart_of_overlaps clear.2)
    refine ⟨operateInto op x y r0 x.dim m, rfl, ?_, ?_⟩
    · intro i below
      exact into.inside below
    · intro k out _
      exact into.outside out

include operator shape withinX withinY fresh in
/-- Each bit of the result is the operation on two bits from before the call, and the other
bits stay as they were. -/
theorem bitArrayOp_pointwise (m : Memory) {r : Destination}
    (shapeR : ∀ r0, r = .array r0 → x.fits r0 = true)
    (withinR : ∀ r0, r = .array r0 → r0.Within used x.dim) :
    ∃ result m', bitArrayOp m new o x y r = .ok (result, m') ∧
      result = (r.given x).getD (x.allocBits new) ∧
      (∀ i < x.dim, m'.bit (result.bitStart + i) =
        op.truth (m.bit (x.bitStart + i)) (m.bit (y.bitStart + i))) ∧
      ∀ k, (k < result.bitStart ∨ result.bitStart + x.dim ≤ k) → (used (k / 8) ∨ r = .nil) →
        m'.bit k = m.bit k := by
  cases r with
  | nil =>
    have into := written_new withinX withinY fresh op m
    refine ⟨x.allocBits new, operateInto op x y (x.allocBits new) x.dim m, ?_, rfl, ?_, ?_⟩
    · unfold bitArrayOp
      simp only [shape, Destination.given, operator]
      rfl
    · intro i below
      exact into.inside below
    · intro k out _
      exact into.outside out
  | t =>
    obtain ⟨m', call, inside, outside⟩ := bitArrayOp_given operator shape withinX withinY fresh m
      (r := .t) rfl (Header.fits_self shape) withinX
    refine ⟨x, m', call, rfl, inside, ?_⟩
    intro k out isUsed
    exact outside k out (isUsed.resolve_right nofun)
  | array r0 =>
    obtain ⟨m', call, inside, outside⟩ := bitArrayOp_given operator shape withinX withinY fresh m
      (r := .array r0) rfl (shapeR r0 rfl) (withinR r0 rfl)
    refine ⟨r0, m', call, rfl, inside, ?_⟩
    intro k out isUsed
    exact outside k out (isUsed.resolve_right nofun)

end Calls

def twentyBits (self offset : Nat) : Header :=
  { Header.blank with
    type := .bitvector, elttype := .bit, dim := 20, self := self, offset := offset }

/-- The result begins 5 bits after the first argument. -/
theorem bitArrayOp_pointwise_overlap :
    (twentyBits 1 0).overlaps (twentyBits 0 3) 20 = true ∧
    ∃ m', bitArrayOp (fun address => BitVec.ofNat 8 (37 * address)) 100 6 (twentyBits 0 3)
        (twentyBits 10 7) (.array (twentyBits 1 0)) = .ok (twentyBits 1 0, m') ∧
      ∀ i < 20, m'.bit (8 + i) =
        (Memory.bit (fun address => BitVec.ofNat 8 (37 * address)) (3 + i) ^^
          Memory.bit (fun address => BitVec.ofNat 8 (37 * address)) (87 + i)) := by
  have within (self offset : Nat) (inside : offset < 8) (low : self < 20) :
      (twentyBits self offset).Within (· < 100) 20 := by
    refine ⟨inside, ?_⟩
    intro i below
    show (8 * self + offset + i) / 8 < 100
    omega
  have fresh : Fresh (· < 100) 100 20 := by
    intro i _
    show ¬ 100 + i < 100
    omega
  obtain ⟨result, m', call, same, inside, _⟩ :=
    bitArrayOp_pointwise (show coerceToLogicalOperator 6 = .ok .xor from rfl)
      (show (twentyBits 0 3).fits (twentyBits 10 7) = true from rfl)
      (within 0 3 (by decide) (by decide)) (within 10 7 (by decide) (by decide)) fresh
      (fun address => BitVec.ofNat 8 (37 * address)) (r := .array (twentyBits 1 0))
      (by intro r0 same; cases same; rfl)
      (by intro r0 same; cases same; exact within 1 0 (by decide) (by decide))
  refine ⟨by decide, m', ?_, ?_⟩
  · rw [call, same]
    rfl
  · intro i below
    rw [same] at inside
    exact inside i below

end Ecl.Arrays
