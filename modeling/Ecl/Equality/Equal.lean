import Mathlib.Data.BitVec
import Mathlib.Data.Rat.Floor

/- The hash functions over words, bytes and character codes of newhash.h, for 64 bits. -/
namespace Ecl.Equality

abbrev Word : Type := BitVec 64
abbrev Byte : Type := BitVec 8

def goldenRatio : Word := 0x9e3779b97f4a7c13#64

/-- The three words that are mixed. -/
structure Mixed where
  a : Word
  b : Word
  c : Word

/-- Three lines of the macro MIX. -/
def Mixed.lines (right left last : Nat) (m : Mixed) : Mixed :=
  let a := m.a - m.b - m.c
  let a := a ^^^ (m.c >>> right)
  let b := m.b - m.c - a
  let b := b ^^^ (a <<< left)
  let c := m.c - a - b
  let c := c ^^^ (b >>> last)
  ⟨a, b, c⟩

/-- The macro MIX. -/
def mix (m : Mixed) : Mixed :=
  (((m.lines 43 9 8).lines 38 23 5).lines 35 49 11).lines 12 18 22

/-- The shifts of the bytes of a word; the last is not 56. -/
def byteShifts : List Nat := [0, 8, 16, 24, 32, 40, 48, 52]

/-- The bytes of a word, added with their shifts. -/
def sumBytes (shifts : List Nat) (k : List Byte) : Word :=
  ((k.zip shifts).map fun (byte, shift) => byte.setWidth 64 <<< shift).sum

def extractWord (k : List Byte) : Word := sumBytes byteShifts (k.take 8)

/-- The loop of HASH_STRING over blocks of 24 bytes. -/
def hashBlocks : Nat → List Byte → Mixed → Mixed × List Byte
  | 0, k, m => (m, k)
  | n + 1, k, m =>
    if 24 ≤ k.length then
      hashBlocks n (k.drop 24)
        (mix ⟨m.a + extractWord k, m.b + extractWord (k.drop 8), m.c + extractWord (k.drop 16)⟩)
    else (m, k)

/-- hash_string. The first byte of the last word is left for the length. -/
def hashString (initval : Word) (k : List Byte) : Word :=
  let (m, rest) := hashBlocks k.length k ⟨goldenRatio, goldenRatio, initval⟩
  (mix ⟨m.a + sumBytes byteShifts (rest.take 8), m.b + sumBytes byteShifts ((rest.drop 8).take 8),
    m.c + BitVec.ofNat 64 k.length + sumBytes byteShifts.tail (rest.drop 16)⟩).c

def hashWord (c w : Word) : Word := (mix ⟨w + goldenRatio, goldenRatio, c⟩).c

/-- The loop of HASH_BASE_STRING and HASH_FULL_STRING over three characters. -/
def hashThrees : List Word → Mixed → Mixed
  | x :: y :: z :: s, m => hashThrees s (mix ⟨m.a + x, m.b + y, m.c + z⟩)
  | [x, y], m => ⟨m.a + x, m.b + y, m.c⟩
  | [x], m => ⟨m.a, m.b + x, m.c⟩
  | [], m => m

/-- What HASH_BASE_STRING and HASH_FULL_STRING do with the codes they read. -/
def hashCodes (s : List Word) (h : Word) : Word :=
  let m := hashThrees s ⟨goldenRatio, goldenRatio, h⟩
  (mix ⟨m.a, m.b, m.c + BitVec.ofNat 64 s.length⟩).c

/-- hash_base_string: the characters are unsigned. -/
def hashBaseString (s : List Byte) (h : Word) : Word := hashCodes (s.map (·.setWidth 64)) h

/-- hash_full_string: the codes are signed integers of 32 bits. -/
def hashFullString (s : List (BitVec 32)) (h : Word) : Word :=
  hashCodes (s.map (·.signExtend 64)) h

/- Lisp objects as words that are immediate or point into a heap. -/

/-- A `cl_object`. -/
inductive Ref where
  | nil
  | fixnum (n : BitVec 62)
  | character (code : Nat)
  | pointer (address : Nat)
  deriving DecidableEq

/-- The word itself, with its tag. -/
def Ref.word : Ref → Word
  | nil => 1
  | fixnum n => n.setWidth 64 <<< 2 ||| 3
  | character code => BitVec.ofNat 64 (4 * code + 2)
  | pointer address => BitVec.ofNat 64 address

structure Pathname where
  host : Ref
  device : Ref
  directory : Ref
  name : Ref
  type : Ref
  version : Ref

/-- A string: its data and its fill pointer. -/
structure Chars (α : Type) where
  self : List α
  fillp : Nat

/-- The characters up to the fill pointer. -/
def Chars.active {α : Type} (s : Chars α) : List α := s.self.take s.fillp

/-- The components, in the order in which they are hashed. -/
def Pathname.parts (p : Pathname) : List Ref :=
  [p.directory, p.name, p.type, p.host, p.device, p.version]

/-- A bit vector: its bytes, its fill pointer and the place of its first bit. -/
structure Bits where
  self : List Byte
  fillp : Nat
  offset : Nat
  enough : fillp + offset ≤ 8 * self.length

/-- The word `self.bit[(i+o)/8] & (0200>>(i+o)%8)` that stands for a bit. -/
def Bits.masked (v : Bits) (i : Nat) : Byte :=
  v.self.getD ((i + v.offset) / 8) 0 &&& (0x80#8 >>> ((i + v.offset) % 8))

structure TableEntry where
  key : Ref
  value : Ref

/-- What an object is, by its type. The elements of a vector or array are as
ECL_AREF_UNSAFE returns them. -/
inductive Object where
  | nil
  | fixnum (n : BitVec 62)
  | character (code : Nat)
  | cons (car cdr : Ref)
  | bignum (value : Int)
  | ratio (num den : Ref)
  | singleFloat (bits : BitVec 32)
  | doubleFloat (bits : BitVec 64)
  | complex (real imag : Ref)
  | symbol (name : Chars Byte)
  | baseString (s : Chars Byte)
  | string (s : Chars (BitVec 32))
  | bitVector (v : Bits)
  | vector (self : List Ref) (fillp : Nat)
  | array (dims : List Nat) (self : List Ref)
  | pathname (p : Pathname)
  | foreign (data : Nat)
  | random (value : Ref)
  | clos (cls : Ref) (slots : List Ref)
  | hashtable (test : Nat) (entries : List TableEntry)
  | other (type : Nat)

abbrev Heap : Type := Nat → Object

/-- The object that a word stands for. -/
def Heap.look (heap : Heap) : Ref → Object
  | .nil => .nil
  | .fixnum n => .fixnum n
  | .character code => .character code
  | .pointer address => heap address

/-- The bytes of a word in memory. -/
def bytesOf (n : Nat) (w : Nat) : List Byte :=
  (List.range n).map fun i => BitVec.ofNat 8 (w / 256 ^ i)

/-- The limbs of a bignum in memory. -/
def limbBytes (value : Int) : List Byte :=
  bytesOf (8 * ((Nat.log2 value.natAbs) / 64 + 1)) value.natAbs

def isNan (e m bits : Nat) : Bool :=
  bits / 2 ^ m % 2 ^ e == 2 ^ e - 1 && bits % 2 ^ m != 0

def isZero (e m bits : Nat) : Bool := bits % 2 ^ (e + m) == 0

/-- The operator == of C on floats. -/
def floatEq (e m x y : Nat) : Bool :=
  !isNan e m x && !isNan e m y && (x == y || isZero e m x && isZero e m y)

def floatEql (e m x y : Nat) : Bool :=
  if floatEq e m x y then x / 2 ^ (e + m) == y / 2 ^ (e + m)
  else if isNan e m x || isNan e m y then x == y
  else false

/- EQL and EQUAL, and the hash functions for them. All are limited by the depth of
the stack, and return nothing when it is exhausted. -/

/-- The operator && of C. -/
def andAlso (first second : Option Bool) : Option Bool :=
  match first with
  | some true => second
  | other => other

variable (heap : Heap)

def eclEql : Nat → Ref → Ref → Option Bool
  | 0, _, _ => none
  | n + 1, x, y =>
    if x = y then some true
    else
      match heap.look x, heap.look y with
      | .bignum a, .bignum b => some (a == b)
      | .ratio num den, .ratio num' den' => andAlso (eclEql n num num') (eclEql n den den')
      | .singleFloat a, .singleFloat b => some (floatEql 8 23 a.toNat b.toNat)
      | .doubleFloat a, .doubleFloat b => some (floatEql 11 52 a.toNat b.toNat)
      | .complex re im, .complex re' im' => andAlso (eclEql n re re') (eclEql n im im')
      | .character a, .character b => some (a == b)
      | _, _ => some false

def stringCodes : Object → Option (List Word)
  | .baseString s => some (s.active.map (·.setWidth 64))
  | .string s => some (s.active.map (·.signExtend 64))
  | _ => none

def eclStringEq (x y : Object) : Bool :=
  match x, y with
  | .string s, .string t => s.fillp == t.fillp && s.active == t.active
  | .string s, .baseString t | .baseString t, .string s =>
    s.fillp == t.fillp && s.active.map (·.signExtend 64) == t.active.map (·.setWidth 64)
  | .baseString s, .baseString t => s.fillp == t.fillp && s.active == t.active
  | _, _ => false

/-- The loop of ECL_EQUAL over bits: it compares the masked bytes. -/
def sameBits (v v' : Bits) : Bool :=
  v.fillp == v'.fillp && (List.range v.fillp).all fun i => v.masked i == v'.masked i

def eclEqual : Nat → Ref → Ref → Option Bool
  | 0, _, _ => none
  | n + 1, x, y =>
    if x = y then some true
    else
      match heap.look x, heap.look y with
      | .cons car cdr, .cons car' cdr' => andAlso (eclEqual n car car') (eclEqual n cdr cdr')
      | .bignum a, .bignum b => some (a == b)
      | .ratio num den, .ratio num' den' =>
        andAlso (eclEql heap n num num') (eclEql heap n den den')
      | .singleFloat a, .singleFloat b => some (floatEql 8 23 a.toNat b.toNat)
      | .doubleFloat a, .doubleFloat b => some (floatEql 11 52 a.toNat b.toNat)
      | .complex re im, .complex re' im' =>
        andAlso (eclEql heap n re re') (eclEql heap n im im')
      | .character a, .character b => some (a == b)
      | .baseString s, .baseString t => some (eclStringEq (.baseString s) (.baseString t))
      | .baseString s, .string t => some (eclStringEq (.baseString s) (.string t))
      | .string s, .baseString t => some (eclStringEq (.string s) (.baseString t))
      | .string s, .string t => some (eclStringEq (.string s) (.string t))
      | .bitVector v, .bitVector v' => some (sameBits v v')
      | .pathname p, .pathname p' =>
        andAlso (eclEqual n p.host p'.host)
          (andAlso (eclEqual n p.device p'.device)
            (andAlso (eclEqual n p.directory p'.directory)
              (andAlso (eclEqual n p.name p'.name)
                (andAlso (eclEqual n p.type p'.type) (eclEqual n p.version p'.version)))))
      | .foreign data, .foreign data' => some (data == data')
      | _, _ => some false

def hashReference (h : Word) (x : Ref) : Word := hashWord h (x.word >>> 2)

def hashParts (hash : Word → Ref → Option Word) : List Ref → Word → Option Word
  | [], h => some h
  | x :: xs, h => (hash h x).bind (hashParts hash xs)

def hashEql : Nat → Word → Ref → Option Word
  | 0, _, _ => none
  | n + 1, h, x =>
    match heap.look x with
    | .bignum value => some (hashString h (limbBytes value))
    | .ratio num den => hashParts (hashEql n) [num, den] h
    | .singleFloat bits => some (hashString h (bytesOf 4 bits.toNat))
    | .doubleFloat bits => some (hashString h (bytesOf 8 bits.toNat))
    | .complex re im => hashParts (hashEql n) [re, im] h
    | .character code => some (hashWord h (BitVec.ofNat 64 code))
    | _ => some (hashReference h x)

/-- The name of the symbol NIL. -/
def nilName : List Byte := [0x4e, 0x49, 0x4c]

def unsignedZero (e m bits : Nat) : Nat := if isZero e m bits then 0 else bits

def hashEqual : Nat → Int → Word → Ref → Option Word
  | 0, _, _, _ => none
  | n + 1, depth, h, x =>
    match heap.look x with
    | .nil => some (hashBaseString nilName h)
    | .cons car cdr =>
      if depth - 1 = 0 then some h
      else hashParts (hashEqual n (depth - 1)) [car, cdr] h
    | .symbol name => some (hashBaseString name.active h)
    | .baseString s => some (hashBaseString s.active h)
    | .string s => some (hashFullString s.active h)
    | .pathname p => hashParts (hashEqual n 0) p.parts h
    -- whole bytes from the first on, whatever the offset
    | .bitVector v => some (hashString h (v.self.take (v.fillp / 8)))
    | .random value => hashEqual n 0 h value
    | .singleFloat bits => some (hashString h (bytesOf 4 (unsignedZero 8 23 bits.toNat)))
    | .doubleFloat bits => some (hashString h (bytesOf 8 (unsignedZero 11 52 bits.toNat)))
    | .complex re im => hashParts (hashEqual n depth) [re, im] h
    | _ => hashEql heap n h x

end Ecl.Equality
