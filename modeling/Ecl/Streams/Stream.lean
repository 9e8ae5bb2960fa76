import Mathlib.Data.List.Basic
import Ecl.Lib.Except

/- Character streams over bytes in file.d, of a build with ECL_UNICODE: the fields of a stream
that encoders and decoders use, and io_file_read_byte8. -/
namespace Ecl.Streams

open List

/-- unsigned char. -/
abbrev Byte : Type := BitVec 8

/-- ecl_character, an int32_t. -/
abbrev Character : Type := BitVec 32

def eof : Character := -1

def carriageReturn : Character := 13
def linefeed : Character := 10
def newline : Character := 10

def encodingBufferMaxSize : Nat := 6

/-- What keeps an operation from returning: the errors that file.d signals, a recursion that
uses up the C stack, and behaviour that C leaves undefined. -/
inductive Fault where
  | malformedCharacter
  | unsupportedCharacter
  | invalidCodepoint (c : Character)
  | tooLongUtf8Sequence
  | characterSizeOverflow (c : Character)
  | unreadTwice
  | unreadError
  | illegalIndex
  | stackOverflow
  | undefined
  deriving DecidableEq

/-- The functions that the fields encoder and decoder of a stream point to. -/
inductive Codec where
  | passthrough | ascii
  | ucs4be | ucs4le | ucs4
  | ucs2be | ucs2le | ucs2
  | utf8
  deriving DecidableEq

structure Stream where
  encoder : Codec
  decoder : Codec
  /-- The bytes that were unread. -/
  byteStack : List Byte
  /-- The bytes of the file from its position on. -/
  content : List Byte
  lastChar : Character
  lastCode : Character × Character
  deriving DecidableEq

/-- A stream as alloc_stream makes it, on a file with the given bytes. -/
def Stream.fresh (codec : Codec) (content : List Byte) : Stream where
  encoder := codec
  decoder := codec
  byteStack := []
  content := content
  lastChar := eof
  lastCode := (eof, eof)

/-- The bytes that are still to be read. -/
def Stream.pending (s : Stream) : List Byte := s.byteStack ++ s.content

/-- io_file_read_byte8 and input_stream_read_byte8, on a file that gives the bytes that it has. -/
def readByte8 (n : Nat) (s : Stream) : Except Fault (List Byte × Stream) :=
  if s.byteStack = [] then
    .ok (s.content.take n, { s with content := s.content.drop n })
  -- The loop copies the whole byte stack, past the end of the buffer, and the count of bytes
  -- to read then wraps around.
  else if n < s.byteStack.length then .error .undefined
  else
    let n := n - s.byteStack.length
    .ok (s.byteStack ++ s.content.take n,
      { s with byteStack := [], content := s.content.drop n })

/-- The stream after so many bytes were read. -/
def Stream.skip (s : Stream) (n : Nat) : Stream :=
  { s with byteStack := [], content := s.pending.drop n }

theorem readByte8_eq (s : Stream) (n : Nat) (fits : s.byteStack.length ≤ n) :
    readByte8 n s = .ok (s.pending.take n, s.skip n) := by
  unfold readByte8
  split
  · rename_i empty
    simp [Stream.pending, Stream.skip, empty]
  · rw [if_neg (show ¬ n < s.byteStack.length by omega)]
    simp [Stream.pending, Stream.skip, take_append, drop_append,
      take_of_length_le fits, drop_of_length_le fits]

theorem readByte8_undefined (s : Stream) (n : Nat) (long : n < s.byteStack.length) :
    readByte8 n s = .error .undefined := by
  have nonempty : s.byteStack ≠ [] := by
    intro empty
    simp [empty] at long
  simp only [readByte8, nonempty, long, ↓reduceIte]

namespace Stream

variable (s : Stream)

@[simp] theorem skip_encoder (n : Nat) : (s.skip n).encoder = s.encoder := rfl
@[simp] theorem skip_decoder (n : Nat) : (s.skip n).decoder = s.decoder := rfl
@[simp] theorem skip_byteStack (n : Nat) : (s.skip n).byteStack = [] := rfl
@[simp] theorem skip_content (n : Nat) : (s.skip n).content = s.pending.drop n := rfl
@[simp] theorem skip_lastChar (n : Nat) : (s.skip n).lastChar = s.lastChar := rfl
@[simp] theorem skip_lastCode (n : Nat) : (s.skip n).lastCode = s.lastCode := rfl

@[simp] theorem skip_pending (n : Nat) : (s.skip n).pending = s.pending.drop n := rfl

@[simp] theorem skip_skip (m n : Nat) : (s.skip m).skip n = s.skip (m + n) := by
  simp [skip, pending, drop_drop]

@[simp] theorem fresh_byteStack (codec : Codec) (content : List Byte) :
    (fresh codec content).byteStack = [] := rfl

@[simp] theorem fresh_pending (codec : Codec) (content : List Byte) :
    (fresh codec content).pending = content := rfl

@[simp] theorem fresh_skip (codec : Codec) (content : List Byte) (n : Nat) :
    (fresh codec content).skip n = fresh codec (content.drop n) := rfl

end Stream

/-- So many calls of a function that reads a character. -/
def repeatRead (read : Stream → Except Fault (Character × Stream)) :
    Nat → Stream → Except Fault (List Character × Stream)
  | 0, s => .ok ([], s)
  | n + 1, s => do
      let (c, s) ← read s
      let (cs, s) ← repeatRead read n s
      .ok (c :: cs, s)

def character (b : Byte) : Character := b.setWidth 32

@[simp] theorem character_toNat (b : Byte) : (character b).toNat = b.toNat := by
  have small := b.isLt
  simp only [character, BitVec.toNat_setWidth]
  omega

/-- A code that Unicode gives to characters: not above 10FFFF and not a surrogate. -/
def Scalar (c : Character) : Prop := c.toNat < 0xD800 ∨ 0xDFFF < c.toNat ∧ c.toNat ≤ 0x10FFFF

instance (c : Character) : Decidable (Scalar c) :=
  inferInstanceAs (Decidable (c.toNat < 0xD800 ∨ 0xDFFF < c.toNat ∧ c.toNat ≤ 0x10FFFF))

end Ecl.Streams
