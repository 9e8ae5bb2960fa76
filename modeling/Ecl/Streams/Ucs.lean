import Ecl.Streams.Utf8

/- The other encodings of file.d that have no tables: passthrough, ASCII, UCS-4 and UTF-16, and
eformat_read_char and eformat_write_char over any of them. -/
namespace Ecl.Streams

def passthroughDecoder (s : Stream) : Except Fault (Character × Stream) := do
  let (buffer, s) ← readByte8 1 s
  match buffer with
  | [] => .ok (eof, s)
  | aux :: _ => .ok (character aux, s)

def passthroughEncoder (c : Character) : List Byte :=
  if 0xFF < c.toInt then [] else [lowByte c]

def asciiDecoder (s : Stream) : Except Fault (Character × Stream) := do
  let (buffer, s) ← readByte8 1 s
  match buffer with
  | [] => .ok (eof, s)
  | aux :: _ =>
      if 127 < aux.toNat then .error (.invalidCodepoint (character aux)) else .ok (character aux, s)

def asciiEncoder (c : Character) : List Byte :=
  if 127 < c.toInt then [] else [lowByte c]

/-- Four bytes from the highest to the lowest. The sum wraps around in the 32 bits of an int. -/
def word32 (b3 b2 b1 b0 : Byte) : Character :=
  character b0 + (character b1 <<< 8) + (character b2 <<< 16) + (character b3 <<< 24)

def ucs4beDecoder (s : Stream) : Except Fault (Character × Stream) := do
  let (buffer, s) ← readByte8 4 s
  match buffer with
  | [b0, b1, b2, b3] => .ok (word32 b0 b1 b2 b3, s)
  | _ => .ok (eof, s)

def ucs4beEncoder (c : Character) : List Byte :=
  [lowByte (c >>> 24), lowByte (c >>> 16), lowByte (c >>> 8), lowByte c]

def ucs4leDecoder (s : Stream) : Except Fault (Character × Stream) := do
  let (buffer, s) ← readByte8 4 s
  match buffer with
  | [b0, b1, b2, b3] => .ok (word32 b3 b2 b1 b0, s)
  | _ => .ok (eof, s)

def ucs4leEncoder (c : Character) : List Byte :=
  [lowByte c, lowByte (c >>> 8), lowByte (c >>> 16), lowByte (c >>> 24)]

/-- The fields encoder and decoder are set. -/
def Stream.setCodec (s : Stream) (codec : Codec) : Stream :=
  { s with encoder := codec, decoder := codec }

/-- The code is put into a fixnum, and the constant 0xFFFE0000 is an unsigned int. -/
def ucs4Decoder (s : Stream) : Except Fault (Character × Stream) := do
  let (c, s) ← ucs4beDecoder s
  let fixnum := c.signExtend 64
  if fixnum = 0xFEFF then ucs4beDecoder (s.setCodec .ucs4be)
  else if fixnum = 0xFFFE0000 then ucs4leDecoder (s.setCodec .ucs4le)
  else .ok (c, s.setCodec .ucs4be)

def ucs4Encoder (s : Stream) (c : Character) : List Byte × Stream :=
  ([0xFF, 0xFE, 0, 0] ++ ucs4beEncoder c, s.setCodec .ucs4be)

/-- Two bytes from the higher to the lower one. -/
def word16 (b1 b0 : Byte) : Character := (character b1 <<< 8) ||| character b0

/-- What comes after the second of two surrogates, by its high byte. The code of a pair is put
into c, but then the function ends without a return. -/
def surrogatePair (high : Byte) : Except Fault (Character × Stream) :=
  if high &&& 0xF8 ≠ 0xDC then .error .malformedCharacter else .error .undefined

def ucs2beDecoder (s : Stream) : Except Fault (Character × Stream) := do
  let (buffer, s) ← readByte8 2 s
  match buffer with
  | [b0, b1] =>
    if b0 &&& 0xFC = 0xD8 then do
      let (buffer, s) ← readByte8 2 s
      match buffer with
      | [b0, _] => surrogatePair b0
      | _ => .ok (eof, s)
    else .ok (word16 b0 b1, s)
  | _ => .ok (eof, s)

/-- The bytes that are returned, when the C stack has room for so many nested calls. -/
def ucs2beEncoder : Nat → Character → Except Fault (List Byte)
  | 0, _ => .error .stackOverflow
  | depth + 1, c =>
    if 0x10000 ≤ c.toInt then do
      let c := c - 0x10000
      let first ← ucs2beEncoder depth ((c >>> 10) ||| 0xD800)
      let second ← ucs2beEncoder depth ((c &&& 0x3FFF) ||| 0xDC00)
      .ok (first.take 2 ++ second.take 2)
    else .ok [lowByte (c >>> 8), lowByte c]

def ucs2leDecoder (s : Stream) : Except Fault (Character × Stream) := do
  let (buffer, s) ← readByte8 2 s
  match buffer with
  | [b0, b1] =>
    if b1 &&& 0xFC = 0xD8 then do
      let (buffer, s) ← readByte8 2 s
      match buffer with
      | [_, b1] => surrogatePair b1
      | _ => .ok (eof, s)
    else .ok (word16 b1 b0, s)
  | _ => .ok (eof, s)

def ucs2leEncoder : Nat → Character → Except Fault (List Byte)
  | 0, _ => .error .stackOverflow
  | depth + 1, c =>
    if 0x10000 ≤ c.toInt then do
      let c := c - 0x10000
      let first ← ucs2leEncoder depth ((c >>> 10) ||| 0xD8000)
      let second ← ucs2leEncoder depth ((c &&& 0x3FFF) ||| 0xD800)
      .ok (first.take 2 ++ second.take 2)
    else .ok [lowByte c, lowByte (c >>> 8)]

def ucs2Decoder (s : Stream) : Except Fault (Character × Stream) := do
  let (c, s) ← ucs2beDecoder s
  if c = 0xFEFF then ucs2beDecoder (s.setCodec .ucs2be)
  else if c = 0xFFFE then ucs2leDecoder (s.setCodec .ucs2le)
  else .ok (c, s.setCodec .ucs2be)

def ucs2Encoder (depth : Nat) (s : Stream) (c : Character) : Except Fault (List Byte × Stream) := do
  let buffer ← ucs2beEncoder depth c
  .ok ([0xFF, 0xFE] ++ buffer, s.setCodec .ucs2be)

/-- A call of the function in the field decoder. -/
def decode (s : Stream) : Except Fault (Character × Stream) :=
  match s.decoder with
  | .passthrough => passthroughDecoder s
  | .ascii => asciiDecoder s
  | .ucs4be => ucs4beDecoder s
  | .ucs4le => ucs4leDecoder s
  | .ucs4 => ucs4Decoder s
  | .ucs2be => ucs2beDecoder s
  | .ucs2le => ucs2leDecoder s
  | .ucs2 => ucs2Decoder s
  | .utf8 => utf8Decoder s

/-- A call of the function in the field encoder. -/
def encode (depth : Nat) (s : Stream) (c : Character) : Except Fault (List Byte × Stream) :=
  match s.encoder with
  | .passthrough => .ok (passthroughEncoder c, s)
  | .ascii => .ok (asciiEncoder c, s)
  | .ucs4be => .ok (ucs4beEncoder c, s)
  | .ucs4le => .ok (ucs4leEncoder c, s)
  | .ucs4 => .ok (ucs4Encoder s c)
  | .ucs2be => (ucs2beEncoder depth c).map fun buffer => (buffer, s)
  | .ucs2le => (ucs2leEncoder depth c).map fun buffer => (buffer, s)
  | .ucs2 => ucs2Encoder depth s c
  | .utf8 => (utf8Encoder c).map fun buffer => (buffer, s)

/-- The fields last_char and last_code after a character was read. -/
def Stream.note (s : Stream) (c : Character) : Stream :=
  { s with lastChar := c, lastCode := (c, eof) }

def eformatReadChar (s : Stream) : Except Fault (Character × Stream) := do
  let (c, s) ← decode s
  if c ≠ eof then .ok (c, s.note c) else .ok (c, s)

/-- eformat_write_char, with the bytes that it writes to the file. -/
def eformatWriteChar (depth : Nat) (s : Stream) (c : Character) :
    Except Fault (List Byte × Stream) := do
  let (buffer, s) ← encode depth s c
  if buffer.length = 0 then .error (.characterSizeOverflow c) else .ok (buffer, s)

/-- The bytes that are written for each character of a sequence. -/
def writeAll (depth : Nat) : Stream → List Character → Except Fault (List (List Byte))
  | _, [] => .ok []
  | s, c :: cs => do
      let (buffer, s) ← eformatWriteChar depth s c
      let buffers ← writeAll depth s cs
      .ok (buffer :: buffers)

end Ecl.Streams
