import Ecl.Streams.UcsLaw

/- eformat_unread_char, and the readers for the three ways to end a line. -/
namespace Ecl.Streams

open List Except Prod

open Ecl.Lib (ok_bind error_bind bind_eq_ok)

/-- The contents of the buffer of eformat_unread_char, when its bytes were junk before and each of
the two codes was encoded at its beginning. -/
def unreadBuffer (junk : Nat → Byte) (first second : List Byte) (i : Nat) : Byte :=
  second[i]?.getD (first[i]?.getD (junk i))

/-- The encoding of one of the codes in last_code. -/
def encodeCode (depth : Nat) (s : Stream) (code : Character) : Except Fault (List Byte × Stream) :=
  if code ≠ eof then encode depth s code else .ok ([], s)

def eformatUnreadChar (depth : Nat) (junk : Nat → Byte) (s : Stream) (c : Character) :
    Except Fault Stream := do
  if c ≠ s.lastChar then .error .unreadTwice
  else
    let (first, s) ← encodeCode depth s s.lastCode.1
    let (second, s) ← encodeCode depth s s.lastCode.2
    let ndx := first.length + second.length
    let l := (List.range ndx).map (unreadBuffer junk first second)
    .ok { s with byteStack := s.byteStack ++ l, lastChar := eof }

def eformatReadCharCr (s : Stream) : Except Fault (Character × Stream) := do
  let (c, s) ← eformatReadChar s
  if c = carriageReturn then .ok (newline, { s with lastChar := newline }) else .ok (c, s)

def eformatReadCharCrlf (depth : Nat) (junk : Nat → Byte) (s : Stream) :
    Except Fault (Character × Stream) := do
  let (c, s) ← eformatReadChar s
  if c = carriageReturn then
    let (c, s) ← eformatReadChar s
    if c = linefeed then
      let s := { s with lastCode := (s.lastCode.1, c) }
      .ok (newline, { s with lastChar := newline })
    else
      let s ← eformatUnreadChar depth junk s c
      let s := { s with lastCode := (carriageReturn, eof) }
      .ok (carriageReturn, { s with lastChar := carriageReturn })
  else .ok (c, s)

/-- How lines end in the file. -/
inductive NewlineMode where
  | lf | cr | crlf
  deriving DecidableEq

/-- The function in the field read_char. -/
def readChar (depth : Nat) (junk : Nat → Byte) :
    NewlineMode → Stream → Except Fault (Character × Stream)
  | .lf => eformatReadChar
  | .cr => eformatReadCharCr
  | .crlf => eformatReadCharCrlf depth junk

/-- latin-1, ascii and utf-8. -/
def Stateless (codec : Codec) : Prop := codec = .passthrough ∨ codec = .ascii ∨ codec = .utf8

/-- The code of the first bytes and how many of them were read for it. -/
def byteUnit : Codec → List Byte → Except Fault (Character × Nat)
  | .utf8, bytes => utf8Bytes bytes
  | _, [] => .ok (eof, 1)
  | .ascii, aux :: _ =>
    if 127 < aux.toNat then .error (.invalidCodepoint (character aux)) else .ok (character aux, 1)
  | _, aux :: _ => .ok (character aux, 1)

/-- The bytes that a stateless encoder makes. -/
def byteEncoder : Codec → Character → Except Fault (List Byte)
  | .utf8, c => utf8Encoder c
  | .ascii, c => .ok (asciiEncoder c)
  | _, c => .ok (passthroughEncoder c)

theorem decode_byteUnit {s : Stream} (stateless : Stateless s.decoder)
    (fits : s.byteStack.length ≤ 1) :
    decode s = (byteUnit s.decoder s.pending).map fun (c, n) => (c, s.skip n) := by
  unfold decode
  rcases stateless with same | same | same
  · rw [same]
    dsimp only
    rw [passthroughDecoder, readByte8_eq s 1 fits, ok_bind]
    cases s.pending with
    | nil => rfl
    | cons b rest => rfl
  · rw [same]
    dsimp only
    rw [asciiDecoder, readByte8_eq s 1 fits, ok_bind]
    cases s.pending with
    | nil => rfl
    | cons b rest =>
      simp only [take_succ_cons, byteUnit]
      split
      · rfl
      · rfl
  · rw [same]
    exact utf8Decoder_eq s fits

/-- With more than one unread byte the first call of read_byte8 writes past its buffer. -/
theorem decode_undefined {s : Stream} (stateless : Stateless s.decoder)
    (long : 1 < s.byteStack.length) : decode s = .error .undefined := by
  have undefined := readByte8_undefined s 1 long
  unfold decode
  rcases stateless with same | same | same
  · rw [same]
    dsimp only
    rw [passthroughDecoder, undefined, error_bind]
  · rw [same]
    dsimp only
    rw [asciiDecoder, undefined, error_bind]
  · rw [same]
    dsimp only
    rw [utf8Decoder, undefined, error_bind]

theorem encode_byteEncoder {s : Stream} (stateless : Stateless s.encoder) (depth : Nat)
    (c : Character) :
    encode depth s c = (byteEncoder s.encoder c).map fun buffer => (buffer, s) := by
  unfold encode
  rcases stateless with same | same | same
  · rw [same]
    rfl
  · rw [same]
    rfl
  · rw [same]
    rfl

/-- The next character is one that its encoder writes as a single byte. In UTF-8 there are longer
sequences for such characters that the decoder accepts. -/
def OneByte : Codec → List Byte → Prop
  | .utf8, first :: rest =>
    first.toNat < 0x80 ∨ first.toNat = 0xC0 ∨ first.toNat = 0xC1 ∨
      first.toNat = 0xE0 ∧ (rest.headD 0).toNat = 0x81
  | _, _ => True

def ReturnNext : Codec → List Byte → Prop
  | .utf8, first :: rest => first.toNat = 0x0D ∨ first.toNat = 0xC0 ∧ (rest.headD 0).toNat = 0x8D
  | _, bytes => (bytes.headD 0).toNat = 0x0D

theorem lowByte_character (b : Byte) : lowByte (character b) = b := by
  apply BitVec.eq_of_toNat_eq
  rw [lowByte_toNat, character_toNat, Nat.mod_eq_of_lt b.isLt]

theorem character_toInt (b : Byte) : (character b).toInt = b.toNat := by
  have bound := b.isLt
  rw [toInt_eq_toNat (by rw [character_toNat]; omega), character_toNat]

theorem character_eq_return (b : Byte) : character b = carriageReturn ↔ b.toNat = 0x0D := by
  revert b
  decide +kernel

theorem utf8Encoder_small {c : Character} (small : c.toNat < 0x80) :
    utf8Encoder c = .ok [lowByte c] := by
  rw [utf8Encoder, toInt_eq_toNat (by omega), if_neg (by omega), if_pos (by omega)]

theorem utf8Bytes_small {c : Character} (small : c.toNat < 0x80) (rest : List Byte) :
    utf8Bytes (lowByte c :: rest) = .ok (c, 1) := by
  have same : (lowByte c).toNat = c.toNat := by
    rw [lowByte_toNat]
    omega
  have form := Utf8Form.single (lowByte c) (by omega)
  rw [same] at form
  exact utf8Bytes_of_form form rest

theorem Utf8Form.small_iff {p : List Byte} {code : Nat} (form : Utf8Form p code)
    (rest : List Byte) : code < 0x80 ↔ OneByte .utf8 (p ++ rest) := by
  cases form.shape with
  | one a bytes small value =>
    subst bytes
    simp only [OneByte, cons_append]
    omega
  | two a b bytes lower upper second value =>
    subst bytes
    unfold Tail at second
    simp only [OneByte, cons_append, headD_cons]
    omega
  | three a b c bytes lower upper second third nonzero checked value =>
    subst bytes
    unfold Tail at second third
    simp only [OneByte, cons_append, headD_cons]
    omega
  | four a b c d bytes lower upper second third fourth nonzero checked value =>
    subst bytes
    unfold Tail at second third fourth
    simp only [OneByte, cons_append, headD_cons]
    omega

theorem Utf8Form.return_iff {p : List Byte} {code : Nat} (form : Utf8Form p code)
    (rest : List Byte) : code = 0x0D ↔ ReturnNext .utf8 (p ++ rest) := by
  cases form.shape with
  | one a bytes small value =>
    subst bytes
    simp only [ReturnNext, cons_append]
    omega
  | two a b bytes lower upper second value =>
    subst bytes
    unfold Tail at second
    simp only [ReturnNext, cons_append, headD_cons]
    omega
  | three a b c bytes lower upper second third nonzero checked value =>
    subst bytes
    unfold Tail at second third
    simp only [ReturnNext, cons_append, headD_cons]
    omega
  | four a b c d bytes lower upper second third fourth nonzero checked value =>
    subst bytes
    unfold Tail at second third fourth
    simp only [ReturnNext, cons_append, headD_cons]
    omega

/-- What is known of a character that was read, from the bytes that it was read from: how it is
encoded, and what its first byte is read as again. -/
structure Unit (codec : Codec) (bytes : List Byte) (c : Character) (output : List Byte) : Prop where
  encodes : byteEncoder codec c = .ok output
  nonempty : output ≠ []
  short : output.length = 1 ↔ OneByte codec bytes
  reread : output.length = 1 → ∀ rest, byteUnit codec (output ++ rest) = .ok (c, 1)
  isReturn : c = carriageReturn ↔ ReturnNext codec bytes

theorem utf8Bytes_unit {bytes : List Byte} {c : Character} {n : Nat}
    (read : utf8Bytes bytes = .ok (c, n)) (character : c ≠ eof) :
    ∃ output, Unit .utf8 bytes c output := by
  have ⟨form, _⟩ := utf8Bytes_form read character
  have ⟨bound, checked⟩ := form.bounds
  have small := form.small_iff (bytes.drop n)
  have isReturn := form.return_iff (bytes.drop n)
  rw [take_append_drop] at small isReturn
  obtain ⟨output, encodes, encoded, length⟩ := utf8Encoder_form c bound checked
  have single : output.length = 1 ↔ c.toNat < 0x80 := by
    rw [length, encodedLength]
    split <;> [skip; split <;> [skip; split]] <;> omega
  have positive := (encodedLength_bounds c.toNat).1
  refine ⟨output, encodes, ?_, single.trans small, ?_, ?_⟩
  · exact ne_nil_of_length_pos (by omega)
  · intro one rest
    have value := utf8Encoder_small (single.mp one)
    rw [encodes, Except.ok.injEq] at value
    rw [value]
    exact utf8Bytes_small (single.mp one) rest
  · rw [← isReturn, ← BitVec.toNat_inj]
    rfl

theorem byteUnit_unit {codec : Codec} {bytes : List Byte} {c : Character} {n : Nat}
    (stateless : Stateless codec) (read : byteUnit codec bytes = .ok (c, n)) (character : c ≠ eof) :
    ∃ output, Unit codec bytes c output := by
  rcases stateless with rfl | rfl | rfl
  · cases bytes with
    | nil =>
      cases read
      exact absurd rfl character
    | cons b rest =>
      cases read
      have bound := b.isLt
      have encodes : passthroughEncoder (Streams.character b) = [b] := by
        rw [passthroughEncoder, character_toInt, if_neg (by omega), lowByte_character]
      refine ⟨[b], congrArg ok encodes, by simp, by simp [OneByte], fun _ _ => rfl, ?_⟩
      simp [ReturnNext, character_eq_return]
  · cases bytes with
    | nil =>
      cases read
      exact absurd rfl character
    | cons b rest =>
      simp only [byteUnit] at read
      split at read
      · cases read
      · rename_i small
        cases read
        have encodes : asciiEncoder (Streams.character b) = [b] := by
          rw [asciiEncoder, character_toInt, if_neg (by omega), lowByte_character]
        refine ⟨[b], congrArg ok encodes, by simp, by simp [OneByte], ?_, ?_⟩
        · intro _ rest
          simp [byteUnit, small]
        · simp [ReturnNext, character_eq_return]
  · exact utf8Bytes_unit read character

/-- What repeated calls return. -/
def characters (read : Stream → Except Fault (Character × Stream)) (n : Nat) (s : Stream) :
    Except Fault (List Character) :=
  (repeatRead read n s).map Prod.fst

/-- The character can be unread, and is then read in front of everything that is read without
that. -/
def UnreadLaw (depth : Nat) (junk : Nat → Byte) (mode : NewlineMode) (s : Stream) (c : Character) :
    Prop :=
  ∃ s', eformatUnreadChar depth junk s c = .ok s' ∧
    ∀ n, characters (readChar depth junk mode) (n + 1) s' =
      (characters (readChar depth junk mode) n s).map (c :: ·)

theorem characters_cons {read : Stream → Except Fault (Character × Stream)} {s s' : Stream}
    {c : Character} (first : read s' = .ok (c, s)) (n : Nat) :
    characters read (n + 1) s' = (characters read n s).map (c :: ·) := by
  unfold characters
  rw [repeatRead, first, ok_bind]
  dsimp only
  cases repeatRead read n s with
  | error fault => rfl
  | ok found => rfl

variable {depth : Nat} {junk : Nat → Byte}

theorem unreadBuffer_first (first : List Byte) :
    (List.range first.length).map (unreadBuffer junk first []) = first := by
  apply ext_getElem
  · simp
  · intro i _ inside
    simp [unreadBuffer, inside]

theorem eformatUnreadChar_eq {s : Stream} {c : Character} {first second : List Byte}
    (last : s.lastChar = c) (firstCode : encodeCode depth s s.lastCode.1 = .ok (first, s))
    (secondCode : encodeCode depth s s.lastCode.2 = .ok (second, s)) :
    eformatUnreadChar depth junk s c = .ok
      { s with
        byteStack := s.byteStack ++
          (List.range (first.length + second.length)).map (unreadBuffer junk first second)
        lastChar := eof } := by
  rw [eformatUnreadChar, if_neg (by simp [last]), firstCode, ok_bind]
  dsimp only
  rw [secondCode, ok_bind]

theorem encodeCode_eof (s : Stream) : encodeCode depth s eof = .ok ([], s) := rfl

variable {code : Character}

theorem encodeCode_unit {s : Stream} {codec : Codec} {bytes output : List Byte}
    (stateless : Stateless codec) (encoder : s.encoder = codec)
    (unit : Unit codec bytes code output)
    (character : code ≠ eof) : encodeCode depth s code = .ok (output, s) := by
  rw [← encoder] at stateless unit
  rw [encodeCode, if_pos character, encode_byteEncoder stateless, unit.encodes]
  rfl

theorem unread_single {s : Stream} {codec : Codec} {c : Character} {bytes output : List Byte}
    (stateless : Stateless codec) (encoder : s.encoder = codec)
    (unit : Unit codec bytes code output)
    (character : code ≠ eof) (last : s.lastChar = c) (lastCode : s.lastCode = (code, eof)) :
    eformatUnreadChar depth junk s c =
      .ok { s with byteStack := s.byteStack ++ output, lastChar := eof } := by
  have firstCode : encodeCode depth s s.lastCode.1 = .ok (output, s) := by
    rw [lastCode, encodeCode_unit stateless encoder unit character]
  have secondCode : encodeCode depth s s.lastCode.2 = .ok ([], s) := by
    rw [lastCode, encodeCode_eof]
  rw [eformatUnreadChar_eq last firstCode secondCode, length_nil, Nat.add_zero,
    unreadBuffer_first]

variable {mode : NewlineMode}

theorem not_law_of_long {s s' : Stream} {c : Character}
    (unread : eformatUnreadChar depth junk s c = .ok s') (stateless : Stateless s'.decoder)
    (long : 1 < s'.byteStack.length) : ¬ UnreadLaw depth junk mode s c := by
  have undefined : eformatReadChar s' = .error .undefined := by
    rw [eformatReadChar, decode_undefined stateless long, error_bind]
  have failed : readChar depth junk mode s' = .error .undefined := by
    cases mode with
    | lf => exact undefined
    | cr =>
      change eformatReadCharCr s' = _
      rw [eformatReadCharCr, undefined, error_bind]
    | crlf =>
      change eformatReadCharCrlf depth junk s' = _
      rw [eformatReadCharCrlf, undefined, error_bind]
  rintro ⟨s'', unread', law⟩
  rw [unread] at unread'
  cases unread'
  have once := law 0
  rw [characters, repeatRead, failed, error_bind] at once
  cases once

/-- The stream from which a single code was just read. -/
structure JustRead (codec : Codec) (s : Stream) (code : Character) : Prop where
  encoder : s.encoder = codec
  decoder : s.decoder = codec
  noStack : s.byteStack = []
  lastChar : s.lastChar = code
  lastCode : s.lastCode = (code, eof)

theorem eformatReadChar_read {codec : Codec} {s s' : Stream} {c : Character}
    (stateless : Stateless codec) (encoder : s.encoder = codec) (decoder : s.decoder = codec)
    (read : eformatReadChar s = .ok (c, s')) (character : c ≠ eof) :
    JustRead codec s' c ∧ ∃ output, Unit codec s.pending c output := by
  by_cases fits : s.byteStack.length ≤ 1
  · rw [eformatReadChar, decode_byteUnit (decoder ▸ stateless) fits] at read
    obtain ⟨⟨d, s''⟩, decoded, read⟩ := bind_eq_ok.mp read
    cases result : byteUnit s.decoder s.pending with
    | error fault =>
      rw [result] at decoded
      cases decoded
    | ok found =>
      rw [result] at decoded
      cases decoded
      dsimp only at read
      split at read
      · cases read
        rw [decoder] at result
        exact ⟨⟨encoder, decoder, rfl, rfl, rfl⟩, byteUnit_unit stateless result character⟩
      · rename_i ended
        cases read
        exact absurd character ended
  · rw [eformatReadChar, decode_undefined (decoder ▸ stateless) (not_le.mp fits)] at read
    cases read

theorem JustRead.eq {codec : Codec} {s : Stream} (read : JustRead codec s code) :
    s = ⟨codec, codec, [], s.content, code, (code, eof)⟩ := by
  cases s with
  | mk encoder decoder byteStack content lastChar lastCode =>
    have sameEncoder := read.encoder
    have sameDecoder := read.decoder
    have noStack := read.noStack
    have sameChar := read.lastChar
    have sameCode := read.lastCode
    dsimp only at sameEncoder sameDecoder noStack sameChar sameCode
    rw [sameEncoder, sameDecoder, noStack, sameChar, sameCode]

/-- The one byte of a code on the stack gives the code again, and the stream as it was. -/
theorem JustRead.reread {codec : Codec} {s : Stream} {bytes output : List Byte}
    (read : JustRead codec s code) (stateless : Stateless codec)
    (unit : Unit codec bytes code output)
    (character : code ≠ eof) (single : output.length = 1) (last : Character) :
    eformatReadChar { s with byteStack := output, lastChar := last } = .ok (code, s) := by
  obtain ⟨b, rfl⟩ := length_eq_one_iff.mp single
  rw [read.eq]
  have decoded : decode ⟨codec, codec, [b], s.content, last, (code, eof)⟩ =
      .ok (code, ⟨codec, codec, [], s.content, last, (code, eof)⟩) := by
    have decoded := @decode_byteUnit ⟨codec, codec, [b], s.content, last, (code, eof)⟩ stateless
      (Nat.le_refl 1)
    simp only [Stream.pending, unit.reread rfl] at decoded
    exact decoded
  rw [eformatReadChar, decoded, ok_bind]
  exact if_pos character

variable {codec : Codec} {s s' : Stream} {c : Character}

theorem law_of_plain (stateless : Stateless codec) {bytes : List Byte}
    {output : List Byte} (unit : Unit codec bytes code output)
    (character : code ≠ eof) (encoder : s.encoder = codec) (decoder : s.decoder = codec)
    (noStack : s.byteStack = []) (last : s.lastChar = c) (lastCode : s.lastCode = (code, eof))
    (again : ∀ b, output = [b] →
      readChar depth junk mode { s with byteStack := [b], lastChar := eof } = .ok (c, s)) :
    UnreadLaw depth junk mode s c ↔ OneByte codec bytes := by
  have unread : eformatUnreadChar depth junk s c =
      .ok { s with byteStack := output, lastChar := eof } := by
    rw [unread_single stateless encoder unit character last lastCode, noStack, nil_append]
  rw [← unit.short]
  constructor
  · intro law
    by_contra long
    have positive := length_pos_iff.mpr unit.nonempty
    exact not_law_of_long unread (show Stateless s.decoder from decoder ▸ stateless)
      (show 1 < output.length by omega) law
  · intro single
    obtain ⟨b, rfl⟩ := length_eq_one_iff.mp single
    exact ⟨_, unread, fun n => characters_cons (again b rfl) n⟩

theorem law_lf (stateless : Stateless codec) (encoder : s.encoder = codec)
    (decoder : s.decoder = codec) (read : eformatReadChar s = .ok (c, s')) (character : c ≠ eof) :
    UnreadLaw depth junk .lf s' c ↔ OneByte codec s.pending := by
  obtain ⟨just, output, unit⟩ := eformatReadChar_read stateless encoder decoder read character
  apply law_of_plain stateless unit character just.encoder just.decoder just.noStack just.lastChar
    just.lastCode
  intro b single
  rw [single] at unit
  exact just.reread stateless unit character rfl eof

theorem law_cr (stateless : Stateless codec) (encoder : s.encoder = codec)
    (decoder : s.decoder = codec) (read : eformatReadCharCr s = .ok (c, s')) (character : c ≠ eof) :
    UnreadLaw depth junk .cr s' c ↔ OneByte codec s.pending := by
  obtain ⟨⟨code, s''⟩, first, read⟩ := bind_eq_ok.mp read
  dsimp only at read
  split at read
  · rename_i isReturn
    cases read
    have codeCharacter : code ≠ eof := by
      rw [isReturn]
      decide
    obtain ⟨just, output, unit⟩ :=
      eformatReadChar_read stateless encoder decoder first codeCharacter
    apply law_of_plain (s := { s'' with lastChar := newline }) stateless unit codeCharacter
      just.encoder just.decoder just.noStack rfl just.lastCode
    intro b single
    rw [single] at unit
    have again := just.reread stateless unit codeCharacter rfl eof
    change eformatReadCharCr { s'' with byteStack := [b], lastChar := eof } = _
    rw [eformatReadCharCr, again, ok_bind]
    exact if_pos isReturn
  · rename_i other
    cases read
    obtain ⟨just, output, unit⟩ := eformatReadChar_read stateless encoder decoder first character
    apply law_of_plain stateless unit character just.encoder just.decoder just.noStack just.lastChar
      just.lastCode
    intro b single
    rw [single] at unit
    have again := just.reread stateless unit character rfl eof
    change eformatReadCharCr { s' with byteStack := [b], lastChar := eof } = _
    rw [eformatReadCharCr, again, ok_bind]
    exact if_neg other

theorem not_law_of_bytes {first second : List Byte} (stateless : Stateless codec)
    (decoder : s.decoder = codec) (last : s.lastChar = c)
    (firstCode : encodeCode depth s s.lastCode.1 = .ok (first, s))
    (secondCode : encodeCode depth s s.lastCode.2 = .ok (second, s))
    (long : 1 < s.byteStack.length + (first.length + second.length)) :
    ¬ UnreadLaw depth junk mode s c := by
  apply not_law_of_long (eformatUnreadChar_eq last firstCode secondCode)
  · show Stateless s.decoder
    exact decoder ▸ stateless
  · show 1 < (s.byteStack ++ _).length
    rw [length_append, length_map, length_range]
    exact long

theorem eformatReadChar_end (stateless : Stateless codec) (decoder : s.decoder = codec)
    (read : eformatReadChar s = .ok (eof, s')) : s'.lastChar = s.lastChar := by
  by_cases fits : s.byteStack.length ≤ 1
  · rw [eformatReadChar, decode_byteUnit (decoder ▸ stateless) fits] at read
    cases result : byteUnit s.decoder s.pending with
    | error fault =>
      rw [result] at read
      cases read
    | ok found =>
      rw [result] at read
      change (if found.1 ≠ eof then _ else ok (found.1, _)) = _ at read
      split at read
      · rename_i character
        rw [Except.ok.injEq, mk.injEq] at read
        exact absurd read.1 character
      · rw [Except.ok.injEq, mk.injEq] at read
        rw [← read.2]
        rfl
  · rw [eformatReadChar, decode_undefined (decoder ▸ stateless) (not_le.mp fits)] at read
    cases read

/-- After a carriage return the byte after it is on the stack or in the second code. -/
theorem not_law_crlf_return (stateless : Stateless codec) (just : JustRead codec s carriageReturn)
    {bytes output : List Byte} (unit : Unit codec bytes carriageReturn output) {d : Character}
    {next : Stream} (second : eformatReadChar s = .ok (d, next)) :
    (d = linefeed → ¬ UnreadLaw depth junk .crlf
      { next with lastCode := (next.lastCode.1, d), lastChar := newline } newline) ∧
    ∀ back, eformatUnreadChar depth junk next d = .ok back → ¬ UnreadLaw depth junk .crlf
      { back with
        lastCode := (carriageReturn, eof), lastChar := carriageReturn } carriageReturn := by
  by_cases character : d = eof
  · constructor
    · intro isLinefeed
      rw [isLinefeed] at character
      exact absurd character (by decide)
    · intro back unread
      have last : next.lastChar = carriageReturn := by
        rw [character] at second
        rw [eformatReadChar_end stateless just.decoder second, just.lastChar]
      rw [eformatUnreadChar, if_pos (by rw [last, character]; decide)] at unread
      cases unread
  · have ⟨justNext, output', unit'⟩ :=
      eformatReadChar_read stateless just.encoder just.decoder second character
    have positive := length_pos_iff.mpr unit'.nonempty
    constructor
    · intro isLinefeed
      have sameCode : next.lastCode.1 = d := by rw [justNext.lastCode]
      rw [sameCode]
      have encoded : encodeCode depth { next with lastCode := (d, d), lastChar := newline } d =
          .ok (output', { next with lastCode := (d, d), lastChar := newline }) :=
        encodeCode_unit stateless justNext.encoder unit' character
      apply not_law_of_bytes (s := { next with lastCode := (d, d), lastChar := newline }) stateless
        justNext.decoder rfl encoded encoded
      omega
    · intro back unread
      rw [unread_single stateless justNext.encoder unit' character justNext.lastChar
        justNext.lastCode, justNext.noStack] at unread
      cases unread
      have more := length_pos_iff.mpr unit.nonempty
      apply not_law_of_bytes (s := { next with
          byteStack := [] ++ output', lastCode := (carriageReturn, eof), lastChar :=
            carriageReturn })
        stateless justNext.decoder rfl
      · exact encodeCode_unit stateless justNext.encoder unit (show carriageReturn ≠ eof by decide)
      · exact encodeCode_eof _
      · show 1 < output'.length + (output.length + 0)
        omega

theorem law_crlf (stateless : Stateless codec) (encoder : s.encoder = codec)
    (decoder : s.decoder = codec) (read : eformatReadCharCrlf depth junk s = .ok (c, s'))
    (character : c ≠ eof) :
    UnreadLaw depth junk .crlf s' c ↔ OneByte codec s.pending ∧ ¬ ReturnNext codec s.pending := by
  obtain ⟨⟨code, s''⟩, first, read⟩ := bind_eq_ok.mp read
  dsimp only at read
  split at read
  · rename_i isReturn
    obtain ⟨just, output, unit⟩ := eformatReadChar_read stateless encoder decoder first
      (by rw [isReturn]; decide)
    have returnNext := unit.isReturn.mp isReturn
    obtain ⟨⟨d, next⟩, second, read⟩ := bind_eq_ok.mp read
    rw [isReturn] at just unit
    have ⟨linefeedFails, otherFails⟩ := @not_law_crlf_return depth junk codec s'' stateless just _ _
      unit d next second
    dsimp only at read
    split at read
    · rename_i isLinefeed
      cases read
      exact iff_of_false (linefeedFails isLinefeed) fun h => h.2 returnNext
    · obtain ⟨back, unread, read⟩ := bind_eq_ok.mp read
      cases read
      exact iff_of_false (otherFails back unread) fun h => h.2 returnNext
  · rename_i other
    cases read
    obtain ⟨just, output, unit⟩ := eformatReadChar_read stateless encoder decoder first character
    have plain : ¬ ReturnNext codec s.pending := fun h => other (unit.isReturn.mpr h)
    rw [and_iff_left plain]
    apply law_of_plain stateless unit character just.encoder just.decoder just.noStack just.lastChar
      just.lastCode
    intro b single
    rw [single] at unit
    have again := just.reread stateless unit character rfl eof
    change eformatReadCharCrlf depth junk { s' with byteStack := [b], lastChar := eof } = _
    rw [eformatReadCharCrlf, again, ok_bind]
    exact if_neg other

/-- The reads after an unread are the ones that the law asks for exactly when the character is
encoded as a single byte, and is not a carriage return whose line feed was looked for. -/
theorem unread_law_iff (depth : Nat) (junk : Nat → Byte) (mode : NewlineMode) (codec : Codec)
    (stateless : Stateless codec) (s s' : Stream) (c : Character) (encoder : s.encoder = codec)
    (decoder : s.decoder = codec) (read : readChar depth junk mode s = .ok (c, s'))
    (character : c ≠ eof) :
    UnreadLaw depth junk mode s' c ↔
      OneByte codec s.pending ∧ ¬ (mode = .crlf ∧ ReturnNext codec s.pending) := by
  cases mode with
  | lf => simpa using law_lf stateless encoder decoder read character
  | cr => simpa using law_cr stateless encoder decoder read character
  | crlf => simpa using law_crlf stateless encoder decoder read character

/-- The letter A and a line feed, in UTF-8. -/
theorem unread_law_iff_letter :
    UnreadLaw 2 (fun _ => 0) .crlf ⟨.utf8, .utf8, [], [0x0A], 0x41, (0x41, eof)⟩ 0x41 ↔
      OneByte .utf8 (Stream.fresh .utf8 [0x41, 0x0A]).pending ∧
        ¬ (NewlineMode.crlf = .crlf ∧
          ReturnNext .utf8 (Stream.fresh .utf8 [0x41, 0x0A]).pending) :=
  unread_law_iff 2 (fun _ => 0) .crlf .utf8 (.inr (.inr rfl)) (.fresh .utf8 [0x41, 0x0A])
    ⟨.utf8, .utf8, [], [0x0A], 0x41, (0x41, eof)⟩ 0x41 rfl rfl (by decide +kernel)
    (by decide +kernel)

/-- After the two bytes of a letter were unread, the next read overruns its buffer. -/
theorem unread_letter_fails :
    ¬ ∀ (depth : Nat) (junk : Nat → Byte) (mode : NewlineMode) (codec : Codec),
      Stateless codec → ∀ (s s' : Stream) (c : Character), s.encoder = codec →
      s.decoder = codec → readChar depth junk mode s = .ok (c, s') → c ≠ eof →
      UnreadLaw depth junk mode s' c := by
  intro claim
  have law := claim 2 (fun _ => 0) .lf .utf8 (.inr (.inr rfl)) (.fresh .utf8 [0xC3, 0xA9, 0x41])
    ⟨.utf8, .utf8, [], [0x41], 0xE9, (0xE9, eof)⟩ 0xE9 rfl rfl (by decide +kernel)
    (by decide +kernel)
  have unread : eformatUnreadChar 2 (fun _ => 0)
      ⟨.utf8, .utf8, [], [0x41], 0xE9, (0xE9, eof)⟩ 0xE9 =
      .ok ⟨.utf8, .utf8, [0xC3, 0xA9], [0x41], eof, (0xE9, eof)⟩ := by decide +kernel
  exact not_law_of_long unread (.inr (.inr rfl)) (by decide) law

end Ecl.Streams
