import Ecl.Streams.Ucs
import Ecl.Streams.Utf8Law

/- Which sequences of characters survive being written and read in UCS-4 and UTF-16. -/
namespace Ecl.Streams

open List

open Ecl.Lib (ok_bind error_bind bind_eq_ok)

theorem lowByte_toNat (c : Character) : (lowByte c).toNat = c.toNat % 256 := by
  simp only [lowByte, BitVec.toNat_setWidth]

theorem character_shift_toNat (b : Byte) {bits : Nat} (small : bits ≤ 24) :
    (character b <<< bits).toNat = b.toNat * 2 ^ bits := by
  have bound := b.isLt
  have power : 2 ^ bits ≤ 2 ^ 24 := Nat.pow_le_pow_right (by decide) small
  have room : b.toNat * 2 ^ bits < 2 ^ 8 * 2 ^ 24 :=
    Nat.mul_lt_mul_of_lt_of_le bound power (Nat.pow_pos (by decide))
  rw [BitVec.toNat_shiftLeft, character_toNat, Nat.shiftLeft_eq, Nat.mod_eq_of_lt (by omega)]

theorem word16_toNat (b1 b0 : Byte) : (word16 b1 b0).toNat = b1.toNat * 256 + b0.toNat := by
  have below : b0.toNat < 2 ^ 8 := b0.isLt
  rw [word16, BitVec.toNat_or, character_shift_toNat b1 (by decide), character_toNat,
    ← Nat.shiftLeft_eq, ← Nat.shiftLeft_add_eq_or_of_lt below, Nat.shiftLeft_eq]

theorem word32_toNat (b3 b2 b1 b0 : Byte) :
    (word32 b3 b2 b1 b0).toNat =
      b3.toNat * 2 ^ 24 + b2.toNat * 2 ^ 16 + b1.toNat * 2 ^ 8 + b0.toNat := by
  have h3 := b3.isLt
  have h2 := b2.isLt
  have h1 := b1.isLt
  have h0 := b0.isLt
  simp only [word32, BitVec.toNat_add, character_shift_toNat b3 (show 24 ≤ 24 by decide),
    character_shift_toNat b2 (show 16 ≤ 24 by decide),
    character_shift_toNat b1 (show 8 ≤ 24 by decide), character_toNat]
  omega

theorem word16_bytes (c : Character) (small : c.toNat < 0x10000) :
    word16 (lowByte (c >>> 8)) (lowByte c) = c := by
  apply BitVec.eq_of_toNat_eq
  rw [word16_toNat, lowByte_toNat, lowByte_toNat, shiftRight_toNat]
  omega

theorem word32_bytes (c : Character) :
    word32 (lowByte (c >>> 24)) (lowByte (c >>> 16)) (lowByte (c >>> 8)) (lowByte c) = c := by
  have small := c.isLt
  apply BitVec.eq_of_toNat_eq
  simp only [word32_toNat, lowByte_toNat, shiftRight_toNat]
  omega

theorem high_surrogate_iff (b : Byte) : b &&& 0xFC = 0xD8 ↔ 0xD8 ≤ b.toNat ∧ b.toNat < 0xDC := by
  revert b
  decide +kernel

theorem surrogatePair_malformed (high : Byte) :
    surrogatePair high = .error .malformedCharacter := by
  revert high
  decide +kernel

/-- A stream with a decoder, no unread bytes, and the given bytes to come. -/
structure Ready (codec : Codec) (s : Stream) (bytes : List Byte) : Prop where
  decoder : s.decoder = codec
  noStack : s.byteStack = []
  content : s.content = bytes

namespace Ready

variable {codec : Codec} {s : Stream} {bytes : List Byte}

theorem pending (ready : Ready codec s bytes) : s.pending = bytes := by
  rw [Stream.pending, ready.noStack, ready.content, nil_append]

theorem readByte8 (ready : Ready codec s bytes) (n : Nat) :
    readByte8 n s = .ok (bytes.take n, s.skip n) := by
  rw [readByte8_eq s n (by simp [ready.noStack]), ready.pending]

theorem skip (ready : Ready codec s bytes) (n : Nat) : Ready codec (s.skip n) (bytes.drop n) :=
  ⟨ready.decoder, rfl, by rw [Stream.skip_content, ready.pending]⟩

theorem fresh (codec : Codec) (bytes : List Byte) : Ready codec (.fresh codec bytes) bytes :=
  ⟨rfl, rfl, rfl⟩

end Ready

variable {s : Stream} {b0 b1 : Byte} {rest : List Byte}

theorem ucs4beDecoder_unit {codec : Codec} {b2 b3 : Byte}
    (ready : Ready codec s (b0 :: b1 :: b2 :: b3 :: rest)) :
    ucs4beDecoder s = .ok (word32 b0 b1 b2 b3, s.skip 4) := by
  rw [ucs4beDecoder, ready.readByte8, ok_bind]
  rfl

theorem ucs4leDecoder_unit {codec : Codec} {b2 b3 : Byte}
    (ready : Ready codec s (b0 :: b1 :: b2 :: b3 :: rest)) :
    ucs4leDecoder s = .ok (word32 b3 b2 b1 b0, s.skip 4) := by
  rw [ucs4leDecoder, ready.readByte8, ok_bind]
  rfl

theorem ucs2beDecoder_unit {codec : Codec} (ready : Ready codec s (b0 :: b1 :: rest)) :
    ucs2beDecoder s =
      if b0 &&& 0xFC = 0xD8 then
        if 2 ≤ rest.length then .error .malformedCharacter else .ok (eof, s.skip 4)
      else .ok (word16 b0 b1, s.skip 2) := by
  have next := (ready.skip 2).readByte8 2
  rw [ucs2beDecoder, ready.readByte8, ok_bind]
  simp only [take_succ_cons, take_zero]
  split
  · rw [next, ok_bind, Stream.skip_skip]
    match rest with
    | [] => rfl
    | [_] => rfl
    | c0 :: c1 :: rest =>
      simp [surrogatePair_malformed]
  · rfl

theorem ucs2leDecoder_unit {codec : Codec} (ready : Ready codec s (b0 :: b1 :: rest)) :
    ucs2leDecoder s =
      if b1 &&& 0xFC = 0xD8 then
        if 2 ≤ rest.length then .error .malformedCharacter else .ok (eof, s.skip 4)
      else .ok (word16 b1 b0, s.skip 2) := by
  have next := (ready.skip 2).readByte8 2
  rw [ucs2leDecoder, ready.readByte8, ok_bind]
  simp only [take_succ_cons, take_zero]
  split
  · rw [next, ok_bind, Stream.skip_skip]
    match rest with
    | [] => rfl
    | [_] => rfl
    | c0 :: c1 :: rest =>
      simp [surrogatePair_malformed]
  · rfl

/-- Repeated calls give the characters, and then the end of the file. -/
def ReadsAll (s : Stream) (cs : List Character) : Prop :=
  ∃ s', repeatRead eformatReadChar (cs.length + 1) s = .ok (cs ++ [eof], s')

variable {c : Character} {cs : List Character}

theorem readsAll_cons :
    ReadsAll s (c :: cs) ↔ ∃ s', eformatReadChar s = .ok (c, s') ∧ ReadsAll s' cs := by
  unfold ReadsAll
  rw [length_cons, repeatRead]
  constructor
  · rintro ⟨last, reads⟩
    obtain ⟨⟨d, s'⟩, first, reads⟩ := bind_eq_ok.mp reads
    obtain ⟨⟨ds, s''⟩, others, reads⟩ := bind_eq_ok.mp reads
    cases reads
    exact ⟨s', first, last, others⟩
  · rintro ⟨s', first, last, others⟩
    refine ⟨last, ?_⟩
    rw [first, ok_bind]
    simp only [others, ok_bind, cons_append]

theorem readsAll_of_read {s' : Stream}
    (read : eformatReadChar s = .ok (c, s')) : ReadsAll s (c :: cs) ↔ ReadsAll s' cs := by
  rw [readsAll_cons, read]
  constructor
  · intro ⟨s'', same, reads⟩
    cases same
    exact reads
  · intro reads
    exact ⟨s', rfl, reads⟩

theorem not_readsAll_of_other (other : ∀ s', eformatReadChar s ≠ .ok (c, s')) :
    ¬ ReadsAll s (c :: cs) := by
  rw [readsAll_cons]
  intro ⟨s', read, _⟩
  exact other s' read

theorem readsAll_congr {s' : Stream} (same : eformatReadChar s = eformatReadChar s') :
    ReadsAll s (c :: cs) ↔ ReadsAll s' (c :: cs) := by
  rw [readsAll_cons, readsAll_cons, same]

theorem decode_end {codec : Codec} (ready : Ready codec s []) : ∃ s', decode s = .ok (eof, s') := by
  have nothing (n : Nat) : readByte8 n s = .ok ([], s.skip n) := by
    rw [ready.readByte8, take_nil]
  unfold decode
  rw [ready.decoder]
  cases codec <;>
    simp [passthroughDecoder, asciiDecoder, ucs4beDecoder, ucs4leDecoder, ucs4Decoder,
      ucs2beDecoder, ucs2leDecoder, ucs2Decoder, utf8Decoder, nothing, eof]

theorem readsAll_nil {codec : Codec} (ready : Ready codec s []) : ReadsAll s [] := by
  obtain ⟨s', ended⟩ := decode_end ready
  refine ⟨s', ?_⟩
  simp [repeatRead, eformatReadChar, ended]

variable {bytes : List Byte}

theorem Ready.note {codec : Codec} (ready : Ready codec s bytes)
    (c : Character) : Ready codec (s.note c) bytes :=
  ⟨ready.decoder, ready.noStack, ready.content⟩

theorem eformatReadChar_unit {codec : Codec}
    {n : Nat} (ready : Ready codec s bytes) (decoded : decode s = .ok (c, s.skip n))
    (character : c ≠ eof) :
    ∃ s', eformatReadChar s = .ok (c, s') ∧ Ready codec s' (bytes.drop n) := by
  refine ⟨(s.skip n).note c, ?_, (ready.skip n).note c⟩
  rw [eformatReadChar, decoded, ok_bind]
  exact if_pos character

theorem Scalar.ne_eof (scalar : Scalar c) : c ≠ eof := by
  intro same
  rw [same] at scalar
  exact absurd scalar (by decide)

theorem Scalar.toInt_eq (scalar : Scalar c) : c.toInt = c.toNat := by
  unfold Scalar at scalar
  exact toInt_eq_toNat (by omega)

theorem ucs2beEncoder_small (small : c.toNat < 0x10000) (depth : Nat) :
    ucs2beEncoder (depth + 1) c = .ok [lowByte (c >>> 8), lowByte c] := by
  rw [ucs2beEncoder, toInt_eq_toNat (by omega), if_neg (by omega)]

theorem ucs2leEncoder_small (small : c.toNat < 0x10000) (depth : Nat) :
    ucs2leEncoder (depth + 1) c = .ok [lowByte c, lowByte (c >>> 8)] := by
  rw [ucs2leEncoder, toInt_eq_toNat (by omega), if_neg (by omega)]

theorem ucs2beEncoder_large (scalar : Scalar c) (large : 0x10000 ≤ c.toNat) (depth : Nat) :
    ∃ h l h' l', ucs2beEncoder (depth + 2) c = .ok [h, l, h', l'] ∧ h &&& 0xFC = 0xD8 := by
  have limit : c.toNat ≤ 0x10FFFF := by
    unfold Scalar at scalar
    omega
  have less : (c - 0x10000).toNat = c.toNat - 0x10000 := BitVec.toNat_sub_of_le large
  have first : (((c - 0x10000) >>> 10) ||| 0xD800).toNat = 0xD800 + (c.toNat - 0x10000) / 1024 := by
    have high : ((c - 0x10000) >>> 10).toNat = (c.toNat - 0x10000) / 1024 := by
      rw [shiftRight_toNat, less]
      rfl
    have below : (c.toNat - 0x10000) / 1024 < 2 ^ 10 := by omega
    rw [BitVec.toNat_or, high, Nat.or_comm]
    exact (Nat.shiftLeft_add_eq_or_of_lt below 54).symm
  have second : (((c - 0x10000) &&& 0x3FFF) ||| 0xDC00).toNat < 2 ^ 16 := by
    have low : ((c - 0x10000) &&& 0x3FFF).toNat < 2 ^ 16 := by
      have mask := mask_toNat (c - 0x10000) 0x3FFF 14 rfl
      omega
    rw [BitVec.toNat_or]
    exact Nat.or_lt_two_pow low (by decide)
  have surrogate : lowByte ((((c - 0x10000) >>> 10) ||| 0xD800) >>> 8) &&& 0xFC = 0xD8 := by
    rw [high_surrogate_iff, lowByte_toNat, shiftRight_toNat, first]
    omega
  have firstUnit := ucs2beEncoder_small
    (show (((c - 0x10000) >>> 10) ||| 0xD800).toNat < 0x10000 by omega) depth
  have secondUnit := ucs2beEncoder_small
    (show (((c - 0x10000) &&& 0x3FFF) ||| 0xDC00).toNat < 0x10000 by omega) depth
  have encoded : ucs2beEncoder (depth + 2) c = .ok
      [lowByte ((((c - 0x10000) >>> 10) ||| 0xD800) >>> 8),
        lowByte (((c - 0x10000) >>> 10) ||| 0xD800),
        lowByte ((((c - 0x10000) &&& 0x3FFF) ||| 0xDC00) >>> 8),
        lowByte (((c - 0x10000) &&& 0x3FFF) ||| 0xDC00)] := by
    rw [ucs2beEncoder, scalar.toInt_eq, if_pos (by omega)]
    simp only [firstUnit, secondUnit, ok_bind]
    rfl
  exact ⟨_, _, _, _, encoded, surrogate⟩

theorem ucs2leEncoder_large (large : 0x10000 ≤ c.toInt) (depth : Nat) :
    ucs2leEncoder depth c = .error .stackOverflow := by
  induction depth generalizing c with
  | zero => rfl
  | succ depth ih =>
    have marked : 0x10000 ≤ (((c - 0x10000) >>> 10) ||| 0xD8000).toInt := by
      have bound := (c - 0x10000).isLt
      have high := shiftRight_toNat (c - 0x10000) 10
      have value : (((c - 0x10000) >>> 10) ||| 0xD8000).toNat =
          ((c - 0x10000) >>> 10).toNat ||| 0xD8000 := BitVec.toNat_or _ _
      have lower : 0xD8000 ≤ ((c - 0x10000) >>> 10).toNat ||| 0xD8000 := Nat.right_le_or
      have upper : ((c - 0x10000) >>> 10).toNat ||| 0xD8000 < 2 ^ 22 :=
        Nat.or_lt_two_pow (by omega) (by decide)
      rw [toInt_eq_toNat (by omega)]
      omega
    rw [ucs2leEncoder, if_pos large]
    simp only [ih marked, error_bind]

/-- The bytes of each character, when an encoder makes them from the character alone. -/
def Written (encoder : Character → Except Fault (List Byte)) :
    List Character → List (List Byte) → Prop :=
  List.Forall₂ fun c output => encoder c = .ok output ∧ output ≠ []

variable {depth : Nat} {encoder : Character → Except Fault (List Byte)}

theorem writeAll_iff (stateless : ∀ c, encode depth s c = (encoder c).map fun buffer => (buffer, s))
    (cs : List Character) (outputs : List (List Byte)) :
    writeAll depth s cs = .ok outputs ↔ Written encoder cs outputs := by
  induction cs generalizing outputs with
  | nil =>
    constructor
    · intro written
      cases written
      exact .nil
    · intro written
      cases written
      rfl
  | cons c cs ih =>
    rw [writeAll, eformatWriteChar, stateless]
    cases made : encoder c with
    | error fault =>
      simp only [Except.map, error_bind, reduceCtorEq, false_iff]
      intro written
      cases written with
      | cons first others =>
        rw [made] at first
        cases first.1
    | ok output =>
      simp only [Except.map, ok_bind, length_eq_zero_iff]
      constructor
      · intro written
        split at written
        · cases written
        · rename_i nonempty
          rw [ok_bind] at written
          obtain ⟨others, rest, written⟩ := bind_eq_ok.mp written
          cases written
          exact .cons ⟨made, nonempty⟩ ((ih others).mp rest)
      · intro written
        cases written with
        | cons first others =>
          rw [made] at first
          cases first.1
          rw [if_neg first.2, ok_bind]
          simp only [(ih _).mpr others, ok_bind]

variable {outputs : List (List Byte)}

theorem written_cons (written : Written encoder (c :: cs) outputs) :
    ∃ output others, outputs = output :: others ∧ encoder c = .ok output ∧
      Written encoder cs others := by
  cases written with
  | cons first others => exact ⟨_, _, rfl, first.1, others⟩

theorem decode_ucs2be (ready : Ready .ucs2be s bytes) : decode s = ucs2beDecoder s := by
  rw [decode, ready.decoder]

theorem decode_ucs2le (ready : Ready .ucs2le s bytes) : decode s = ucs2leDecoder s := by
  rw [decode, ready.decoder]

theorem small_not_surrogate (scalar : Scalar c) (small : c.toNat < 0x10000) :
    ¬ lowByte (c >>> 8) &&& 0xFC = 0xD8 := by
  rw [high_surrogate_iff, lowByte_toNat, shiftRight_toNat]
  unfold Scalar at scalar
  omega

theorem malformed_unread (decoded : decode s = .error .malformedCharacter) (s' : Stream) :
    eformatReadChar s ≠ .ok (c, s') := by
  rw [eformatReadChar, decoded]
  intro read
  cases read

/-- The decoder takes the bytes of a character, in front of any others, for that
character. -/
def Units (codec : Codec) (encoder : Character → Except Fault (List Byte)) : Prop :=
  ∀ c output s rest, Scalar c → encoder c = .ok output → Ready codec s (output ++ rest) →
    decode s = .ok (c, s.skip output.length)

theorem Units.readsAll {codec : Codec} (units : Units codec encoder)
    (scalars : ∀ c ∈ cs, Scalar c) (ready : Ready codec s outputs.flatten)
    (written : Written encoder cs outputs) : ReadsAll s cs := by
  induction cs generalizing s outputs with
  | nil =>
    cases written
    exact readsAll_nil ready
  | cons c cs ih =>
    obtain ⟨output, others, rfl, encodes, rest⟩ := written_cons written
    rw [forall_mem_cons] at scalars
    rw [flatten_cons] at ready
    have decoded := units c output s _ scalars.1 encodes ready
    obtain ⟨s', read, ready'⟩ := eformatReadChar_unit ready decoded scalars.1.ne_eof
    rw [drop_left] at ready'
    rw [readsAll_of_read read]
    exact ih scalars.2 ready' rest

theorem units_ucs4be : Units .ucs4be fun c => .ok (ucs4beEncoder c) := by
  intro c output s rest _ encodes ready
  cases encodes
  rw [decode, ready.decoder]
  dsimp only
  rw [ucs4beDecoder_unit ready, word32_bytes]
  rfl

theorem units_ucs4le : Units .ucs4le fun c => .ok (ucs4leEncoder c) := by
  intro c output s rest _ encodes ready
  cases encodes
  rw [decode, ready.decoder]
  dsimp only
  rw [ucs4leDecoder_unit ready, word32_bytes]
  rfl

theorem readsAll_ucs2be (scalars : ∀ c ∈ cs, Scalar c) (ready : Ready .ucs2be s outputs.flatten)
    (written : Written (ucs2beEncoder (depth + 2)) cs outputs) :
    ReadsAll s cs ↔ ∀ c ∈ cs, c.toNat < 0x10000 := by
  induction cs generalizing s outputs with
  | nil =>
    cases written
    exact iff_of_true (readsAll_nil ready) (by simp)
  | cons c cs ih =>
    obtain ⟨output, others, rfl, encodes, rest⟩ := written_cons written
    rw [forall_mem_cons] at scalars ⊢
    by_cases small : c.toNat < 0x10000
    · rw [ucs2beEncoder_small small] at encodes
      cases encodes
      have decoded : decode s = .ok (c, s.skip 2) := by
        rw [decode_ucs2be ready, ucs2beDecoder_unit ready,
          if_neg (small_not_surrogate scalars.1 small), word16_bytes c small]
      obtain ⟨s', read, ready'⟩ := eformatReadChar_unit ready decoded scalars.1.ne_eof
      rw [readsAll_of_read read, ih scalars.2 ready' rest]
      simp only [small, true_and]
    · obtain ⟨h, l, h', l', large, surrogate⟩ :=
        ucs2beEncoder_large scalars.1 (not_lt.mp small) depth
      rw [large] at encodes
      cases encodes
      have decoded : decode s = .error .malformedCharacter := by
        rw [decode_ucs2be ready, ucs2beDecoder_unit ready, if_pos surrogate]
        simp
      exact iff_of_false (not_readsAll_of_other (malformed_unread decoded)) (small ·.1)

theorem ucs2leEncoder_writes {output : List Byte} (scalar : Scalar c)
    (encodes : ucs2leEncoder (depth + 1) c = .ok output) :
    c.toNat < 0x10000 ∧ output = [lowByte c, lowByte (c >>> 8)] := by
  by_cases small : c.toNat < 0x10000
  · rw [ucs2leEncoder_small small] at encodes
    cases encodes
    exact ⟨small, rfl⟩
  · rw [ucs2leEncoder_large (by rw [scalar.toInt_eq]; omega)] at encodes
    cases encodes

theorem units_ucs2le (depth : Nat) : Units .ucs2le (ucs2leEncoder (depth + 1)) := by
  intro c output s rest scalar encodes ready
  obtain ⟨small, rfl⟩ := ucs2leEncoder_writes scalar encodes
  rw [decode_ucs2le ready, ucs2leDecoder_unit ready, if_neg (small_not_surrogate scalar small),
    word16_bytes c small]
  rfl

/-- A character of two equal bytes. -/
def Symmetric (c : Character) : Prop := c.toNat < 0x10000 ∧ c.toNat / 256 = c.toNat % 256

/-- What the decoder of the other byte order takes for a character is the two bytes swapped. -/
theorem swapped_unread
    (ready : Ready .ucs2le s (b0 :: b1 :: rest)) (character : c ≠ eof) (other : word16 b1 b0 ≠ c)
    (s' : Stream) : eformatReadChar s ≠ .ok (c, s') := by
  rw [eformatReadChar, decode_ucs2le ready, ucs2leDecoder_unit ready]
  intro read
  split at read
  · split at read
    · cases read
    · rw [ok_bind] at read
      simp only [ne_eq, not_true_eq_false, ↓reduceIte] at read
      cases read
      exact character rfl
  · rw [ok_bind] at read
    dsimp only at read
    split at read
    · cases read
      exact other rfl
    · cases read
      exact other rfl

/-- UTF-16 written from the high to the low byte and read from the low to the high one. -/
theorem readsAll_swapped (scalars : ∀ c ∈ cs, Scalar c) (ready : Ready .ucs2le s outputs.flatten)
    (written : Written (ucs2beEncoder (depth + 2)) cs outputs) :
    ReadsAll s cs ↔ ∀ c ∈ cs, Symmetric c := by
  induction cs generalizing s outputs with
  | nil =>
    cases written
    exact iff_of_true (readsAll_nil ready) (by simp)
  | cons c cs ih =>
    obtain ⟨output, others, rfl, encodes, rest⟩ := written_cons written
    rw [forall_mem_cons] at scalars ⊢
    by_cases small : c.toNat < 0x10000
    · rw [ucs2beEncoder_small small] at encodes
      cases encodes
      have high : (lowByte (c >>> 8)).toNat = c.toNat / 256 := by
        rw [lowByte_toNat, shiftRight_toNat]
        omega
      have swapped : (word16 (lowByte c) (lowByte (c >>> 8))).toNat =
          c.toNat % 256 * 256 + c.toNat / 256 := by
        rw [word16_toNat, high, lowByte_toNat]
      by_cases symmetric : Symmetric c
      · have same : lowByte (c >>> 8) = lowByte c :=
          BitVec.eq_of_toNat_eq (high.trans (symmetric.2.trans (lowByte_toNat c).symm))
        have decoded : decode s = .ok (c, s.skip 2) := by
          have ordinary := small_not_surrogate scalars.1 small
          have value := word16_bytes c small
          rw [same] at ordinary value
          rw [decode_ucs2le ready, ucs2leDecoder_unit ready, if_neg ordinary, same, value]
        obtain ⟨s', read, ready'⟩ := eformatReadChar_unit ready decoded scalars.1.ne_eof
        rw [readsAll_of_read read, ih scalars.2 ready' rest]
        simp only [symmetric, true_and]
      · have other : word16 (lowByte c) (lowByte (c >>> 8)) ≠ c := by
          intro same
          rw [same] at swapped
          exact symmetric ⟨small, by omega⟩
        exact iff_of_false
          (not_readsAll_of_other (swapped_unread ready scalars.1.ne_eof other)) (symmetric ·.1)
    · obtain ⟨h, l, h', l', large, _⟩ := ucs2beEncoder_large scalars.1 (not_lt.mp small) depth
      rw [large] at encodes
      cases encodes
      have other : word16 l h ≠ c := by
        intro same
        have value := word16_toNat l h
        have hl := l.isLt
        have hh := h.isLt
        rw [same] at value
        omega
      exact iff_of_false
        (not_readsAll_of_other (swapped_unread ready scalars.1.ne_eof other)) (small ·.1.1)

/-- The external formats of 16 and 32 bits. -/
inductive UcsFormat where
  | ucs2be | ucs2le | ucs2 | ucs4be | ucs4le | ucs4
  deriving DecidableEq

/-- The encoder and the decoder that set_stream_elt_type chooses. -/
def UcsFormat.codec : UcsFormat → Codec
  | .ucs2be => .ucs2be
  | .ucs2le => .ucs2le
  | .ucs2 => .ucs2
  | .ucs4be => .ucs4be
  | .ucs4le => .ucs4le
  | .ucs4 => .ucs4

/-- What is written with a fresh stream and read with another one is the same, and every call of
the encoder keeps to the buffer. -/
def RoundTrip (depth : Nat) (format : UcsFormat) (cs : List Character) : Prop :=
  ∃ outputs, writeAll depth (.fresh format.codec []) cs = .ok outputs ∧
    (∀ output ∈ outputs, output.length ≤ encodingBufferMaxSize) ∧
    ReadsAll (.fresh format.codec outputs.flatten) cs

def UcsFormat.Keeps : UcsFormat → List Character → Prop
  | .ucs2be, cs => ∀ c ∈ cs, c.toNat < 0x10000
  | .ucs2le, cs => ∀ c ∈ cs, c.toNat < 0x10000
  | .ucs2, cs => ∀ c ∈ cs, Symmetric c
  | .ucs4be, _ => True
  | .ucs4le, _ => True
  | .ucs4, cs => cs = []

theorem Written.lengths {n : Nat} (written : Written encoder cs outputs)
    (each : ∀ c ∈ cs, ∀ output, encoder c = .ok output → output.length ≤ n) :
    ∀ output ∈ outputs, output.length ≤ n := by
  induction written with
  | nil => simp
  | cons first _ ih =>
    rw [forall_mem_cons] at each ⊢
    exact ⟨each.1 _ first.1, ih each.2⟩

theorem exists_written (each : ∀ c ∈ cs, ∃ output, encoder c = .ok output ∧ output ≠ []) :
    ∃ outputs, Written encoder cs outputs := by
  induction cs with
  | nil => exact ⟨[], .nil⟩
  | cons c cs ih =>
    rw [forall_mem_cons] at each
    obtain ⟨output, first⟩ := each.1
    obtain ⟨outputs, written⟩ := ih each.2
    exact ⟨output :: outputs, .cons first written⟩

theorem roundTrip_iff {format : UcsFormat}
    (stateless : ∀ c, encode depth (.fresh format.codec []) c =
      (encoder c).map fun buffer => (buffer, .fresh format.codec [])) :
    RoundTrip depth format cs ↔
      ∃ outputs, Written encoder cs outputs ∧
        (∀ output ∈ outputs, output.length ≤ encodingBufferMaxSize) ∧
        ReadsAll (.fresh format.codec outputs.flatten) cs := by
  unfold RoundTrip
  simp only [writeAll_iff stateless]

theorem ucs2beEncoder_written (scalars : ∀ c ∈ cs, Scalar c) (depth : Nat) :
    ∃ outputs, Written (ucs2beEncoder (depth + 2)) cs outputs := by
  apply exists_written
  intro c member
  by_cases small : c.toNat < 0x10000
  · exact ⟨_, ucs2beEncoder_small small _, by simp⟩
  · obtain ⟨h, l, h', l', large, _⟩ :=
      ucs2beEncoder_large (scalars c member) (not_lt.mp small) depth
    exact ⟨_, large, by simp⟩

theorem ucs2beEncoder_length (scalar : Scalar c) {output : List Byte}
    (encodes : ucs2beEncoder (depth + 2) c = .ok output) :
      0 < output.length ∧ output.length ≤ 4 := by
  by_cases small : c.toNat < 0x10000
  · rw [ucs2beEncoder_small small] at encodes
    cases encodes
    simp
  · obtain ⟨h, l, h', l', large, _⟩ := ucs2beEncoder_large scalar (not_lt.mp small) depth
    rw [large] at encodes
    cases encodes
    simp

theorem roundTrip_ucs2be (scalars : ∀ c ∈ cs, Scalar c) :
    RoundTrip (depth + 2) .ucs2be cs ↔ ∀ c ∈ cs, c.toNat < 0x10000 := by
  have stateless (c : Character) : encode (depth + 2) (.fresh UcsFormat.ucs2be.codec []) c =
    (ucs2beEncoder (depth + 2) c).map fun buffer => (buffer, .fresh UcsFormat.ucs2be.codec []) :=
      rfl
  rw [roundTrip_iff stateless]
  constructor
  · intro ⟨outputs, written, _, reads⟩
    exact (readsAll_ucs2be scalars (.fresh _ _) written).mp reads
  · intro small
    obtain ⟨outputs, written⟩ := ucs2beEncoder_written scalars depth
    refine ⟨outputs, written, ?_, (readsAll_ucs2be scalars (.fresh _ _) written).mpr small⟩
    apply written.lengths
    intro c member output encodes
    exact Nat.le_trans (ucs2beEncoder_length (scalars c member) encodes).2 (by decide)

theorem Written.small
    (scalars : ∀ c ∈ cs, Scalar c) (written : Written (ucs2leEncoder (depth + 1)) cs outputs) :
    ∀ c ∈ cs, c.toNat < 0x10000 := by
  induction written with
  | nil => simp
  | cons first _ ih =>
    rw [forall_mem_cons] at scalars ⊢
    exact ⟨(ucs2leEncoder_writes scalars.1 first.1).1, ih scalars.2⟩

/-- A round trip with characters whose bytes the decoder takes one character at a time. -/
theorem Units.roundTrip {format : UcsFormat} (units : Units format.codec encoder)
    (stateless : ∀ c, encode depth (.fresh format.codec []) c =
      (encoder c).map fun buffer => (buffer, .fresh format.codec []))
    (writes : ∀ c ∈ cs, ∃ output, encoder c = .ok output ∧ output ≠ [] ∧
      output.length ≤ encodingBufferMaxSize)
    (scalars : ∀ c ∈ cs, Scalar c) : RoundTrip depth format cs := by
  rw [roundTrip_iff stateless]
  obtain ⟨outputs, written⟩ : ∃ outputs, Written encoder cs outputs := by
    apply exists_written
    intro c member
    obtain ⟨output, encodes, nonempty, _⟩ := writes c member
    exact ⟨output, encodes, nonempty⟩
  refine ⟨outputs, written, ?_, units.readsAll scalars (.fresh _ _) written⟩
  apply written.lengths
  intro c member output encodes
  obtain ⟨output', encodes', _, short⟩ := writes c member
  rw [encodes] at encodes'
  cases encodes'
  exact short

theorem roundTrip_ucs2le (scalars : ∀ c ∈ cs, Scalar c) :
    RoundTrip (depth + 1) .ucs2le cs ↔ ∀ c ∈ cs, c.toNat < 0x10000 := by
  have stateless (c : Character) : encode (depth + 1) (.fresh UcsFormat.ucs2le.codec []) c =
    (ucs2leEncoder (depth + 1) c).map fun buffer => (buffer, .fresh UcsFormat.ucs2le.codec []) :=
      rfl
  rw [roundTrip_iff stateless]
  constructor
  · intro ⟨outputs, written, _⟩
    exact written.small scalars
  · intro small
    rw [← roundTrip_iff stateless]
    have units : Units UcsFormat.ucs2le.codec (ucs2leEncoder (depth + 1)) := units_ucs2le depth
    apply units.roundTrip stateless _ scalars
    intro c member
    exact ⟨_, ucs2leEncoder_small (small c member) _, by simp, show 2 ≤ 6 by decide⟩

theorem roundTrip_ucs4be (scalars : ∀ c ∈ cs, Scalar c) : RoundTrip depth .ucs4be cs := by
  have units : Units UcsFormat.ucs4be.codec fun c => .ok (ucs4beEncoder c) := units_ucs4be
  apply units.roundTrip (fun _ => rfl) _ scalars
  intro c _
  exact ⟨ucs4beEncoder c, rfl, by simp [ucs4beEncoder], show 4 ≤ 6 by decide⟩

theorem roundTrip_ucs4le (scalars : ∀ c ∈ cs, Scalar c) : RoundTrip depth .ucs4le cs := by
  have units : Units UcsFormat.ucs4le.codec fun c => .ok (ucs4leEncoder c) := units_ucs4le
  apply units.roundTrip (fun _ => rfl) _ scalars
  intro c _
  exact ⟨ucs4leEncoder c, rfl, by simp [ucs4leEncoder], show 4 ≤ 6 by decide⟩

theorem roundTrip_nil (depth : Nat) (format : UcsFormat) : RoundTrip depth format [] :=
  ⟨[], rfl, by simp, readsAll_nil (.fresh _ _)⟩

/-- The first call of the encoder writes the mark and the character, eight bytes in all. -/
theorem roundTrip_ucs4 : RoundTrip depth .ucs4 cs ↔ cs = [] := by
  constructor
  · intro ⟨outputs, written, lengths, _⟩
    cases cs with
    | nil => rfl
    | cons c cs =>
      rw [writeAll, show eformatWriteChar depth (.fresh UcsFormat.ucs4.codec []) c =
        .ok (ucs4Encoder (.fresh UcsFormat.ucs4.codec []) c) from rfl, ok_bind] at written
      obtain ⟨others, _, written⟩ := bind_eq_ok.mp written
      cases written
      have long := lengths _ (.head _)
      exact absurd long (show ¬ 8 ≤ 6 by decide)
  · intro empty
    rw [empty]
    exact roundTrip_nil depth .ucs4

/-- The stream on which the mark was written, which has another encoder by then. -/
def marked : Stream := (Stream.fresh UcsFormat.ucs2.codec []).setCodec .ucs2be

theorem writeAll_ucs2 : writeAll depth (.fresh UcsFormat.ucs2.codec []) (c :: cs) = .ok outputs ↔
      ∃ output others, outputs = ([0xFF, 0xFE] ++ output) :: others ∧
        ucs2beEncoder depth c = .ok output ∧ Written (ucs2beEncoder depth) cs others := by
  have encoded :
    encode depth (.fresh UcsFormat.ucs2.codec []) c = (ucs2beEncoder depth c >>= fun buffer =>
    .ok ([0xFF, 0xFE] ++ buffer, marked)) := rfl
  have stateless (d : Character) : encode depth marked d =
    (ucs2beEncoder depth d).map fun buffer => (buffer, marked) := rfl
  rw [writeAll, eformatWriteChar, encoded]
  constructor
  · intro written
    obtain ⟨⟨buffer, s⟩, first, written⟩ := bind_eq_ok.mp written
    obtain ⟨others, rest, written⟩ := bind_eq_ok.mp written
    cases written
    obtain ⟨⟨buffer', s'⟩, first', nonempty⟩ := bind_eq_ok.mp first
    obtain ⟨output, made, same⟩ := bind_eq_ok.mp first'
    cases same
    dsimp only at nonempty
    split at nonempty
    · cases nonempty
    · cases nonempty
      exact ⟨output, others, rfl, made, (writeAll_iff stateless _ _).mp rest⟩
  · intro ⟨output, others, same, made, rest⟩
    subst same
    rw [made, ok_bind, ok_bind]
    simp [(writeAll_iff stateless _ _).mpr rest]

theorem eformatReadChar_mark (bytes : List Byte) :
    eformatReadChar (.fresh UcsFormat.ucs2.codec (0xFF :: 0xFE :: bytes)) =
      eformatReadChar (.fresh .ucs2le bytes) := by
  have unit := ucs2beDecoder_unit (Ready.fresh UcsFormat.ucs2.codec (0xFF :: 0xFE :: bytes))
  have decoded : decode (.fresh UcsFormat.ucs2.codec (0xFF :: 0xFE :: bytes)) =
      decode (.fresh .ucs2le bytes) := by
    change ucs2Decoder _ = ucs2leDecoder _
    rw [ucs2Decoder, unit, if_neg (by decide), ok_bind]
    rfl
  rw [eformatReadChar, eformatReadChar, decoded]

theorem roundTrip_ucs2 (scalars : ∀ c ∈ cs, Scalar c) :
    RoundTrip (depth + 2) .ucs2 cs ↔ ∀ c ∈ cs, Symmetric c := by
  cases cs with
  | nil => exact iff_of_true (roundTrip_nil _ _) (by simp)
  | cons c cs =>
    have reread (output : List Byte) (others : List (List Byte)) :
        ReadsAll (.fresh UcsFormat.ucs2.codec (([0xFF, 0xFE] ++ output) :: others).flatten)
          (c :: cs) ↔
          ReadsAll (.fresh .ucs2le (output :: others).flatten) (c :: cs) :=
      readsAll_congr (eformatReadChar_mark (output :: others).flatten)
    have whole {output : List Byte} {others : List (List Byte)}
        (made : ucs2beEncoder (depth + 2) c = .ok output)
        (rest : Written (ucs2beEncoder (depth + 2)) cs others) :
        ReadsAll (.fresh UcsFormat.ucs2.codec (([0xFF, 0xFE] ++ output) :: others).flatten)
            (c :: cs) ↔ ∀ d ∈ c :: cs, Symmetric d := by
      have nonempty := (ucs2beEncoder_length (scalars c (.head cs)) made).1
      rw [reread, readsAll_swapped scalars (.fresh _ _)
        (.cons ⟨made, ne_nil_of_length_pos nonempty⟩ rest)]
    constructor
    · intro ⟨outputs, written, _, reads⟩
      obtain ⟨output, others, rfl, made, rest⟩ := writeAll_ucs2.mp written
      exact (whole made rest).mp reads
    · intro symmetric
      obtain ⟨outputs, written⟩ := ucs2beEncoder_written scalars depth
      obtain ⟨output, others, rfl, made, rest⟩ := written_cons written
      refine ⟨([0xFF, 0xFE] ++ output) :: others, ?_, ?_, (whole made rest).mpr symmetric⟩
      · exact writeAll_ucs2.mpr ⟨output, others, rfl, made, rest⟩
      · rw [forall_mem_cons] at scalars ⊢
        have bound := (ucs2beEncoder_length scalars.1 made).2
        constructor
        · rw [length_append]
          exact show 2 + output.length ≤ 6 by omega
        · apply rest.lengths
          intro d member output' encodes
          exact Nat.le_trans (ucs2beEncoder_length (scalars.2 d member) encodes).2 (by decide)

/-- A sequence of Unicode characters survives a format if and only if the format keeps it. -/
theorem ucs_round_trip_iff (depth : Nat) (deep : 2 ≤ depth) (format : UcsFormat)
    (cs : List Character) (scalars : ∀ c ∈ cs, Scalar c) :
    RoundTrip depth format cs ↔ format.Keeps cs := by
  obtain ⟨depth, rfl⟩ := Nat.exists_eq_add_of_le' deep
  cases format with
  | ucs2be => exact roundTrip_ucs2be scalars
  | ucs2le => exact roundTrip_ucs2le scalars
  | ucs2 => exact roundTrip_ucs2 scalars
  | ucs4be => exact iff_of_true (roundTrip_ucs4be scalars) trivial
  | ucs4le => exact iff_of_true (roundTrip_ucs4le scalars) trivial
  | ucs4 => exact roundTrip_ucs4

/-- The letter A and the euro sign in UTF-16. -/
theorem ucs_round_trip_iff_euro :
    RoundTrip 2 .ucs2le [0x41, 0x20AC] ↔ UcsFormat.ucs2le.Keeps [0x41, 0x20AC] :=
  ucs_round_trip_iff 2 (by decide) .ucs2le [0x41, 0x20AC] (by simp [Scalar])

/-- The character with code 10000 does not survive UTF-16. -/
theorem ucs_round_trip_fails :
    ¬ ∀ (depth : Nat), 2 ≤ depth → ∀ (format : UcsFormat) (cs : List Character),
      (∀ c ∈ cs, Scalar c) → RoundTrip depth format cs := by
  intro claim
  have survives := claim 2 (by decide) .ucs2be [0x10000] (by simp [Scalar])
  obtain ⟨outputs, written, _, s, reads⟩ := survives
  have outputs_eq : writeAll 2 (.fresh UcsFormat.ucs2be.codec []) [0x10000] =
      .ok [[0xD8, 0x00, 0xDC, 0x00]] := by decide +kernel
  rw [outputs_eq] at written
  cases written
  have malformed : repeatRead eformatReadChar 2
      (.fresh UcsFormat.ucs2be.codec [[0xD8, 0x00, 0xDC, 0x00]].flatten) =
      .error .malformedCharacter := by decide +kernel
  rw [length_singleton, malformed] at reads
  cases reads

end Ecl.Streams
