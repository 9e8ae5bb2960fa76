import Ecl.Streams.Utf8

/- UTF-8: what the encoder makes is read as the same characters, and which of the sequences
that the decoder accepts the encoder makes. -/
namespace Ecl.Streams

open List

open Ecl.Lib (ok_bind error_bind bind_eq_ok)

/-- The forms, with their bytes as numbers. -/
inductive Utf8Shape (p : List Byte) (code : Nat) : Prop where
  | one (a : Byte) (bytes : p = [a]) (small : a.toNat < 0x80) (value : code = a.toNat)
  | two (a b : Byte) (bytes : p = [a, b]) (lower : 0xC0 ≤ a.toNat) (upper : a.toNat < 0xE0)
      (second : Tail b) (value : code = (a.toNat - 0xC0) * 64 + b.toNat % 64)
  | three (a b c : Byte) (bytes : p = [a, b, c]) (lower : 0xE0 ≤ a.toNat) (upper : a.toNat < 0xF0)
      (second : Tail b) (third : Tail c) (nonzero : (a.toNat - 0xE0) * 64 + b.toNat % 64 ≠ 0)
      (checked : Checked code)
      (value : code = ((a.toNat - 0xE0) * 64 + b.toNat % 64) * 64 + c.toNat % 64)
  | four (a b c d : Byte) (bytes : p = [a, b, c, d]) (lower : 0xF0 ≤ a.toNat)
      (upper : a.toNat < 0xF8) (second : Tail b) (third : Tail c) (fourth : Tail d)
      (nonzero : (a.toNat - 0xF0) * 64 + b.toNat % 64 ≠ 0) (checked : Checked code)
      (value : code =
        (((a.toNat - 0xF0) * 64 + b.toNat % 64) * 64 + c.toNat % 64) * 64 + d.toNat % 64)

variable {p : List Byte} {code : Nat}

theorem Utf8Form.shape (form : Utf8Form p code) : Utf8Shape p code := by
  cases form with
  | single a small => exact .one a rfl small rfl
  | several a b rest lead led tails nonzero checked =>
    generalize count : rest.length + 1 = nbytes at led
    cases led with
    | one lower upper =>
      obtain rfl := eq_nil_of_length_eq_zero (show rest.length = 0 by omega)
      refine .two a b rfl lower upper (tails b (by simp)) ?_
      simp only [foldl_nil, extend]
    | two lower upper =>
      obtain ⟨c, rfl⟩ := length_eq_one_iff.mp (show rest.length = 1 by omega)
      refine .three a b c rfl lower upper (tails b (by simp)) (tails c (by simp)) nonzero checked ?_
      simp only [foldl_cons, foldl_nil, extend]
    | three lower upper =>
      obtain ⟨c, d, rfl⟩ := length_eq_two.mp (show rest.length = 2 by omega)
      refine .four a b c d rfl lower upper (tails b (by simp)) (tails c (by simp))
        (tails d (by simp)) nonzero checked ?_
      simp only [foldl_cons, foldl_nil, extend]

/-- How many bytes the encoder uses. -/
def encodedLength (code : Nat) : Nat :=
  if code ≤ 0x7F then 1 else if code ≤ 0x7FF then 2 else if code ≤ 0xFFFF then 3 else 4

/-- A sequence that is not longer than it has to be, for a code up to 10FFFF. -/
def Shortest : List Byte → Prop
  | first :: second :: _ =>
    0xC2 ≤ first.toNat ∧ first.toNat ≤ 0xF4 ∧ (first.toNat = 0xE0 → 0xA0 ≤ second.toNat) ∧
      (first.toNat = 0xF0 → 0x90 ≤ second.toNat) ∧ (first.toNat = 0xF4 → second.toNat < 0x90)
  | _ => True

theorem Utf8Form.shortest_iff (form : Utf8Form p code) :
    Shortest p ↔ code ≤ 0x10FFFF ∧ p.length = encodedLength code := by
  unfold encodedLength
  cases form.shape with
  | one a bytes small value =>
    subst bytes
    simp only [Shortest, true_iff, length_singleton]
    split <;> omega
  | two a b bytes lower upper second value =>
    subst bytes
    unfold Tail at second
    simp only [Shortest, length_cons, length_nil]
    split <;> [skip; split <;> [skip; split]] <;> omega
  | three a b c bytes lower upper second third nonzero checked value =>
    subst bytes
    unfold Tail at second third
    simp only [Shortest, length_cons, length_nil]
    split <;> [skip; split <;> [skip; split]] <;> omega
  | four a b c d bytes lower upper second third fourth nonzero checked value =>
    subst bytes
    unfold Tail at second third fourth
    simp only [Shortest, length_cons, length_nil]
    split <;> [skip; split <;> [skip; split]] <;> omega

theorem byte_eq {a b : Byte} (same : a.toNat = b.toNat) : a = b := BitVec.eq_of_toNat_eq same

theorem Utf8Form.unique {q : List Byte} (left : Utf8Form p code)
    (right : Utf8Form q code) (length : p.length = q.length) : p = q := by
  cases left.shape with
  | one a bytes small value =>
    subst bytes
    cases right.shape with
    | one a' bytes' small' value' => rw [bytes', byte_eq (value.symm.trans value')]
    | two a' b' bytes' => simp [bytes'] at length
    | three a' b' c' bytes' => simp [bytes'] at length
    | four a' b' c' d' bytes' => simp [bytes'] at length
  | two a b bytes lower upper second value =>
    subst bytes
    cases right.shape with
    | one a' bytes' => simp [bytes'] at length
    | two a' b' bytes' lower' upper' second' value' =>
      unfold Tail at second second'
      rw [bytes', byte_eq (show a.toNat = a'.toNat by omega),
        byte_eq (show b.toNat = b'.toNat by omega)]
    | three a' b' c' bytes' => simp [bytes'] at length
    | four a' b' c' d' bytes' => simp [bytes'] at length
  | three a b c bytes lower upper second third nonzero checked value =>
    subst bytes
    cases right.shape with
    | one a' bytes' => simp [bytes'] at length
    | two a' b' bytes' => simp [bytes'] at length
    | three a' b' c' bytes' lower' upper' second' third' nonzero' checked' value' =>
      unfold Tail at second second' third third'
      rw [bytes', byte_eq (show a.toNat = a'.toNat by omega),
        byte_eq (show b.toNat = b'.toNat by omega), byte_eq (show c.toNat = c'.toNat by omega)]
    | four a' b' c' d' bytes' => simp [bytes'] at length
  | four a b c d bytes lower upper second third fourth nonzero checked value =>
    subst bytes
    cases right.shape with
    | one a' bytes' => simp [bytes'] at length
    | two a' b' bytes' => simp [bytes'] at length
    | three a' b' c' bytes' => simp [bytes'] at length
    | four a' b' c' d' bytes' lower' upper' second' third' fourth' nonzero' checked' value' =>
      unfold Tail at second second' third third' fourth fourth'
      rw [bytes', byte_eq (show a.toNat = a'.toNat by omega),
        byte_eq (show b.toNat = b'.toNat by omega), byte_eq (show c.toNat = c'.toNat by omega),
        byte_eq (show d.toNat = d'.toNat by omega)]

theorem shiftRight_toNat (c : Character) (bits : Nat) :
    (c >>> bits).toNat = c.toNat / 2 ^ bits := by
  rw [BitVec.toNat_ushiftRight, Nat.shiftRight_eq_div_pow]

variable {first : Byte} {lead : Nat}

theorem Utf8Form.of_code {second : Byte} {rest : List Byte}
    (led : Led first (rest.length + 1) lead) (tails : ∀ b ∈ second :: rest, Tail b)
    (nonzero : extend lead second ≠ 0) (checked : Checked code)
    (value : rest.foldl extend (extend lead second) = code) :
    Utf8Form (first :: second :: rest) code := by
  subst value
  exact .several first second rest lead led tails nonzero checked

theorem Led.one_of (value : first.toNat = 0xC0 + lead) (small : lead < 0x20) :
    Led first 1 lead := by
  have led : Led first 1 (first.toNat - 0xC0) := .one (by omega) (by omega)
  rwa [value, Nat.add_sub_cancel_left] at led

theorem Led.two_of (value : first.toNat = 0xE0 + lead) (small : lead < 0x10) :
    Led first 2 lead := by
  have led : Led first 2 (first.toNat - 0xE0) := .two (by omega) (by omega)
  rwa [value, Nat.add_sub_cancel_left] at led

theorem Led.three_of (value : first.toNat = 0xF0 + lead) (small : lead < 8) : Led first 3 lead := by
  have led : Led first 3 (first.toNat - 0xF0) := .three (by omega) (by omega)
  rwa [value, Nat.add_sub_cancel_left] at led

theorem utf8Encoder_form (c : Character) (small : c.toNat ≤ 0x1FFFFF) (checked : Checked c.toNat) :
    ∃ p, utf8Encoder c = .ok p ∧ Utf8Form p c.toNat ∧ p.length = encodedLength c.toNat := by
  have positive : ¬ (c.toNat : Int) < 0 := by omega
  have tail (x : Character) : Tail (utf8Tail x) := by
    unfold Tail
    rw [utf8Tail_toNat]
    omega
  have next (cum : Nat) (x : Character) : extend cum (utf8Tail x) = cum * 64 + x.toNat % 64 := by
    rw [extend, utf8Tail_toNat]
    omega
  unfold utf8Encoder encodedLength
  rw [toInt_eq_toNat (by omega), if_neg positive]
  by_cases one : c.toNat ≤ 0x7F
  · rw [if_pos (by omega), if_pos one]
    have same : (lowByte c).toNat = c.toNat := by
      simp only [lowByte, BitVec.toNat_setWidth]
      omega
    exact ⟨_, rfl, same ▸ .single (lowByte c) (by omega), rfl⟩
  by_cases two : c.toNat ≤ 0x7FF
  · rw [if_neg (by omega), if_pos (by omega), if_neg one, if_pos two]
    have first : (lowByte ((c >>> 6) ||| 0xC0)).toNat = 0xC0 + c.toNat / 64 := by
      have high := shiftRight_toNat c 6
      rw [lowByte_or _ 0xC0 5 6 (by omega) rfl (by decide), high]
      rfl
    have led : Led (lowByte ((c >>> 6) ||| 0xC0)) 1 (c.toNat / 64) :=
      .one_of first (by omega)
    have value : extend (c.toNat / 64) (utf8Tail c) = c.toNat := by
      rw [next]
      omega
    exact ⟨_, rfl, .of_code led (by simp [tail]) (by omega) checked value, rfl⟩
  by_cases three : c.toNat ≤ 0xFFFF
  · rw [if_neg (by omega), if_neg (by omega), if_pos (by omega), if_neg one,
      if_neg two, if_pos three]
    have middle := shiftRight_toNat c 6
    have first : (lowByte ((c >>> 12) ||| 0xE0)).toNat = 0xE0 + c.toNat / 4096 := by
      have high := shiftRight_toNat c 12
      rw [lowByte_or _ 0xE0 4 14 (by omega) rfl (by decide), high]
      rfl
    have led : Led (lowByte ((c >>> 12) ||| 0xE0)) 2 (c.toNat / 4096) :=
      .two_of first (by omega)
    have second : extend (c.toNat / 4096) (utf8Tail (c >>> 6)) = c.toNat / 64 := by
      rw [next, middle]
      omega
    have value : [utf8Tail c].foldl extend (extend (c.toNat / 4096) (utf8Tail (c >>> 6))) =
        c.toNat := by
      rw [second, foldl_cons, foldl_nil, next]
      omega
    exact ⟨_, rfl, .of_code led (by simp [tail]) (by omega) checked value, rfl⟩
  · rw [if_neg (by omega), if_neg (by omega), if_neg (by omega), if_pos (by omega), if_neg one,
      if_neg two, if_neg three]
    have middle := shiftRight_toNat c 12
    have low := shiftRight_toNat c 6
    have first : (lowByte ((c >>> 18) ||| 0xF0)).toNat = 0xF0 + c.toNat / 262144 := by
      have high := shiftRight_toNat c 18
      rw [lowByte_or _ 0xF0 3 30 (by omega) rfl (by decide), high]
      rfl
    have led : Led (lowByte ((c >>> 18) ||| 0xF0)) 3 (c.toNat / 262144) :=
      .three_of first (by omega)
    have second : extend (c.toNat / 262144) (utf8Tail (c >>> 12)) = c.toNat / 4096 := by
      rw [next, middle]
      omega
    have value : [utf8Tail (c >>> 6), utf8Tail c].foldl extend
        (extend (c.toNat / 262144) (utf8Tail (c >>> 12))) = c.toNat := by
      rw [second, foldl_cons, foldl_cons, foldl_nil, next, next, low]
      omega
    exact ⟨_, rfl, .of_code led (by simp [tail]) (by omega) checked value, rfl⟩

variable {consumed : List Byte} {c : Character}

theorem utf8Decoder_of_form (form : Utf8Form consumed c.toNat) (rest : List Byte) :
    utf8Decoder (.fresh .utf8 (consumed ++ rest)) = .ok (c, .fresh .utf8 rest) := by
  rw [utf8Decoder_eq (.fresh .utf8 (consumed ++ rest)) (Nat.zero_le 1), Stream.fresh_pending,
    utf8Bytes_of_form form]
  simp only [Except.map, Stream.fresh_skip, drop_left]

/-- The outputs of the encoder, one for each character. -/
def utf8EncodeAll : List Character → Except Fault (List (List Byte))
  | [] => .ok []
  | c :: cs => do
      let output ← utf8Encoder c
      let outputs ← utf8EncodeAll cs
      .ok (output :: outputs)

theorem Scalar.checked (scalar : Scalar c) (first : c ≠ 0xFFFE) (second : c ≠ 0xFFFF) :
    Checked c.toNat := by
  have first : c.toNat ≠ 0xFFFE := fun same => first (BitVec.eq_of_toNat_eq same)
  have second : c.toNat ≠ 0xFFFF := fun same => second (BitVec.eq_of_toNat_eq same)
  unfold Scalar at scalar
  unfold Checked
  omega

theorem encodedLength_bounds (code : Nat) : 1 ≤ encodedLength code ∧ encodedLength code ≤ 4 := by
  unfold encodedLength
  split <;> [skip; split <;> [skip; split]] <;> omega

/-- Characters that are written in UTF-8 are read again, and then the end of the file. -/
theorem utf8_round_trip (cs : List Character)
    (valid : ∀ c ∈ cs, Scalar c ∧ c ≠ 0xFFFE ∧ c ≠ 0xFFFF) :
    ∃ outputs, utf8EncodeAll cs = .ok outputs ∧
      (∀ output ∈ outputs, 1 ≤ output.length ∧ output.length ≤ 4) ∧
      repeatRead utf8Decoder (cs.length + 1) (.fresh .utf8 outputs.flatten) =
        .ok (cs ++ [eof], .fresh .utf8 []) := by
  induction cs with
  | nil => exact ⟨[], rfl, by simp, rfl⟩
  | cons c cs ih =>
    obtain ⟨outputs, encoded, lengths, reread⟩ := ih fun d member => valid d (.tail c member)
    have ⟨scalar, first, second⟩ := valid c (.head cs)
    have small : c.toNat ≤ 0x1FFFFF := by
      unfold Scalar at scalar
      omega
    obtain ⟨output, encodes, form, length⟩ :=
      utf8Encoder_form c small (scalar.checked first second)
    refine ⟨output :: outputs, ?_, ?_, ?_⟩
    · rw [utf8EncodeAll, encodes, ok_bind, encoded, ok_bind]
    · rw [forall_mem_cons]
      exact ⟨length ▸ encodedLength_bounds c.toNat, lengths⟩
    · rw [length_cons, repeatRead, flatten_cons, utf8Decoder_of_form form, ok_bind]
      simp only [reread, ok_bind, cons_append]

def fourLengths : List Character := [0x24, 0xA2, 0x20AC, 0x10348]

theorem utf8_round_trip_fourLengths :
    ∃ outputs, utf8EncodeAll fourLengths = .ok outputs ∧
      (∀ output ∈ outputs, 1 ≤ output.length ∧ output.length ≤ 4) ∧
      repeatRead utf8Decoder (fourLengths.length + 1) (.fresh .utf8 outputs.flatten) =
        .ok (fourLengths ++ [eof], .fresh .utf8 []) :=
  utf8_round_trip fourLengths (by simp [fourLengths, Scalar])

/-- The decoder returns a character and has consumed some bytes. -/
def Decodes (bytes consumed : List Byte) (c : Character) : Prop :=
  c ≠ eof ∧ ∃ s, utf8Decoder (.fresh .utf8 bytes) = .ok (c, s) ∧ bytes = consumed ++ s.content

theorem Decodes.form {bytes : List Byte}
    (decodes : Decodes bytes consumed c) : Utf8Form consumed c.toNat := by
  obtain ⟨character, s, read, split⟩ := decodes
  rw [utf8Decoder_eq (.fresh .utf8 bytes) (Nat.zero_le 1), Stream.fresh_pending] at read
  cases result : utf8Bytes bytes with
  | error fault =>
    rw [result] at read
    cases read
  | ok found =>
    rw [result] at read
    cases read
    have ⟨form, _⟩ := utf8Bytes_form result character
    have taken := take_append_drop found.2 bytes
    rw [Stream.fresh_skip] at split
    have same := append_cancel_right (taken.trans split)
    exact same ▸ form

/-- The character is one of Unicode, and the encoder makes the bytes that were consumed. -/
def Reproduced (consumed : List Byte) (c : Character) : Prop :=
  Scalar c ∧ utf8Encoder c = .ok consumed

theorem Utf8Form.bounds (form : Utf8Form p code) : code ≤ 0x1FFFFF ∧ Checked code := by
  cases form.shape with
  | one a bytes small value =>
    unfold Checked
    omega
  | two a b bytes lower upper second value =>
    unfold Checked
    omega
  | three a b c bytes lower upper second third nonzero checked value => exact ⟨by omega, checked⟩
  | four a b c d bytes lower upper second third fourth nonzero checked value =>
      exact ⟨by omega, checked⟩

theorem Decodes.reproduced_iff {bytes : List Byte}
    (decodes : Decodes bytes consumed c) : Reproduced consumed c ↔ Shortest consumed := by
  have form := decodes.form
  have ⟨small, checked⟩ := form.bounds
  obtain ⟨output, encodes, encoded, length⟩ := utf8Encoder_form c small checked
  have scalar : Scalar c ↔ c.toNat ≤ 0x10FFFF := by
    unfold Checked at checked
    unfold Scalar
    omega
  rw [form.shortest_iff, Reproduced, scalar, encodes, Except.ok.injEq]
  refine and_congr_right fun _ => ?_
  constructor
  · intro same
    rw [← same, length]
  · intro same
    exact encoded.unique form (length.trans same.symm)

/-- Two sequences are read as characters that the encoder takes back to them, and as different
characters when they differ, if and only if both have the shortest form. -/
theorem utf8_shortest_iff (bytes bytes' consumed consumed' : List Byte) (c c' : Character)
    (first : Decodes bytes consumed c) (second : Decodes bytes' consumed' c') :
    (Reproduced consumed c ∧ Reproduced consumed' c' ∧ (c = c' → consumed = consumed')) ↔
      Shortest consumed ∧ Shortest consumed' := by
  rw [first.reproduced_iff, second.reproduced_iff]
  constructor
  · intro ⟨left, right, _⟩
    exact ⟨left, right⟩
  · intro ⟨left, right⟩
    refine ⟨left, right, ?_⟩
    intro same
    have encodes := (first.reproduced_iff.mpr left).2
    have encodes' := (second.reproduced_iff.mpr right).2
    rw [same, encodes'] at encodes
    exact (Except.ok.inj encodes).symm

/-- The euro sign and the letter A. -/
theorem utf8_shortest_iff_euro :
    (Reproduced [0xE2, 0x82, 0xAC] 0x20AC ∧ Reproduced [0x41] 0x41 ∧
        ((0x20AC : Character) = 0x41 → [0xE2, 0x82, 0xAC] = ([0x41] : List Byte))) ↔
      Shortest [0xE2, 0x82, 0xAC] ∧ Shortest [0x41] :=
  utf8_shortest_iff [0xE2, 0x82, 0xAC, 0x0A] [0x41] [0xE2, 0x82, 0xAC] [0x41] 0x20AC 0x41
    ⟨by decide +kernel, .fresh .utf8 [0x0A], by decide +kernel, by decide +kernel⟩
    ⟨by decide +kernel, .fresh .utf8 [], by decide +kernel, by decide +kernel⟩

/-- The bytes C1 81 are read as the letter A, whose own encoding is 41. -/
theorem overlong_accepted :
    ¬ ∀ (bytes consumed : List Byte) (c : Character), Decodes bytes consumed c →
      Scalar c ∧ utf8Encoder c = .ok consumed := by
  intro claim
  have decodes : Decodes [0xC1, 0x81] [0xC1, 0x81] 0x41 :=
    ⟨by decide +kernel, .fresh .utf8 [], by decide +kernel, by decide +kernel⟩
  have encodes : utf8Encoder 0x41 = .ok [0x41] := by decide +kernel
  have ⟨_, same⟩ := claim _ _ _ decodes
  rw [encodes] at same
  cases same

end Ecl.Streams
