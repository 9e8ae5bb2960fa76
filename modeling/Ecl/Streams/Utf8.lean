import Mathlib.Data.Nat.Bitwise
import Ecl.Streams.Stream

/- UTF-8 in file.d: utf_8_decoder and utf_8_encoder. -/
namespace Ecl.Streams

open List

open Ecl.Lib (ok_bind error_bind bind_eq_ok)

/-- The number of bytes that follow a first byte, and the bits of that byte that count. -/
def utf8Lead (first : Byte) : Except Fault (Nat × Byte) :=
  if first &&& 0x40 = 0 then .error .malformedCharacter
  else if first &&& 0x20 = 0 then .ok (1, first &&& 0x1F)
  else if first &&& 0x10 = 0 then .ok (2, first &&& 0x0F)
  else if first &&& 0x08 = 0 then .ok (3, first &&& 0x07)
  else .error .unsupportedCharacter

/-- The loop over the bytes that follow. -/
def utf8Loop (cum : Character) : List Byte → Except Fault Character
  | [] => .ok cum
  | c :: buffer =>
    if c &&& 0xC0 ≠ 0x80 then .error .malformedCharacter
    else
      let cum := (cum <<< 6) ||| character (c &&& 0x3F)
      if cum = 0 then .error .tooLongUtf8Sequence else utf8Loop cum buffer

/-- The tests on the code when all its bytes were read. -/
def utf8Check (cum : Character) : Except Fault Character :=
  if 0xD800 ≤ cum.toInt then
    if cum.toInt ≤ 0xDFFF then .error (.invalidCodepoint cum)
    else if 0xFFFE ≤ cum.toInt ∧ cum.toInt ≤ 0xFFFF then .error (.invalidCodepoint cum)
    else .ok cum
  else .ok cum

def utf8Decoder (s : Stream) : Except Fault (Character × Stream) := do
  let (buffer, s) ← readByte8 1 s
  match buffer with
  | [] => .ok (eof, s)
  | first :: _ =>
    if first &&& 0x80 = 0 then .ok (character first, s)
    else do
      let (nbytes, lead) ← utf8Lead first
      let (buffer, s) ← readByte8 nbytes s
      if buffer.length < nbytes then .ok (eof, s)
      else do
        let cum ← utf8Loop (character lead) buffer
        let cum ← utf8Check cum
        .ok (cum, s)

def lowByte (c : Character) : Byte := c.setWidth 8

/-- A byte of a sequence but its first one. -/
def utf8Tail (c : Character) : Byte := lowByte ((c &&& 0x3F) ||| 0x80)

/-- The bytes in the buffer. The number of bytes is never set for a code over 1FFFFF. -/
def utf8Encoder (c : Character) : Except Fault (List Byte) :=
  if c.toInt < 0 then .ok []
  else if c.toInt ≤ 0x7F then .ok [lowByte c]
  else if c.toInt ≤ 0x7FF then .ok [lowByte ((c >>> 6) ||| 0xC0), utf8Tail c]
  else if c.toInt ≤ 0xFFFF then
    .ok [lowByte ((c >>> 12) ||| 0xE0), utf8Tail (c >>> 6), utf8Tail c]
  else if c.toInt ≤ 0x1FFFFF then
    .ok [lowByte ((c >>> 18) ||| 0xF0), utf8Tail (c >>> 12), utf8Tail (c >>> 6), utf8Tail c]
  else .error .undefined

variable {c : Character}

theorem toInt_eq_toNat (small : c.toNat < 2 ^ 31) : c.toInt = c.toNat := by
  rw [BitVec.toInt_eq_toNat_cond, if_pos (by omega)]

theorem top_eq_zero (b : Byte) : b &&& 0x80 = 0 ↔ b.toNat < 0x80 := by
  revert b
  decide +kernel

theorem tail_iff (b : Byte) : b &&& 0xC0 = 0x80 ↔ 0x80 ≤ b.toNat ∧ b.toNat < 0xC0 := by
  revert b
  decide +kernel

theorem mask_toNat {w : Nat} (b mask : BitVec w) (bits : Nat) (low : mask.toNat = 2 ^ bits - 1) :
    (b &&& mask).toNat = b.toNat % 2 ^ bits := by
  rw [BitVec.toNat_and, low, Nat.and_two_pow_sub_one_eq_mod]

theorem lowByte_or (c mark : Character) (bits high : Nat) (below : c.toNat < 2 ^ bits)
    (aligned : mark.toNat = high * 2 ^ bits) (small : (high + 1) * 2 ^ bits ≤ 256) :
    (lowByte (c ||| mark)).toNat = mark.toNat + c.toNat := by
  have sum : c.toNat ||| mark.toNat = mark.toNat + c.toNat := by
    rw [aligned, Nat.or_comm, ← Nat.shiftLeft_eq, Nat.shiftLeft_add_eq_or_of_lt below]
  rw [Nat.add_mul, Nat.one_mul] at small
  simp only [lowByte, BitVec.toNat_setWidth, BitVec.toNat_or, sum]
  omega

theorem utf8Tail_toNat (c : Character) : (utf8Tail c).toNat = 0x80 + c.toNat % 64 := by
  have low := mask_toNat c 0x3F 6 rfl
  have below : (c &&& 0x3F).toNat < 2 ^ 6 := by omega
  unfold utf8Tail
  rw [lowByte_or _ 0x80 6 2 below rfl (by decide), low]
  rfl

/-- The code that a further byte makes of the bits before it. -/
def extend (cum : Nat) (b : Byte) : Nat := cum * 64 + b.toNat % 64

theorem shift_toNat (cum : Character) (c : Byte) (small : cum.toNat < 2 ^ 26) :
    ((cum <<< 6) ||| character (c &&& 0x3F)).toNat = extend cum.toNat c := by
  have low := mask_toNat c 0x3F 6 rfl
  have below : (c &&& 0x3F).toNat < 2 ^ 6 := by omega
  have room : cum.toNat <<< 6 < 2 ^ 32 := by
    rw [Nat.shiftLeft_eq]
    omega
  rw [BitVec.toNat_or, BitVec.toNat_shiftLeft, character_toNat, Nat.mod_eq_of_lt room,
    ← Nat.shiftLeft_add_eq_or_of_lt below, Nat.shiftLeft_eq, low]
  rfl

/-- A byte of a sequence but its first one. -/
def Tail (b : Byte) : Prop := 0x80 ≤ b.toNat ∧ b.toNat < 0xC0

/-- The codes that pass the last tests. -/
def Checked (code : Nat) : Prop :=
  ¬ (0xD800 ≤ code ∧ code ≤ 0xDFFF) ∧ code ≠ 0xFFFE ∧ code ≠ 0xFFFF

/-- A first byte, how many bytes follow it, and the bits of the code in it. -/
inductive Led (first : Byte) : Nat → Nat → Prop where
  | one (lower : 0xC0 ≤ first.toNat) (upper : first.toNat < 0xE0) :
      Led first 1 (first.toNat - 0xC0)
  | two (lower : 0xE0 ≤ first.toNat) (upper : first.toNat < 0xF0) :
      Led first 2 (first.toNat - 0xE0)
  | three (lower : 0xF0 ≤ first.toNat) (upper : first.toNat < 0xF8) :
      Led first 3 (first.toNat - 0xF0)

/-- The sequences that the decoder takes for a character, and the code of the character. -/
inductive Utf8Form : List Byte → Nat → Prop where
  | single (first : Byte) (small : first.toNat < 0x80) : Utf8Form [first] first.toNat
  | several (first second : Byte) (rest : List Byte) (lead : Nat)
      (led : Led first (rest.length + 1) lead) (tails : ∀ b ∈ second :: rest, Tail b)
      (nonzero : extend lead second ≠ 0)
      (checked : Checked (rest.foldl extend (extend lead second))) :
      Utf8Form (first :: second :: rest) (rest.foldl extend (extend lead second))

theorem utf8Lead_eq (first : Byte) (high : 0x80 ≤ first.toNat) :
    utf8Lead first =
      if first.toNat < 0xC0 then .error .malformedCharacter
      else if first.toNat < 0xE0 then .ok (1, first - 0xC0)
      else if first.toNat < 0xF0 then .ok (2, first - 0xE0)
      else if first.toNat < 0xF8 then .ok (3, first - 0xF0)
      else .error .unsupportedCharacter := by
  revert first
  decide +kernel

theorem utf8Lead_ok {first lead : Byte} {nbytes : Nat} (high : 0x80 ≤ first.toNat) :
    utf8Lead first = .ok (nbytes, lead) ↔ Led first nbytes lead.toNat := by
  have small := first.isLt
  have sub (mark : Byte) (below : mark.toNat ≤ first.toNat) :
      (first - mark).toNat = first.toNat - mark.toNat := BitVec.toNat_sub_of_le below
  rw [utf8Lead_eq first high]
  constructor
  · intro found
    split at found
    · cases found
    split at found
    · cases found
      rw [sub 0xC0 (show 0xC0 ≤ first.toNat by omega)]
      exact .one (by omega) (by omega)
    split at found
    · cases found
      rw [sub 0xE0 (show 0xE0 ≤ first.toNat by omega)]
      exact .two (by omega) (by omega)
    split at found
    · cases found
      rw [sub 0xF0 (show 0xF0 ≤ first.toNat by omega)]
      exact .three (by omega) (by omega)
    · cases found
  · intro led
    generalize value : lead.toNat = bits at led
    cases led with
    | one lower upper =>
      rw [if_neg (by omega), if_pos upper,
        BitVec.eq_of_toNat_eq ((sub 0xC0 lower).trans value.symm)]
    | two lower upper =>
      rw [if_neg (by omega), if_neg (by omega), if_pos upper,
        BitVec.eq_of_toNat_eq ((sub 0xE0 lower).trans value.symm)]
    | three lower upper =>
      rw [if_neg (by omega), if_neg (by omega), if_neg (by omega), if_pos upper,
        BitVec.eq_of_toNat_eq ((sub 0xF0 lower).trans value.symm)]

variable {cum code : Character}

theorem utf8Loop_cons {c : Byte} {buffer : List Byte} (small : cum.toNat < 2 ^ 26) :
    utf8Loop cum (c :: buffer) = .ok code ↔
      Tail c ∧ ∃ next : Character, next.toNat = extend cum.toNat c ∧ next.toNat ≠ 0 ∧
        utf8Loop next buffer = .ok code := by
  simp only [utf8Loop]
  split
  · rename_i stray
    rw [ne_eq, tail_iff] at stray
    simp only [reduceCtorEq, Tail, stray, false_and]
  rename_i tail
  rw [not_not, tail_iff] at tail
  have value := shift_toNat cum c small
  constructor
  · intro read
    split at read
    · cases read
    · rename_i nonzero
      refine ⟨tail, _, value, ?_, read⟩
      intro zero
      exact nonzero (BitVec.eq_of_toNat_eq zero)
  · intro ⟨_, next, extended, nonzero, read⟩
    have same : (cum <<< 6) ||| character (c &&& 0x3F) = next :=
      BitVec.eq_of_toNat_eq (value.trans extended.symm)
    rw [same, if_neg, read]
    intro zero
    rw [zero] at nonzero
    exact nonzero rfl

variable {k : Nat}

theorem extend_lt {cum : Nat} (small : cum < k) (b : Byte) : extend cum b < k * 64 := by
  unfold extend
  omega

theorem extend_ne_zero {cum : Nat} (nonzero : cum ≠ 0) (b : Byte) : extend cum b ≠ 0 := by
  unfold extend
  omega

theorem utf8Loop_nil : utf8Loop cum [] = .ok code ↔ code.toNat = cum.toNat := by
  rw [BitVec.toNat_inj]
  constructor
  · intro read
    cases read
    rfl
  · intro same
    rw [same]
    rfl

variable {n : Nat}

theorem exists_character (small : n < 2 ^ 32) : ∃ c : Character, c.toNat = n :=
  ⟨BitVec.ofNat 32 n, by rw [BitVec.toNat_ofNat, Nat.mod_eq_of_lt small]⟩

/-- After a byte that makes the code other than zero, the loop only looks for stray bytes. -/
theorem utf8Loop_ok {buffer : List Byte} (small : cum.toNat < k)
    (room : k * 64 ^ buffer.length ≤ 2 ^ 31) (nonzero : cum.toNat ≠ 0) :
    utf8Loop cum buffer = .ok code ↔
      (∀ b ∈ buffer, Tail b) ∧ code.toNat = buffer.foldl extend cum.toNat := by
  induction buffer generalizing cum k with
  | nil => simp [utf8Loop_nil]
  | cons b buffer ih =>
    rw [length_cons, Nat.pow_succ', ← Nat.mul_assoc] at room
    have positive : 0 < 64 ^ buffer.length := Nat.pow_pos (by decide)
    have bound : k * 64 ≤ 2 ^ 31 := Nat.le_trans (Nat.le_mul_of_pos_right _ positive) room
    rw [utf8Loop_cons (by omega), forall_mem_cons, and_assoc]
    refine and_congr_right fun _ => ?_
    have next := extend_lt small b
    have step {cum' : Character} (extended : cum'.toNat = extend cum.toNat b) :=
      ih (show cum'.toNat < k * 64 by omega) room
        (show cum'.toNat ≠ 0 from extended ▸ extend_ne_zero nonzero b)
    constructor
    · intro ⟨cum', extended, _, read⟩
      rw [foldl_cons, ← extended]
      exact (step extended).mp read
    · intro read
      obtain ⟨cum', extended⟩ := exists_character (show extend cum.toNat b < 2 ^ 32 by omega)
      rw [foldl_cons, ← extended] at read
      exact ⟨cum', extended, extended ▸ extend_ne_zero nonzero b, (step extended).mpr read⟩

variable {second : Byte}

theorem utf8Sequence_ok {lead : Character} {rest : List Byte}
    (small : lead.toNat < 32) (short : rest.length ≤ 2) :
    utf8Loop lead (second :: rest) = .ok code ↔
      (∀ b ∈ second :: rest, Tail b) ∧ extend lead.toNat second ≠ 0 ∧
        code.toNat = rest.foldl extend (extend lead.toNat second) := by
  have power : 64 ^ rest.length ≤ 64 ^ 2 := Nat.pow_le_pow_right (by decide) short
  have room : 32 * 64 * 64 ^ rest.length ≤ 2 ^ 31 := by omega
  rw [utf8Loop_cons (by omega), forall_mem_cons, and_assoc]
  refine and_congr_right fun _ => ?_
  have next := extend_lt small second
  constructor
  · intro ⟨cum, extended, nonzero, read⟩
    have ⟨tails, value⟩ := (utf8Loop_ok (by omega) room nonzero).mp read
    rw [extended] at nonzero value
    exact ⟨tails, nonzero, value⟩
  · intro ⟨tails, nonzero, value⟩
    obtain ⟨cum, extended⟩ := exists_character (show extend lead.toNat second < 2 ^ 32 by omega)
    rw [← extended] at nonzero value
    exact ⟨cum, extended, nonzero, (utf8Loop_ok (by omega) room nonzero).mpr ⟨tails, value⟩⟩

theorem utf8Check_ok (small : cum.toNat < 2 ^ 31) :
    utf8Check cum = .ok code ↔ Checked cum.toNat ∧ code = cum := by
  unfold utf8Check Checked
  rw [toInt_eq_toNat small]
  grind

theorem Led.bounds {first : Byte} {nbytes lead : Nat} (led : Led first nbytes lead) :
    0 < nbytes ∧ nbytes ≤ 3 ∧ lead < 32 ∧ 0xC0 ≤ first.toNat := by
  cases led with
  | one lower upper => omega
  | two lower upper => omega
  | three lower upper => omega

theorem fold_lt {cum : Nat} (small : cum < k) (buffer : List Byte) :
    buffer.foldl extend cum < k * 64 ^ buffer.length := by
  induction buffer generalizing cum k with
  | nil => simpa using small
  | cons b buffer ih =>
    rw [foldl_cons, length_cons, Nat.pow_succ', ← Nat.mul_assoc]
    exact ih (extend_lt small b)

theorem utf8Code_ok {lead : Character} {rest : List Byte}
    (small : lead.toNat < 32) (short : rest.length ≤ 2) :
    (utf8Loop lead (second :: rest) >>= utf8Check) = .ok code ↔
      (∀ b ∈ second :: rest, Tail b) ∧ extend lead.toNat second ≠ 0 ∧
        Checked (rest.foldl extend (extend lead.toNat second)) ∧
        code.toNat = rest.foldl extend (extend lead.toNat second) := by
  have power : 64 ^ rest.length ≤ 64 ^ 2 := Nat.pow_le_pow_right (by decide) short
  have bound : rest.foldl extend (extend lead.toNat second) < 2 ^ 31 := by
    have limit := fold_lt (extend_lt small second) rest
    omega
  rw [bind_eq_ok]
  constructor
  · intro ⟨cum, looped, checked⟩
    have ⟨tails, nonzero, value⟩ := (utf8Sequence_ok small short).mp looped
    have ⟨valid, same⟩ := (utf8Check_ok (value ▸ bound)).mp checked
    rw [value] at valid
    exact ⟨tails, nonzero, valid, same ▸ value⟩
  · intro ⟨tails, nonzero, valid, value⟩
    have looped := (utf8Sequence_ok small short).mpr ⟨tails, nonzero, value⟩
    rw [← value] at valid
    exact ⟨code, looped, (utf8Check_ok (value ▸ bound)).mpr ⟨valid, rfl⟩⟩

/-- The code of a sequence, and how many bytes were read for it. -/
def utf8Bytes : List Byte → Except Fault (Character × Nat)
  | [] => .ok (eof, 1)
  | first :: rest =>
    if first &&& 0x80 = 0 then .ok (character first, 1)
    else do
      let (nbytes, lead) ← utf8Lead first
      if (rest.take nbytes).length < nbytes then .ok (eof, 1 + nbytes)
      else do
        let cum ← utf8Loop (character lead) (rest.take nbytes)
        let cum ← utf8Check cum
        .ok (cum, 1 + nbytes)

theorem utf8Decoder_eq (s : Stream) (fits : s.byteStack.length ≤ 1) :
    utf8Decoder s = (utf8Bytes s.pending).map fun (c, n) => (c, s.skip n) := by
  unfold utf8Decoder
  rw [readByte8_eq s 1 fits, ok_bind]
  cases pending : s.pending with
  | nil => rfl
  | cons b rest =>
    simp only [take_succ_cons, utf8Bytes]
    split
    · rfl
    cases utf8Lead b with
    | error fault => rfl
    | ok found =>
      have room : (s.skip 1).byteStack.length ≤ found.1 := Nat.zero_le _
      rw [ok_bind, ok_bind, readByte8_eq _ _ room, ok_bind]
      simp only [Stream.skip_pending, Stream.skip_skip, pending, drop_succ_cons,
        drop_zero]
      split
      · rfl
      cases utf8Loop (character found.2) (rest.take found.1) with
      | error fault => rfl
      | ok cum =>
        rw [ok_bind, ok_bind]
        cases utf8Check cum with
        | error fault => rfl
        | ok c => rfl

theorem take_succ_eq {bytes others : List Byte}
    (taken : bytes.take n = second :: others) (enough : ¬ (second :: others).length < n) :
    others.length + 1 = n := by
  have limit := length_take_le n bytes
  rw [taken] at limit
  simp only [length_cons] at enough limit
  omega

theorem utf8Bytes_form {bytes : List Byte} (read : utf8Bytes bytes = .ok (c, n))
    (character : c ≠ eof) :
    Utf8Form (bytes.take n) c.toNat ∧ n = (bytes.take n).length := by
  cases bytes with
  | nil =>
    cases read
    exact absurd rfl character
  | cons first rest =>
    simp only [utf8Bytes] at read
    split at read
    · rename_i small
      cases read
      rw [top_eq_zero] at small
      exact ⟨character_toNat first ▸ .single first small, rfl⟩
    rename_i high
    rw [top_eq_zero, not_lt] at high
    obtain ⟨⟨nbytes, lead⟩, found, read⟩ := bind_eq_ok.mp read
    have led := (utf8Lead_ok high).mp found
    have bounds := led.bounds
    split at read
    · cases read
      exact absurd rfl character
    rename_i enough
    obtain ⟨cum, looped, read⟩ := bind_eq_ok.mp read
    obtain ⟨code, checked, read⟩ := bind_eq_ok.mp read
    cases read
    rw [Nat.add_comm 1 nbytes, take_succ_cons]
    cases taken : rest.take nbytes with
    | nil =>
      rw [taken] at enough
      exact absurd bounds.1 enough
    | cons second others =>
      rw [taken] at enough looped
      have count := take_succ_eq taken enough
      have accepted : (utf8Loop (Streams.character lead) (second :: others) >>= utf8Check) =
          .ok c := bind_eq_ok.mpr ⟨cum, looped, checked⟩
      rw [utf8Code_ok (by rw [character_toNat]; exact bounds.2.2.1) (by omega),
        character_toNat] at accepted
      obtain ⟨tails, nonzero, valid, value⟩ := accepted
      rw [value]
      rw [← count] at led
      exact ⟨.several first second others _ led tails nonzero valid, by simp [count]⟩

theorem utf8Bytes_of_form {consumed : List Byte} (form : Utf8Form consumed c.toNat)
    (rest : List Byte) :
    utf8Bytes (consumed ++ rest) = .ok (c, consumed.length) := by
  generalize value : c.toNat = code at form
  cases form with
  | single first small =>
    have same : character first = c :=
      BitVec.eq_of_toNat_eq ((character_toNat first).trans value.symm)
    rw [← top_eq_zero] at small
    simp only [singleton_append, utf8Bytes]
    rw [if_pos small, same]
    rfl
  | several first second others lead led tails nonzero checked =>
    have bounds := led.bounds
    have high : ¬ first &&& 0x80 = 0 := by
      rw [top_eq_zero]
      omega
    obtain ⟨bits, same⟩ : ∃ bits : Byte, bits.toNat = lead :=
      ⟨BitVec.ofNat 8 lead, by rw [BitVec.toNat_ofNat, Nat.mod_eq_of_lt (by omega)]⟩
    have found := (utf8Lead_ok (by omega)).mpr (same ▸ led)
    have taken : (second :: others ++ rest).take (others.length + 1) = second :: others := by
      rw [take_append_of_le_length (by simp), take_of_length_le (by simp)]
    have accepted : (utf8Loop (character bits) (second :: others) >>= utf8Check) = .ok c := by
      rw [utf8Code_ok (by rw [character_toNat]; omega) (by omega), character_toNat, same]
      exact ⟨tails, nonzero, checked, value⟩
    obtain ⟨cum, looped, checked⟩ := bind_eq_ok.mp accepted
    simp only [cons_append, utf8Bytes] at taken ⊢
    rw [if_neg high, found, ok_bind, taken, if_neg (by simp), looped, ok_bind, checked, ok_bind]
    simp only [length_cons, Nat.add_comm 1]

end Ecl.Streams
