import Ecl.Number.Boole

/- The byte functions of numlib.lsp. -/
namespace Ecl.Number

/-- A byte specifier, the pair of its size and its position. -/
structure ByteSpec where
  size : Integer
  position : Integer
  deriving DecidableEq

open Integer

def ldb (bytespec : ByteSpec) (integer : Integer) : Except ShiftError Integer := do
  let shifted ← clAsh integer bytespec.position.negate
  let top ← clAsh (makeFixnum 1) bytespec.size
  .ok (logandc2 shifted top.negate)

def maskField (bytespec : ByteSpec) (integer : Integer) : Except ShiftError Integer := do
  let byte ← ldb bytespec integer
  clAsh byte bytespec.position

def dpb (newbyte : Integer) (bytespec : ByteSpec) (integer : Integer) :
    Except ShiftError Integer := do
  let old ← maskField bytespec integer
  let top ← clAsh (makeFixnum 1) bytespec.size
  let new ← clAsh (logandc2 newbyte top.negate) bytespec.position
  .ok (logOp .xor integer [old, new])

def depositField (newbyte : Integer) (bytespec : ByteSpec) (integer : Integer) :
    Except ShiftError Integer := do
  let shifted ← clAsh newbyte bytespec.position.negate
  dpb shifted bytespec integer

namespace Integer

theorem clAsh_small {x y : Integer} {k : Int} (canonical : x.Canonical) (is : y.Is k)
    (low : mostNegativeFixnum ≤ k) (high : k ≤ mostPositiveFixnum) :
    ∃ r, clAsh x y = .ok r ∧ r.Is (Lib.shift x.value k) := by
  cases y with
  | fixnum w =>
    have shifted := clAsh_fixnum canonical w
    rw [show w.toInt = k from is.value_eq] at shifted
    exact shifted
  | bignum v =>
    have outside : v < mostNegativeFixnum ∨ mostPositiveFixnum < v := is.canonical
    rw [show v = k from is.value_eq] at outside
    omega

theorem mask_is {size : Integer} (canonical : size.Canonical) (nonneg : 0 ≤ size.value)
    (small : size.value ≤ mostPositiveFixnum) :
    ∃ top, clAsh (makeFixnum 1) size = .ok top ∧
      ∀ x : Integer, (logandc2 x top.negate).Is (x.value % 2 ^ size.value.toNat) := by
  have low := mostNegativeFixnum_eq
  obtain ⟨top, run, is⟩ := clAsh_small (x := makeFixnum 1) trivial (is_value canonical)
    (by omega) small
  refine ⟨top, run, ?_⟩
  intro x
  have negated := negate_is top
  rw [is.value_eq, Lib.shift_left nonneg, makeFixnum_one.value_eq, one_mul] at negated
  apply (logandc2_is x top.negate).of_eq
  rw [negated.value_eq, Lib.ldiff_neg_two_pow]

/-- A shift to the right by a position that is a fixnum, or above all bits of the number. -/
theorem right_is {x position : Integer} (canonical : x.Canonical) (nonneg : 0 ≤ position.value)
    (fits : position.value ≤ mostPositiveFixnum ∨
      -2 ^ position.value.toNat ≤ x.value ∧ x.value < 2 ^ position.value.toNat) :
    ∃ r, clAsh x position.negate = .ok r ∧ r.Is (x.value / 2 ^ position.value.toNat) := by
  have negated := negate_is position
  have low := mostNegativeFixnum_eq
  have high := mostPositiveFixnum_eq
  by_cases small : mostNegativeFixnum ≤ -position.value
  · obtain ⟨r, run, is⟩ := clAsh_small canonical negated small (by omega)
    refine ⟨r, run, is.of_eq ?_⟩
    rw [← Lib.shift_right, Int.toNat_of_nonneg nonneg]
  · have range := fits.resolve_left (by omega)
    cases same : position.negate with
    | fixnum w =>
      have bounds := fixnum_range w
      have value := negated.value_eq
      rw [same] at value
      rw [show w.toInt = -position.value from value] at bounds
      omega
    | bignum v =>
      have value := negated.value_eq
      rw [same] at value
      obtain ⟨r, run, is⟩ := clAsh_bignum_right (x := x) (y := v)
        (by rw [show v = -position.value from value]; omega)
      refine ⟨r, run, is.of_eq ?_⟩
      rw [Lib.div_two_pow_of_small range.1 range.2]

theorem right_returns {x position : Integer} (canonical : x.Canonical)
    (nonneg : 0 ≤ position.value) :
    ∃ r, clAsh x position.negate = .ok r ∧ r.Canonical := by
  have negated := negate_is position
  cases same : position.negate with
  | fixnum w =>
    obtain ⟨r, run, is⟩ := clAsh_fixnum canonical w
    exact ⟨r, run, is.canonical⟩
  | bignum v =>
    rw [same] at negated
    have outside : v < mostNegativeFixnum ∨ mostPositiveFixnum < v := negated.canonical
    have value : v = -position.value := negated.value_eq
    have low := mostNegativeFixnum_eq
    have high := mostPositiveFixnum_eq
    obtain ⟨r, run, is⟩ := clAsh_bignum_right (x := x) (y := v) (by omega)
    exact ⟨r, run, is.canonical⟩

theorem left_is {x position : Integer} (canonical : x.Canonical)
    (canonicalPosition : position.Canonical) (nonneg : 0 ≤ position.value)
    (small : position.value ≤ mostPositiveFixnum) :
    ∃ r, clAsh x position = .ok r ∧ r.Is (x.value * 2 ^ position.value.toNat) := by
  have low := mostNegativeFixnum_eq
  obtain ⟨r, run, is⟩ := clAsh_small canonical (is_value canonicalPosition) (by omega) small
  exact ⟨r, run, is.of_eq (Lib.shift_left nonneg)⟩

theorem left_large {x position : Integer} (canonical : x.Canonical)
    (large : mostPositiveFixnum < position.value) :
    clAsh x position = if x.value = 0 then .ok x else .error .insufficientMemory := by
  have high := mostPositiveFixnum_eq
  cases position with
  | fixnum w =>
    have bounds := fixnum_range w
    rw [show (fixnum w).value = w.toInt from rfl] at large
    omega
  | bignum v =>
    rw [show (bignum v).value = v from rfl] at large
    exact clAsh_bignum_left canonical (by omega)

end Integer

section Laws

variable {s p n v : Integer} (canonicalS : s.Canonical) (canonicalP : p.Canonical)
  (canonicalN : n.Canonical) (canonicalV : v.Canonical) (nonnegS : 0 ≤ s.value)
  (nonnegP : 0 ≤ p.value)

include canonicalS canonicalN nonnegS nonnegP in
theorem ldb_is (small : s.value ≤ mostPositiveFixnum)
    (fits : p.value ≤ mostPositiveFixnum ∨
      -2 ^ p.value.toNat ≤ n.value ∧ n.value < 2 ^ p.value.toNat) :
    ∃ f, ldb ⟨s, p⟩ n = .ok f ∧ f.Is (Lib.field n.value s.value.toNat p.value.toNat) := by
  obtain ⟨shifted, runShifted, isShifted⟩ := right_is canonicalN nonnegP fits
  obtain ⟨top, runTop, isMasked⟩ := mask_is canonicalS nonnegS small
  refine ⟨logandc2 shifted top.negate, ?_, (isMasked shifted).of_eq ?_⟩
  · rw [ldb, runShifted]
    show (clAsh (makeFixnum 1) s >>= _) = _
    rw [runTop]
    rfl
  · rw [isShifted.value_eq]
    rfl

include canonicalS canonicalP canonicalN nonnegS nonnegP in
theorem maskField_is (smallS : s.value ≤ mostPositiveFixnum)
    (smallP : p.value ≤ mostPositiveFixnum) :
    ∃ m, maskField ⟨s, p⟩ n = .ok m ∧
      m.Is (Lib.placed (n.value / 2 ^ p.value.toNat) s.value.toNat p.value.toNat) := by
  obtain ⟨f, runF, isF⟩ := ldb_is canonicalS canonicalN nonnegS nonnegP smallS (.inl smallP)
  obtain ⟨m, runM, isM⟩ := left_is isF.canonical canonicalP nonnegP smallP
  refine ⟨m, ?_, isM.of_eq ?_⟩
  · rw [maskField, runF]
    exact runM
  · rw [isF.value_eq]
    rfl

include canonicalS canonicalP canonicalN nonnegS nonnegP in
theorem dpb_is (smallS : s.value ≤ mostPositiveFixnum) (smallP : p.value ≤ mostPositiveFixnum) :
    ∃ d, dpb v ⟨s, p⟩ n = .ok d ∧
      d.Is (Lib.deposit v.value s.value.toNat p.value.toNat n.value) := by
  obtain ⟨old, runOld, isOld⟩ :=
    maskField_is canonicalS canonicalP canonicalN nonnegS nonnegP smallS smallP
  obtain ⟨top, runTop, isMasked⟩ := mask_is canonicalS nonnegS smallS
  obtain ⟨new, runNew, isNew⟩ := left_is (isMasked v).canonical canonicalP nonnegP smallP
  refine ⟨logOp .xor n [old, new], ?_, ?_⟩
  · rw [dpb, runOld]
    show (clAsh (makeFixnum 1) s >>= _) = _
    rw [runTop]
    show (clAsh (logandc2 v top.negate) p >>= _) = _
    rw [runNew]
    rfl
  · apply (logxor_is (boole .xor n old) new).of_eq
    rw [(logxor_is n old).value_eq, isOld.value_eq, isNew.value_eq, (isMasked v).value_eq]
    rfl

end Laws

/-- What the byte functions do with the byte of s bits from position p, where n is the
number that holds it and v the one put there. -/
structure ByteLaws (s p n v : Integer) : Prop where
  extracted : ∃ f, ldb ⟨s, p⟩ n = .ok f ∧
    f.Is (Int.ldiff (Lib.shift n.value (-p.value)) (-Lib.shift 1 s.value)) ∧
    maskField ⟨s, p⟩ n = clAsh f p ∧ dpb f ⟨s, p⟩ n = .ok n
  masked : ∃ m, maskField ⟨s, p⟩ n = .ok m ∧
    m.Is (Lib.shift (Int.ldiff (Lib.shift n.value (-p.value)) (-Lib.shift 1 s.value)) p.value) ∧
    ∀ j : Nat, m.value.testBit j =
      (decide (p.value ≤ j ∧ j < p.value + s.value) && n.value.testBit j)
  deposited : ∃ d, dpb v ⟨s, p⟩ n = .ok d ∧
    d.Is (Int.xor (Int.xor n.value
        (Lib.shift (Int.ldiff (Lib.shift n.value (-p.value)) (-Lib.shift 1 s.value)) p.value))
      (Lib.shift (Int.ldiff v.value (-Lib.shift 1 s.value)) p.value)) ∧
    (∃ w, ldb ⟨s, p⟩ d = .ok w ∧ w.Is (v.value % 2 ^ s.value.toNat)) ∧
    ∀ j : Nat, d.value.testBit j =
      if p.value ≤ j ∧ j < p.value + s.value then v.value.testBit (j - p.value.toNat)
      else n.value.testBit j
  merged : ∃ m, depositField v ⟨s, p⟩ n = .ok m ∧ m.Canonical ∧
    (∃ f, ldb ⟨s, p⟩ v = .ok f ∧ dpb f ⟨s, p⟩ n = .ok m) ∧
    ∀ j : Nat, m.value.testBit j =
      if p.value ≤ j ∧ j < p.value + s.value then v.value.testBit j else n.value.testBit j

section Laws

variable {s p n v : Integer} (canonicalS : s.Canonical) (canonicalP : p.Canonical)
  (canonicalN : n.Canonical) (canonicalV : v.Canonical) (nonnegS : 0 ≤ s.value)
  (nonnegP : 0 ≤ p.value)

include nonnegS nonnegP in
theorem ldiff_shift (a : Int) :
    Int.ldiff (Lib.shift a (-p.value)) (-Lib.shift 1 s.value) =
      Lib.field a s.value.toNat p.value.toNat := by
  have position : Lib.shift a (-p.value) = a / 2 ^ p.value.toNat := by
    rw [← Lib.shift_right, Int.toNat_of_nonneg nonnegP]
  rw [position, Lib.shift_left nonnegS, one_mul, Lib.ldiff_neg_two_pow]
  rfl

include canonicalS canonicalP canonicalN canonicalV nonnegS nonnegP in
theorem byteLaws_of_small (smallS : s.value ≤ mostPositiveFixnum)
    (smallP : p.value ≤ mostPositiveFixnum) : ByteLaws s p n v := by
  have fromBelow (m : Integer) (canonical : m.Canonical) :=
    ldb_is (n := m) (p := p) canonicalS canonical nonnegS nonnegP smallS (.inl smallP)
  have put (new : Integer) := dpb_is (v := new) canonicalS canonicalP canonicalN nonnegS nonnegP
    smallS smallP
  have inside (j : Nat) : (p.value ≤ j ∧ j < p.value + s.value) ↔
      (p.value.toNat ≤ j ∧ j < p.value.toNat + s.value.toNat) := by omega
  have composed (a : Int) := ldiff_shift nonnegS nonnegP a
  obtain ⟨f, runF, isF⟩ := fromBelow n canonicalN
  refine ⟨?_, ?_, ?_, ?_⟩
  · obtain ⟨d, runD, isD⟩ := put f
    rw [isF.value_eq, Lib.deposit_field] at isD
    refine ⟨f, runF, isF.of_eq (composed _).symm, ?_, ?_⟩
    · rw [maskField, runF]
      rfl
    · rw [runD, isD.unique (is_value canonicalN)]
  · obtain ⟨m, runM, isM⟩ := maskField_is canonicalS canonicalP canonicalN nonnegS nonnegP smallS
      smallP
    refine ⟨m, runM, isM.of_eq ?_, ?_⟩
    · rw [composed, Lib.shift_left nonnegP]
      rfl
    · intro j
      rw [isM.value_eq, Lib.testBit_placed, Lib.testBit_div_two_pow]
      simp only [inside]
      by_cases within : p.value.toNat ≤ j ∧ j < p.value.toNat + s.value.toNat
      · rw [Nat.sub_add_cancel within.1]
      · simp only [within, decide_false, Bool.false_and]
  · obtain ⟨d, runD, isD⟩ := put v
    obtain ⟨w, runW, isW⟩ := fromBelow d isD.canonical
    refine ⟨d, runD, isD.of_eq ?_, ⟨w, runW, isW.of_eq ?_⟩, ?_⟩
    · rw [composed, Lib.shift_left nonnegP, Lib.shift_left nonnegP, Lib.shift_left nonnegS, one_mul,
        Lib.ldiff_neg_two_pow]
      rfl
    · rw [isD.value_eq, Lib.field_deposit]
    · intro j
      rw [isD.value_eq, Lib.testBit_deposit]
      simp only [inside]
  · obtain ⟨shifted, runShifted, isShifted⟩ := right_is canonicalV nonnegP (.inl smallP)
    obtain ⟨g, runG, isG⟩ := fromBelow v canonicalV
    obtain ⟨m, runM, isM⟩ := put shifted
    obtain ⟨m', runM', isM'⟩ := put g
    -- The byte of v and all of v from the position on are put in place alike.
    have alike : Lib.deposit g.value s.value.toNat p.value.toNat n.value =
        Lib.deposit shifted.value s.value.toNat p.value.toNat n.value := by
      apply Lib.testBit_ext
      intro j
      rw [Lib.testBit_deposit, Lib.testBit_deposit, isG.value_eq, isShifted.value_eq,
        Lib.testBit_field, Lib.testBit_div_two_pow]
      by_cases within : p.value.toNat ≤ j ∧ j < p.value.toNat + s.value.toNat
      · have below : j - p.value.toNat < s.value.toNat := by omega
        simp only [within, and_self, if_true, below, decide_true, Bool.true_and]
      · rw [if_neg within, if_neg within]
    refine ⟨m, ?_, isM.canonical, ⟨g, runG, ?_⟩, ?_⟩
    · rw [depositField, runShifted]
      exact runM
    · rw [runM', (isM'.of_eq alike).unique isM]
    · intro j
      rw [isM.value_eq, Lib.testBit_deposit, isShifted.value_eq, Lib.testBit_div_two_pow]
      simp only [inside]
      by_cases within : p.value.toNat ≤ j ∧ j < p.value.toNat + s.value.toNat
      · rw [if_pos within, if_pos within, Nat.sub_add_cancel within.1]
      · rw [if_neg within, if_neg within]

/-- No byte has the size of a bignum. -/
def Refused (s p n v : Integer) : Prop :=
  ldb ⟨s, p⟩ n = .error .insufficientMemory ∧
  maskField ⟨s, p⟩ n = .error .insufficientMemory ∧
  dpb v ⟨s, p⟩ n = .error .insufficientMemory ∧
  depositField v ⟨s, p⟩ n = .error .insufficientMemory

include canonicalN canonicalV nonnegP in
theorem refused_of_large (large : mostPositiveFixnum < s.value) : Refused s p n v := by
  obtain ⟨shifted, runShifted, _⟩ := right_returns canonicalN nonnegP
  obtain ⟨shiftedV, runV, _⟩ := right_returns canonicalV nonnegP
  have top : clAsh (makeFixnum 1) s = .error .insufficientMemory := by
    rw [left_large (x := makeFixnum 1) trivial large, if_neg (by decide)]
  have noLdb : ldb ⟨s, p⟩ n = .error .insufficientMemory := by
    rw [ldb, runShifted]
    show (clAsh (makeFixnum 1) s >>= _) = _
    rw [top]
    rfl
  have noMask : maskField ⟨s, p⟩ n = .error .insufficientMemory := by
    rw [maskField, noLdb]
    rfl
  have noDpb (new : Integer) : dpb new ⟨s, p⟩ n = .error .insufficientMemory := by
    rw [dpb, noMask]
    rfl
  refine ⟨noLdb, noMask, noDpb v, ?_⟩
  rw [depositField, runV]
  exact noDpb shiftedV

/-- A byte whose position is a bignum, above all bits of the numbers: only zeros are
moved there. -/
structure AboveAll (s p n v : Integer) : Prop where
  extracted : ∃ f, ldb ⟨s, p⟩ n = .ok f ∧
    f.Is (Int.ldiff (Lib.shift n.value (-p.value)) (-Lib.shift 1 s.value))
  masked : maskField ⟨s, p⟩ n =
    if Lib.field n.value s.value.toNat p.value.toNat = 0 then .ok (makeFixnum 0)
    else .error .insufficientMemory
  deposited : dpb v ⟨s, p⟩ n =
    if Lib.field n.value s.value.toNat p.value.toNat = 0 ∧ v.value % 2 ^ s.value.toNat = 0 then
      .ok n
    else .error .insufficientMemory
  merged : depositField v ⟨s, p⟩ n =
    if Lib.field n.value s.value.toNat p.value.toNat = 0 ∧
        Lib.field v.value s.value.toNat p.value.toNat = 0 then .ok n
    else .error .insufficientMemory

include canonicalS canonicalN canonicalV nonnegS nonnegP in
theorem aboveAll_of_large (smallS : s.value ≤ mostPositiveFixnum)
    (large : mostPositiveFixnum < p.value)
    (fitsN : -2 ^ p.value.toNat ≤ n.value ∧ n.value < 2 ^ p.value.toNat)
    (fitsV : -2 ^ p.value.toNat ≤ v.value ∧ v.value < 2 ^ p.value.toNat) :
    AboveAll s p n v := by
  obtain ⟨f, runF, isF⟩ := ldb_is canonicalS canonicalN nonnegS nonnegP smallS (.inr fitsN)
  obtain ⟨top, runTop, isMasked⟩ := mask_is canonicalS nonnegS smallS
  obtain ⟨shifted, runShifted, isShifted⟩ := right_is canonicalV nonnegP (.inr fitsV)
  have masked : maskField ⟨s, p⟩ n =
      if Lib.field n.value s.value.toNat p.value.toNat = 0 then .ok (makeFixnum 0)
      else .error .insufficientMemory := by
    rw [maskField, runF]
    show clAsh f p = _
    rw [left_large isF.canonical large, isF.value_eq]
    split
    · rename_i none
      rw [(isF.of_eq none).unique makeFixnum_zero]
    · rfl
  have put (new : Integer) : dpb new ⟨s, p⟩ n =
      if Lib.field n.value s.value.toNat p.value.toNat = 0 ∧
          new.value % 2 ^ s.value.toNat = 0 then .ok n
      else .error .insufficientMemory := by
    have isNew := isMasked new
    rw [dpb, masked]
    by_cases none : Lib.field n.value s.value.toNat p.value.toNat = 0
    · rw [if_pos none]
      show (clAsh (makeFixnum 1) s >>= _) = _
      rw [runTop]
      show (clAsh (logandc2 new top.negate) p >>= _) = _
      rw [left_large isNew.canonical large, isNew.value_eq]
      by_cases noNew : new.value % 2 ^ s.value.toNat = 0
      · rw [if_pos noNew, if_pos ⟨none, noNew⟩, (isNew.of_eq noNew).unique makeFixnum_zero]
        have same (x : Integer) : (boole .xor x (makeFixnum 0)).Is x.value := by
          apply (logxor_is x (makeFixnum 0)).of_eq
          apply Lib.testBit_ext
          intro j
          rw [makeFixnum_zero.value_eq, Int.testBit_lxor, Lib.testBit_zero, Bool.xor_false]
        have twice := (same (boole .xor n (makeFixnum 0))).of_eq (same n).value_eq
        exact congrArg Except.ok (twice.unique (is_value canonicalN))
      · rw [if_neg noNew, if_neg (mt And.right noNew)]
        rfl
    · rw [if_neg none, if_neg (mt And.left none)]
      rfl
  refine ⟨⟨f, runF, isF.of_eq (ldiff_shift nonnegS nonnegP _).symm⟩, masked, put v, ?_⟩
  rw [depositField, runShifted]
  show dpb shifted ⟨s, p⟩ n = _
  rw [put shifted, isShifted.value_eq]
  rfl

end Laws

/-- The byte functions obey the laws of bytes where the size and the position are fixnums;
they refuse a size that is a bignum, and move only zeros to a position that is one. -/
theorem byte_fields {s p n v : Integer} (canonicalS : s.Canonical) (canonicalP : p.Canonical)
    (canonicalN : n.Canonical) (canonicalV : v.Canonical) (nonnegS : 0 ≤ s.value)
    (nonnegP : 0 ≤ p.value) :
    (s.value ≤ mostPositiveFixnum → p.value ≤ mostPositiveFixnum → ByteLaws s p n v) ∧
    (mostPositiveFixnum < s.value → Refused s p n v) ∧
    (s.value ≤ mostPositiveFixnum → mostPositiveFixnum < p.value →
      -2 ^ p.value.toNat ≤ n.value ∧ n.value < 2 ^ p.value.toNat →
      -2 ^ p.value.toNat ≤ v.value ∧ v.value < 2 ^ p.value.toNat → AboveAll s p n v) :=
  ⟨byteLaws_of_small canonicalS canonicalP canonicalN canonicalV nonnegS nonnegP,
    refused_of_large canonicalN canonicalV nonnegP,
    aboveAll_of_large canonicalS canonicalN canonicalV nonnegS nonnegP⟩

theorem byte_fields_eight_at_four :
    ByteLaws (makeFixnum 8) (makeFixnum 4) (.bignum (-2 ^ 70)) (makeFixnum (-1)) :=
  (byte_fields (s := makeFixnum 8) (p := makeFixnum 4) (n := .bignum (-2 ^ 70))
    (v := makeFixnum (-1)) trivial trivial (by decide) trivial (by decide) (by decide)).1
    (by decide) (by decide)

/-- What is put in a byte is not read back when the size is a bignum. -/
theorem bignum_size_refused :
    ¬ ∀ s p n v : Integer, s.Canonical → p.Canonical → n.Canonical → v.Canonical →
      0 ≤ s.value → 0 ≤ p.value →
      ∃ d w, dpb v ⟨s, p⟩ n = .ok d ∧ ldb ⟨s, p⟩ d = .ok w ∧
        w.Is (v.value % 2 ^ s.value.toNat) := by
  intro all
  obtain ⟨d, w, run, _⟩ := all (.bignum (2 ^ 61)) (makeFixnum 0) (makeFixnum 0) (makeFixnum 0)
    (by decide) trivial trivial trivial (by decide) (by decide)
  have refused : dpb (makeFixnum 0) ⟨.bignum (2 ^ 61), makeFixnum 0⟩ (makeFixnum 0) =
      .error .insufficientMemory := by decide +kernel
  rw [refused] at run
  cases run

end Ecl.Number
