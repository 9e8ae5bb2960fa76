import Ecl.Types.Rays

/- Intervals of integers are registered, as a ray without the ray above it. The tag of the ray
above is computed first, so that the other ray must not take a part of it. -/
namespace Ecl.Types

open Ecl.Lib List

variable {db : TypeState} {n : Nat} {cell : Object → Nat}

/-- The ray above an interval. -/
def registerHigh (high : Bound) (db : TypeState) : Int × TypeState :=
  match high.next with
  | none => (0, db)
  | some b => registerElementaryInterval (some b) db

/-- An interval with a high bound is registered too. -/
def pushInterval (interval : Interval) (tag : Int) (db : TypeState) : TypeState :=
  match interval with
  | .between low high => if high = .star then db else db.pushType Key.typep (.between low high) tag
  | _ => db

theorem registerIntervalType_eq (interval : Interval) (db : TypeState) :
    registerIntervalType interval db =
      let high := registerHigh interval.high db
      let low := registerElementaryInterval interval.low.first high.2
      let tag := Int.ldiff low.1 high.1
      (tag, pushInterval interval tag low.2) := by
  unfold registerIntervalType registerHigh pushInterval
  cases interval with
  | all => rfl
  | above low => rfl
  | between low high =>
    dsimp only
    split <;> rfl

def Interval.bounds (interval : Interval) : List (Option Int) :=
  interval.low.first :: (interval.high.next.map some).toList

theorem Interval.next_mem {interval : Interval} {b : Int} (next : interval.high.next = some b) :
    some b ∈ interval.bounds := by
  rw [bounds, next]
  exact mem_cons_of_mem _ mem_cons_self

/-- The upper end is not below the lower one, or the ray of the lower one is registered. -/
def Interval.Upright (interval : Interval) (known : Option Int → Prop) : Prop :=
  ∀ b, interval.high.next = some b →
    boundsLe interval.low.first (some b) = true ∨ known interval.low.first

theorem registerHigh_inv (inv : Inv db n cell) (high : Bound) :
    ∃ n' cell', Inv (registerHigh high db).2 n' cell' ∧
      Denotes n' cell' (registerHigh high db).1 high.beyond := by
  unfold registerHigh Bound.beyond
  cases high.next with
  | none => exact ⟨n, cell, inv, Denotes.none n cell⟩
  | some b =>
    obtain ⟨n', cell', after, denotes, -⟩ := registerElementaryInterval_inv inv (some b)
    exact ⟨n', cell', after, denotes⟩

theorem registerHigh_grows (high : Bound) (db : TypeState) :
    Grows db (registerHigh high db).2 ∧
      ∀ b, high.next = some b → .ray (some b) ∈ (registerHigh high db).2.keys := by
  unfold registerHigh
  cases next : high.next with
  | none => exact ⟨Grows.refl db, fun _ eq => nomatch eq⟩
  | some b =>
    have ⟨grows, isIn⟩ := registerElementaryInterval_grows (some b) db
    exact ⟨grows, fun _ eq => Option.some.inj eq ▸ isIn⟩

theorem Closed.between {db : TypeState} (closed : Closed db) {low high : Bound} {tag : Int}
    (first : .ray low.first ∈ db.keys)
    (next : ∀ b, high.next = some b → .ray (some b) ∈ db.keys) :
    Closed (db.pushType Key.typep (.between low high) tag) where
  objects := closed.objects
  low low' high' isIn := by
    refine mem_cons_of_mem _ ?_
    cases mem_cons.mp isIn with
    | inl head => exact (Key.between.inj head).1 ▸ first
    | inr tail => exact closed.low low' high' tail
  high low' high' b isIn eq := by
    refine mem_cons_of_mem _ ?_
    cases mem_cons.mp isIn with
    | inl head => exact next b ((Key.between.inj head).2 ▸ eq)
    | inr tail => exact closed.high low' high' b tail eq
  integer isIn := by
    cases mem_cons.mp isIn with
    | inl head => cases head
    | inr tail => exact mem_cons_of_mem _ (closed.integer tail)
  keyword isIn := by
    cases mem_cons.mp isIn with
    | inl head => cases head
    | inr tail => exact mem_cons_of_mem _ (closed.keyword tail)

theorem pushInterval_grows (interval : Interval) (tag : Int) (db : TypeState) :
    Grows db (pushInterval interval tag db) ∧
      ∀ low high, interval = .between low high → high ≠ .star →
        .between low high ∈ (pushInterval interval tag db).keys := by
  cases interval with
  | all => exact ⟨Grows.refl db, nofun⟩
  | above low => exact ⟨Grows.refl db, nofun⟩
  | between low high =>
    unfold pushInterval
    dsimp only
    split
    next star =>
      refine ⟨Grows.refl db, fun low' high' eq ne => absurd star ?_⟩
      rw [(Interval.between.inj eq).2]
      exact ne
    next =>
      refine ⟨pushType_grows _ _, fun low' high' eq _ => ?_⟩
      rw [(Interval.between.inj eq).1, (Interval.between.inj eq).2]
      exact mem_cons_self

theorem registerIntervalType_grows (interval : Interval) (db : TypeState) :
    Grows db (registerIntervalType interval db).2 ∧
      (∀ b ∈ interval.bounds, .ray b ∈ (registerIntervalType interval db).2.keys) ∧
      ∀ low high, interval = .between low high → high ≠ .star →
        .between low high ∈ (registerIntervalType interval db).2.keys := by
  have ⟨growsHigh, high⟩ := registerHigh_grows interval.high db
  have ⟨growsLow, low⟩ :=
    registerElementaryInterval_grows interval.low.first (registerHigh interval.high db).2
  rw [registerIntervalType_eq]
  dsimp only
  have ⟨growsPush, between⟩ := pushInterval_grows interval
    (Int.ldiff (registerElementaryInterval interval.low.first (registerHigh interval.high db).2).1
      (registerHigh interval.high db).1)
    (registerElementaryInterval interval.low.first (registerHigh interval.high db).2).2
  refine ⟨growsHigh.trans (growsLow.trans growsPush), fun b isIn => growsPush.keys ?_, between⟩
  cases mem_cons.mp isIn with
  | inl head => exact head ▸ low
  | inr tail =>
    cases next : interval.high.next with
    | none =>
      rw [next] at tail
      cases tail
    | some b' =>
      rw [next] at tail
      rw [mem_singleton.mp tail]
      exact growsLow.keys (high b' next)

theorem registerIntervalType_inv (inv : Inv db n cell) {interval : Interval}
    (upright : interval.Upright fun b => .ray b ∈ db.keys) :
    ∃ n' cell', Inv (registerIntervalType interval db).2 n' cell' ∧
      Denotes n' cell' (registerIntervalType interval db).1 fun x => interval.typep x := by
  obtain ⟨n1, cell1, inv1, denotes1⟩ := registerHigh_inv inv interval.high
  have ⟨growsHigh, high⟩ := registerHigh_grows interval.high db
  rw [registerIntervalType_eq]
  dsimp only
  generalize registerHigh interval.high db = first at inv1 denotes1 growsHigh high
  obtain ⟨tagHigh, db1⟩ := first
  obtain ⟨n2, cell2, inv2, denotes2, keeps⟩ :=
    registerElementaryInterval_inv inv1 interval.low.first
  have ⟨growsLow, isIn⟩ := registerElementaryInterval_grows interval.low.first db1
  have denotesHigh : Denotes n2 cell2 tagHigh interval.high.beyond := by
    cases next : interval.high.next with
    | none =>
      have none : ∀ x, interval.high.beyond x = false := fun x => by rw [Bound.beyond, next]
      have zero : tagHigh = 0 := by
        rw [Ecl.Lib.eq_zero_iff]
        intro j
        obtain ⟨x, -, bit⟩ := denotes1.exists_bit inv1.cells j
        exact bit.trans (none x)
      rw [zero]
      exact (Denotes.none n2 cell2).congr fun x => (none x).symm
    | some b =>
      have ray : ∀ x, (Key.ray (some b)).typep x = interval.high.beyond x :=
        fun x => by rw [Bound.beyond, next]
      have le := (upright b next).imp_right fun known => growsHigh.keys known
      exact (keeps (some b) tagHigh (high b next) le
        (denotes1.congr fun x => (ray x).symm)).congr ray
  have denotes := (denotes2.ldiff denotesHigh).congr fun x => (interval.typep_eq x).symm
  refine ⟨n2, cell2, ?_, denotes⟩
  cases interval with
  | all => exact inv2
  | above low => exact inv2
  | between low high' =>
    unfold pushInterval
    dsimp only
    split
    · exact inv2
    · exact inv2.push (.between low high') denotes
        (inv2.toClosed.between isIn fun b next => growsLow.keys (high b next))

end Ecl.Types
