import Mathlib.Data.List.Basic

/- Masks: lists of marks, some of which stand for any list and the others for one element. -/
namespace Wild

open List

variable {α β : Type}

/-- What is left when every star of the mask becomes a list and every other mark an element. -/
inductive Matches (star : β → Prop) (item : α → β → Prop) : List α → List β → Prop where
  | nil : Matches star item [] []
  | star {m : β} {a : List α} {mask : List β} (skipped : List α) :
      star m → Matches star item a mask → Matches star item (skipped ++ a) (m :: mask)
  | item {x : α} {m : β} {a : List α} {mask : List β} :
      ¬star m → item x m → Matches star item a mask → Matches star item (x :: a) (m :: mask)

variable {star : β → Prop} {item : α → β → Prop} {m m' : β} {x : α} {a : List α} {mask : List β}

theorem matches_nil_iff : Matches star item a [] ↔ a = [] := by
  constructor
  · intro matched
    cases matched
    rfl
  · intro empty
    subst empty
    exact .nil

theorem matches_star_iff (isStar : star m) :
    Matches star item a (m :: mask) ↔ ∃ n ≤ a.length, Matches star item (a.drop n) mask := by
  constructor
  · intro matched
    cases matched with
    | star skipped _ rest =>
      refine ⟨skipped.length, ?_, ?_⟩
      · rw [length_append]
        omega
      · rw [drop_left]
        exact rest
    | item notStar => exact absurd isStar notStar
  · intro ⟨n, _, rest⟩
    have matched := Matches.star (a.take n) isStar rest
    rw [take_append_drop] at matched
    exact matched

theorem matches_item_iff (notStar : ¬star m) :
    Matches star item (x :: a) (m :: mask) ↔ item x m ∧ Matches star item a mask := by
  constructor
  · intro matched
    generalize whole : x :: a = l at matched
    cases matched with
    | star _ isStar => exact absurd isStar notStar
    | item _ one rest =>
      cases whole
      exact ⟨one, rest⟩
  · intro ⟨one, rest⟩
    exact .item notStar one rest

theorem not_matches_nil (notStar : ¬star m) : ¬Matches star item [] (m :: mask) := by
  intro matched
  generalize whole : ([] : List α) = l at matched
  cases matched with
  | star _ isStar => exact notStar isStar
  | item => cases whole

theorem matches_star_last (isStar : star m) : Matches star item a [m] :=
  (matches_star_iff isStar).mpr ⟨a.length, Nat.le_refl _, by rw [drop_length]; exact .nil⟩

theorem matches_star_star (isStar : star m) (isStar' : star m') :
    Matches star item a (m :: m' :: mask) ↔ Matches star item a (m' :: mask) := by
  constructor
  · intro matched
    obtain ⟨n, bound, rest⟩ := (matches_star_iff isStar).mp matched
    obtain ⟨n', bound', rest'⟩ := (matches_star_iff isStar').mp rest
    rw [length_drop] at bound'
    rw [drop_drop] at rest'
    exact (matches_star_iff isStar').mpr ⟨n + n', by omega, rest'⟩
  · intro matched
    exact (matches_star_iff isStar).mpr ⟨0, Nat.zero_le _, matched⟩

theorem Matches.split {front : List β} (matched : Matches star item a (front ++ mask)) :
    ∃ b c, a = b ++ c ∧ Matches star item b front ∧ Matches star item c mask := by
  induction front generalizing a with
  | nil => exact ⟨[], a, rfl, .nil, matched⟩
  | cons m front ih =>
    cases matched with
    | star skipped isStar rest =>
      obtain ⟨b, c, rfl, first, second⟩ := ih rest
      exact ⟨skipped ++ b, c, (append_assoc _ _ _).symm, .star skipped isStar first, second⟩
    | item notStar one rest =>
      obtain ⟨b, c, rfl, first, second⟩ := ih rest
      exact ⟨_ :: b, c, rfl, .item notStar one first, second⟩

theorem Matches.trans {a b mask : List β} (first : Matches star Eq a b)
    (second : Matches star Eq b mask) :
    Matches star Eq a mask := by
  induction second generalizing a with
  | nil => exact first
  | star skipped isStar _ ih =>
    obtain ⟨s, t, rfl, -, rest⟩ := first.split
    exact .star s isStar (ih rest)
  | item notStar one _ ih =>
    cases one
    cases first with
    | star _ isStar => exact absurd isStar notStar
    | item _ one rest => exact .item notStar one (ih rest)

end Wild
