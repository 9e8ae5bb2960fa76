import Ecl.Lib.Wild

/- Matching of pathname components and directories against masks, of pathname.d. -/
namespace Ecl.Pathname

open List Bool

/-- What stands in a field or a directory of a pathname. -/
inductive Component where
  | null
  | wild
  | wildInferiors
  | absolute
  | relative
  | up
  | back
  | newest
  | unspecific
  | error
  | string (characters : List Char)
  | integer (n : Int)
  deriving DecidableEq

/-- ecl_stringp. -/
def Component.isString : Component → Bool
  | .string _ => true
  | _ => false

def Component.characters : Component → List Char
  | .string characters => characters
  | _ => []

/-- The end of a run of asterisks. -/
def skipAsterisks (p : List Char) (next : Nat) : Nat :=
  if next < p.length ∧ p[next]? = some '*' then skipAsterisks p (next + 1) else next
termination_by p.length - next

theorem le_skipAsterisks (p : List Char) (next : Nat) : next ≤ skipAsterisks p next := by
  fun_induction skipAsterisks p next with
  | case1 next _ ih => omega
  | case2 => omega

/-- The loop over the places of the string at which the rest may match. -/
def tryFrom (rest : Nat → Bool) (ls j : Nat) : Bool :=
  if j < ls then
    if rest j then true else tryFrom rest ls (j + 1)
  else false
termination_by ls - j

def doPathItemMatch (s : List Char) (j : Nat) (p : List Char) (i : Nat) : Bool :=
  if i < p.length then
    if p[i]? = some '*' then
      let next := skipAsterisks p (i + 1)
      if next = p.length then true
      else tryFrom (fun j => doPathItemMatch s j p next) s.length j
    else if j ≥ s.length ∨ p[i]? ≠ s[j]? then false
    else doPathItemMatch s (j + 1) p (i + 1)
  else decide (j ≥ s.length)
termination_by p.length - i
decreasing_by
  · have := le_skipAsterisks p (i + 1)
    omega
  · omega

/-- FEerror of a mask that is not supported. -/
abbrev Checked (τ : Type) := Except Component τ

def pathItemMatch (a mask : Component) : Checked Bool :=
  if mask = .wild then .ok true
  else if !a.isString ∨ mask = .null then .ok (a = mask)
  else if !mask.isString then .error mask
  else .ok (doPathItemMatch a.characters 0 mask.characters 0)

/-- The loop over the tails of the directory. -/
def tryTails (rest : List Component → Checked Bool) : List Component → Checked Bool
  | [] => .ok false
  | x :: a => do
      if ← rest (x :: a) then return true
      tryTails rest a

def pathListMatch (a : List Component) : List Component → Checked Bool
  | [] => .ok a.isEmpty
  | itemMask :: mask =>
    if itemMask = .wildInferiors then
      if mask.isEmpty then .ok true
      else tryTails (fun a => pathListMatch a mask) a
    else match a with
      | [] =>
        if itemMask ≠ .absolute ∧ itemMask ≠ .relative then .ok false
        else pathListMatch [] mask
      | x :: a => do
          if ← pathItemMatch x itemMask then pathListMatch a mask else return false

/-- Every asterisk of the pattern becomes some string. -/
def StringMatches (s p : List Char) : Prop := Wild.Matches (· = '*') (fun c m => c = m) s p

variable {p : List Char}

theorem stringMatches_star_iff {s : List Char} :
    StringMatches s ('*' :: p) ↔ ∃ n ≤ s.length, StringMatches (s.drop n) p :=
  Wild.matches_star_iff rfl

theorem stringMatches_char_iff {c m : Char} {s : List Char} (literal : m ≠ '*') :
    StringMatches (c :: s) (m :: p) ↔ c = m ∧ StringMatches s p :=
  Wild.matches_item_iff literal

theorem stringMatches_refl : ∀ s, StringMatches s s
  | [] => .nil
  | c :: s => by
    by_cases isStar : c = '*'
    · exact .star [c] isStar (stringMatches_refl s)
    · exact .item isStar rfl (stringMatches_refl s)

theorem not_stringMatches_nil {m : Char} (literal : m ≠ '*') : ¬StringMatches [] (m :: p) :=
  Wild.not_matches_nil literal

/-- One component against one other than :WILD-INFERIORS. -/
def ItemMatches (a mask : Component) : Prop :=
  mask = .wild ∨ (a.isString = false ∧ a = mask) ∨
    ∃ s p, a = .string s ∧ mask = .string p ∧ StringMatches s p

/-- Every :WILD-INFERIORS of the mask becomes some components. -/
def ListMatches (a mask : List Component) : Prop :=
  Wild.Matches (· = .wildInferiors) ItemMatches a mask

theorem tryFrom_iff (rest : Nat → Bool) (ls j : Nat) :
    tryFrom rest ls j = true ↔ ∃ k, j ≤ k ∧ k < ls ∧ rest k = true := by
  fun_induction tryFrom rest ls j with
  | case1 j inside here =>
    exact ⟨fun _ => ⟨j, Nat.le_refl j, inside, here⟩, fun _ => rfl⟩
  | case2 j inside here ih =>
    rw [ih]
    constructor
    · intro ⟨k, low, high, later⟩
      exact ⟨k, by omega, high, later⟩
    · intro ⟨k, low, high, later⟩
      by_cases first : k = j
      · subst first
        exact absurd later here
      · exact ⟨k, by omega, high, later⟩
  | case3 j outside =>
    constructor
    · intro never
      cases never
    · intro ⟨k, low, high, _⟩
      omega

theorem drop_of_getElem? {α : Type} {l : List α} {i : Nat} {x : α} (found : l[i]? = some x) :
    l.drop i = x :: l.drop (i + 1) := by
  obtain ⟨bound, element⟩ := List.getElem?_eq_some_iff.mp found
  rw [drop_eq_getElem_cons bound, element]

theorem skipAsterisks_spec (p : List Char) (next : Nat) : next ≤ p.length →
    skipAsterisks p next ≤ p.length ∧ p[skipAsterisks p next]? ≠ some '*' ∧
      ∀ t, StringMatches t ('*' :: p.drop next) ↔
        StringMatches t ('*' :: p.drop (skipAsterisks p next)) := by
  fun_induction skipAsterisks p next with
  | case1 next more ih =>
    intro _
    obtain ⟨bound, last, same⟩ := ih (by omega)
    refine ⟨bound, last, fun t => ?_⟩
    rw [← same t, drop_of_getElem? more.2]
    exact Wild.matches_star_star rfl rfl
  | case2 next stop =>
    intro bound
    refine ⟨bound, fun star => ?_, fun _ => Iff.rfl⟩
    obtain ⟨inside, _⟩ := List.getElem?_eq_some_iff.mp star
    exact stop ⟨inside, star⟩

theorem doPathItemMatch_iff (s : List Char) (j : Nat) (p : List Char) (i : Nat) :
    doPathItemMatch s j p i = true ↔ StringMatches (s.drop j) (p.drop i) := by
  fun_induction doPathItemMatch s j p i with
  | case1 j i inside star next last =>
    have ⟨_, _, same⟩ := skipAsterisks_spec p (i + 1) inside
    rw [drop_of_getElem? star, same, show skipAsterisks p (i + 1) = p.length from last,
      drop_length]
    exact ⟨fun _ => Wild.matches_star_last rfl, fun _ => rfl⟩
  | case2 j i inside star next more ih =>
    have ⟨bound, literal, same⟩ := skipAsterisks_spec p (i + 1) inside
    rw [drop_of_getElem? star, same, tryFrom_iff, stringMatches_star_iff]
    simp only [ih, drop_drop, length_drop]
    constructor
    · intro ⟨k, low, high, rest⟩
      refine ⟨k - j, by omega, ?_⟩
      rw [Nat.add_sub_cancel' low]
      exact rest
    · intro ⟨n, _, rest⟩
      refine ⟨j + n, by omega, ?_, rest⟩
      -- the pattern goes on with a character, so the string does
      by_contra ended
      obtain ⟨c, found⟩ : ∃ c, p[next]? = some c :=
        ⟨_, List.getElem?_eq_getElem (by omega)⟩
      rw [drop_eq_nil_of_le (by omega), drop_of_getElem? found] at rest
      refine not_stringMatches_nil (fun isStar => ?_) rest
      subst isStar
      exact literal found
  | case3 j i inside notStar differ =>
    obtain ⟨m, found⟩ : ∃ m, p[i]? = some m := ⟨_, List.getElem?_eq_getElem inside⟩
    have literal : m ≠ '*' := fun isStar => notStar (isStar ▸ found)
    rw [drop_of_getElem? found]
    refine ⟨nofun, fun matched => ?_⟩
    by_cases ended : j ≥ s.length
    · rw [drop_eq_nil_of_le ended] at matched
      exact absurd matched (not_stringMatches_nil literal)
    · obtain ⟨c, there⟩ : ∃ c, s[j]? = some c := ⟨_, List.getElem?_eq_getElem (by omega)⟩
      rw [drop_of_getElem? there] at matched
      have same := ((stringMatches_char_iff literal).mp matched).1
      rw [found, there, same] at differ
      simp [ended] at differ
  | case4 j i inside notStar same ih =>
    obtain ⟨m, found⟩ : ∃ m, p[i]? = some m := ⟨_, List.getElem?_eq_getElem inside⟩
    have literal : m ≠ '*' := fun isStar => notStar (isStar ▸ found)
    have there : s[j]? = some m := by
      rw [← found]
      by_contra differ
      exact same (.inr (Ne.symm differ))
    rw [ih, drop_of_getElem? found, drop_of_getElem? there, stringMatches_char_iff literal]
    exact ⟨fun rest => ⟨rfl, rest⟩, And.right⟩
  | case5 j i outside =>
    rw [drop_eq_nil_of_le (Nat.not_lt.mp outside), StringMatches, Wild.matches_nil_iff,
      drop_eq_nil_iff, decide_eq_true_eq]

theorem Component.isString_iff {c : Component} :
    c.isString = true ↔ c = .string c.characters := by
  cases c <;> simp [isString, characters]

theorem pathItemMatch_iff {a mask : Component} {answer : Bool}
    (answered : pathItemMatch a mask = .ok answer) : answer = true ↔ ItemMatches a mask := by
  rw [pathItemMatch] at answered
  by_cases isWild : mask = .wild
  · rw [if_pos isWild] at answered
    cases answered
    exact ⟨fun _ => .inl isWild, fun _ => rfl⟩
  rw [if_neg isWild] at answered
  by_cases plain : (!a.isString) = true ∨ mask = .null
  · rw [if_pos plain] at answered
    cases answered
    rw [decide_eq_true_eq]
    constructor
    · intro same
      subst same
      refine .inr (.inl ⟨?_, rfl⟩)
      cases plain with
      | inl other => simpa using other
      | inr null =>
        rw [null]
        rfl
    · intro matched
      obtain wild | ⟨_, same⟩ | ⟨s, p, string, pattern, _⟩ := matched
      · exact absurd wild isWild
      · exact same
      · simp [string, pattern, Component.isString] at plain
  rw [if_neg plain] at answered
  obtain ⟨string, _⟩ := not_or.mp plain
  by_cases refused : (!mask.isString) = true
  · rw [if_pos refused] at answered
    cases answered
  rw [if_neg refused] at answered
  cases answered
  simp only [not_eq_true', not_eq_false] at string refused
  rw [doPathItemMatch_iff]
  constructor
  · intro matched
    exact .inr
      (.inr ⟨_, _, Component.isString_iff.mp string, Component.isString_iff.mp refused, matched⟩)
  · intro matched
    obtain wild | ⟨other, _⟩ | ⟨s, p, rfl, rfl, matched⟩ := matched
    · exact absurd wild isWild
    · rw [string] at other
      cases other
    · exact matched

/-- What a mask may be besides the keywords that only match themselves. -/
def Component.supported (mask : Component) : Bool := mask.isString || mask = .wild || mask = .null

theorem pathItemMatch_answers {a mask : Component}
    (supported : mask.supported = true ∨ a.isString = false) :
    ∃ answer, pathItemMatch a mask = .ok answer := by
  rw [pathItemMatch]
  by_cases isWild : mask = .wild
  · exact ⟨true, if_pos isWild⟩
  rw [if_neg isWild]
  by_cases plain : (!a.isString) = true ∨ mask = .null
  · exact ⟨_, if_pos plain⟩
  rw [if_neg plain]
  have string : (!mask.isString) ≠ true := by
    intro refused
    simp_all [Component.supported]
  exact ⟨_, if_neg string⟩

variable {rest : List Component → Checked Bool}

theorem tryTails_sound {P : List Component → Prop}
    (sound : ∀ a, rest a = .ok true → P a) (a : List Component) :
    tryTails rest a = .ok true → ∃ n ≤ a.length, P (a.drop n) := by
  induction a with
  | nil => exact nofun
  | cons x a ih =>
    intro answered
    rw [tryTails] at answered
    cases here : rest (x :: a) with
    | error refused =>
      rw [here] at answered
      cases answered
    | ok found =>
      rw [here] at answered
      cases found with
      | true => exact ⟨0, Nat.zero_le _, sound _ here⟩
      | false =>
        obtain ⟨n, bound, found⟩ := ih answered
        exact ⟨n + 1, Nat.succ_le_succ bound, found⟩

theorem tryTails_complete {P : List Component → Prop}
    (complete : ∀ a, rest a = .ok false → ¬P a) (never : ¬P []) (a : List Component) :
    tryTails rest a = .ok false → ∀ n, ¬P (a.drop n) := by
  induction a with
  | nil =>
    intro _ n
    rw [drop_nil]
    exact never
  | cons x a ih =>
    intro answered n
    rw [tryTails] at answered
    cases here : rest (x :: a) with
    | error refused =>
      rw [here] at answered
      cases answered
    | ok found =>
      rw [here] at answered
      cases found with
      | true => cases answered
      | false =>
        cases n with
        | zero => exact complete _ here
        | succ n => exact ih answered n

theorem tryTails_answers (answers : ∀ a, ∃ answer, rest a = .ok answer) (a : List Component) :
    ∃ answer, tryTails rest a = .ok answer := by
  induction a with
  | nil => exact ⟨false, rfl⟩
  | cons x a ih =>
    obtain ⟨found, here⟩ := answers (x :: a)
    rw [tryTails, here]
    cases found with
    | true => exact ⟨true, rfl⟩
    | false => exact ih

/-- Two :WILD-INFERIORS at the end. -/
def EndsInTwo (mask : List Component) : Prop :=
  ∃ init, mask = init ++ [.wildInferiors, .wildInferiors]

/-- No :ABSOLUTE and no :RELATIVE, which stand only at the front. -/
def Inner (mask : List Component) : Prop := ∀ m ∈ mask, m ≠ .absolute ∧ m ≠ .relative

theorem inner_nil : Inner [] := fun _ member => absurd member not_mem_nil

variable {mask : List Component}

theorem listMatches_star_iff {a : List Component} :
    ListMatches a (.wildInferiors :: mask) ↔ ∃ n ≤ a.length, ListMatches (a.drop n) mask :=
  Wild.matches_star_iff rfl

variable {m : Component}

theorem listMatches_item_iff {x : Component} {a : List Component} (one : m ≠ .wildInferiors) :
    ListMatches (x :: a) (m :: mask) ↔ ItemMatches x m ∧ ListMatches a mask :=
  Wild.matches_item_iff one

theorem not_listMatches_nil (one : m ≠ .wildInferiors) : ¬ListMatches [] (m :: mask) :=
  Wild.not_matches_nil one

theorem listMatches_nil_wild (matched : ListMatches [] mask) :
    mask = List.replicate mask.length .wildInferiors := by
  induction mask with
  | nil => rfl
  | cons m mask ih =>
    by_cases isStar : m = .wildInferiors
    · subst isStar
      obtain ⟨n, _, rest⟩ := listMatches_star_iff.mp matched
      rw [drop_nil] at rest
      rw [length_cons, replicate_succ, ← ih rest]
    · exact absurd matched (not_listMatches_nil isStar)

theorem endsInTwo_of_nil (more : mask ≠ []) (matched : ListMatches [] mask) :
    EndsInTwo (.wildInferiors :: mask) := by
  have all := listMatches_nil_wild matched
  obtain ⟨n, length⟩ : ∃ n, mask.length = n + 1 :=
    Nat.exists_eq_succ_of_ne_zero (mt length_eq_zero_iff.mp more)
  rw [length] at all
  refine ⟨List.replicate n .wildInferiors, ?_⟩
  rw [all, ← replicate_succ, show n + 1 + 1 = n + 2 from rfl, replicate_add]
  rfl

theorem EndsInTwo.cons (ends : EndsInTwo mask) : EndsInTwo (m :: mask) := by
  obtain ⟨init, whole⟩ := ends
  exact ⟨m :: init, by rw [whole, cons_append]⟩

theorem pathListMatch_star (more : mask ≠ []) (a : List Component) :
    pathListMatch a (.wildInferiors :: mask) = tryTails (fun a => pathListMatch a mask) a := by
  rw [pathListMatch.eq_def]
  simp only [if_true, isEmpty_eq_false_iff.mpr more, false_eq_true, if_false]

theorem pathListMatch_item (one : m ≠ .wildInferiors) (x : Component)
    (a mask : List Component) : pathListMatch (x :: a) (m :: mask) = do
      if ← pathItemMatch x m then pathListMatch a mask else return false := by
  rw [pathListMatch.eq_def]
  simp only [if_neg one]

theorem pathListMatch_sound (inner : Inner mask) : ∀ {a},
    pathListMatch a mask = .ok true → ListMatches a mask := by
  induction mask with
  | nil =>
    intro a answered
    rw [pathListMatch.eq_def, Except.ok.injEq, List.isEmpty_iff] at answered
    exact Wild.matches_nil_iff.mpr answered
  | cons m mask ih =>
    intro a answered
    have below : Inner mask := fun m' member => inner m' (mem_cons_of_mem m member)
    by_cases isStar : m = .wildInferiors
    · subst isStar
      by_cases last : mask = []
      · subst last
        exact Wild.matches_star_last rfl
      · rw [pathListMatch_star last] at answered
        exact listMatches_star_iff.mpr (tryTails_sound (fun a found => ih below found) a answered)
    · cases a with
      | nil =>
        have front := inner m mem_cons_self
        rw [pathListMatch.eq_def] at answered
        simp only [if_neg isStar, if_pos front] at answered
        cases answered
      | cons x a =>
        rw [pathListMatch_item isStar] at answered
        cases asked : pathItemMatch x m with
        | error refused =>
          rw [asked] at answered
          cases answered
        | ok verdict =>
          rw [asked] at answered
          cases verdict with
          | true =>
            exact (listMatches_item_iff isStar).mpr
              ⟨(pathItemMatch_iff asked).mp rfl, ih below answered⟩
          | false => cases answered

theorem pathListMatch_complete (inner : Inner mask) (ends : ¬EndsInTwo mask) :
    ∀ {a}, pathListMatch a mask = .ok false → ¬ListMatches a mask := by
  induction mask with
  | nil =>
    intro a answered
    rw [pathListMatch.eq_def, Except.ok.injEq] at answered
    rw [ListMatches, Wild.matches_nil_iff, ← List.isEmpty_iff, answered]
    exact false_ne_true
  | cons m mask ih =>
    intro a answered
    have below : Inner mask := fun m' member => inner m' (mem_cons_of_mem m member)
    have shorter : ∀ {a}, pathListMatch a mask = .ok false → ¬ListMatches a mask :=
      ih below (mt EndsInTwo.cons ends)
    by_cases isStar : m = .wildInferiors
    · subst isStar
      by_cases last : mask = []
      · subst last
        cases answered
      · rw [pathListMatch_star last] at answered
        intro matched
        obtain ⟨n, _, found⟩ := listMatches_star_iff.mp matched
        exact tryTails_complete (P := (ListMatches · mask)) (fun a found => shorter found)
          (mt (endsInTwo_of_nil last) ends) a answered n found
    · cases a with
      | nil => exact not_listMatches_nil isStar
      | cons x a =>
        rw [pathListMatch_item isStar] at answered
        rw [listMatches_item_iff isStar]
        cases asked : pathItemMatch x m with
        | error refused =>
          rw [asked] at answered
          cases answered
        | ok verdict =>
          rw [asked] at answered
          cases verdict with
          | true => exact fun matched => shorter answered matched.2
          | false =>
            intro matched
            exact false_ne_true ((pathItemMatch_iff asked).mpr matched.1)

theorem pathListMatch_answers
    (supported : ∀ m ∈ mask, m.supported = true ∨ m = .wildInferiors) (inner : Inner mask) :
    ∀ a, ∃ answer, pathListMatch a mask = .ok answer := by
  induction mask with
  | nil => exact fun a => ⟨a.isEmpty, by rw [pathListMatch.eq_def]⟩
  | cons m mask ih =>
    intro a
    have below := ih (fun m' member => supported m' (mem_cons_of_mem m member))
      (fun m' member => inner m' (mem_cons_of_mem m member))
    by_cases isStar : m = .wildInferiors
    · subst isStar
      by_cases last : mask = []
      · subst last
        exact ⟨true, by rw [pathListMatch.eq_def]; rfl⟩
      · rw [pathListMatch_star last]
        exact tryTails_answers below a
    · cases a with
      | nil =>
        have front := inner m mem_cons_self
        refine ⟨false, ?_⟩
        rw [pathListMatch.eq_def]
        simp only [if_neg isStar, if_pos front]
      | cons x a =>
        obtain ⟨verdict, asked⟩ := pathItemMatch_answers (a := x)
          (.inl ((supported m mem_cons_self).resolve_right isStar))
        rw [pathListMatch_item isStar, asked]
        cases verdict with
        | true => exact below a
        | false => exact ⟨false, rfl⟩

/-- What a directory starts with. -/
def Component.isFront (c : Component) : Bool := c = .absolute || c = .relative

/-- What a directory is made of below its front. -/
def Component.isStep (c : Component) : Bool :=
  c.isString || c = .wild || c = .wildInferiors || c = .up || c = .back

/-- A directory as it is kept in a pathname. -/
def isDirectory : List Component → Bool
  | [] => true
  | front :: steps => front.isFront && steps.all Component.isStep

/-- An empty directory stands for the front of the mask. -/
def DirectoryMatches (a mask : List Component) : Prop :=
  ListMatches a mask ∨ a = [] ∧ ∃ front rest, mask = front :: rest ∧ front.isFront = true ∧
    ListMatches [] rest

variable {front : Component}

theorem isDirectory_cons {steps : List Component}
    (directory : isDirectory (front :: steps) = true) :
    (front = .absolute ∨ front = .relative) ∧ Inner steps ∧ ∀ c ∈ steps, c.isStep = true := by
  simp only [isDirectory, Component.isFront, and_eq_true, or_eq_true, decide_eq_true_eq,
    all_eq_true] at directory
  refine ⟨directory.1, fun c member => ⟨fun same => ?_, fun same => ?_⟩, directory.2⟩
  · have step := directory.2 c member
    rw [same] at step
    cases step
  · have step := directory.2 c member
    rw [same] at step
    cases step

theorem pathItemMatch_front {x : Component} (first : x = .absolute ∨ x = .relative)
    (second : front = .absolute ∨ front = .relative) : pathItemMatch x front = .ok (x = front) := by
  obtain rfl | rfl := first <;> obtain rfl | rfl := second <;> rfl

theorem pathListMatch_front (isFront : front = .absolute ∨ front = .relative)
    (a rest : List Component) (directory : isDirectory a = true) :
    pathListMatch a (front :: rest) =
      if a = [] then pathListMatch [] rest
      else if a.head? = some front then pathListMatch a.tail rest
      else .ok false := by
  have one : front ≠ .wildInferiors := by
    obtain rfl | rfl := isFront <;> exact nofun
  cases a with
  | nil =>
    rw [pathListMatch.eq_def, if_pos rfl]
    simp only [if_neg one, ne_eq]
    rw [if_neg]
    exact fun neither => isFront.elim neither.1 neither.2
  | cons x a =>
    rw [pathListMatch_item one,
      pathItemMatch_front (isDirectory_cons directory).1 isFront, if_neg nofun,
      List.head?_cons, tail_cons]
    by_cases same : x = front
    · rw [if_pos (congrArg some same), decide_eq_true same]
      rfl
    · rw [if_neg (mt Option.some.inj same), decide_eq_false same]
      rfl

theorem directoryMatches_front (isFront : front = .absolute ∨ front = .relative)
    (a rest : List Component) (directory : isDirectory a = true) :
    DirectoryMatches a (front :: rest) ↔
      if a = [] then ListMatches [] rest
      else a.head? = some front ∧ ListMatches a.tail rest := by
  have one : front ≠ .wildInferiors := by
    obtain rfl | rfl := isFront <;> exact nofun
  have notWild : front ≠ .wild := by
    obtain rfl | rfl := isFront <;> exact nofun
  have notString : ∀ p, front ≠ .string p := by
    obtain rfl | rfl := isFront <;> exact nofun
  have isFront' : front.isFront = true := by
    obtain rfl | rfl := isFront <;> rfl
  cases a with
  | nil =>
    rw [if_pos rfl]
    constructor
    · intro matched
      obtain matched | ⟨-, front', rest', whole, -, matched⟩ := matched
      · exact absurd matched (not_listMatches_nil one)
      · cases whole
        exact matched
    · intro matched
      exact .inr ⟨rfl, front, rest, rfl, isFront', matched⟩
  | cons x a =>
    rw [if_neg nofun, List.head?_cons, tail_cons, Option.some.injEq]
    constructor
    · intro matched
      obtain matched | ⟨never, -⟩ := matched
      · obtain ⟨item, rest⟩ := (listMatches_item_iff one).mp matched
        obtain wild | ⟨-, same⟩ | ⟨-, p, -, string, -⟩ := item
        · exact absurd wild notWild
        · exact ⟨same, rest⟩
        · exact absurd string (notString p)
      · cases never
    · intro ⟨same, rest⟩
      refine .inl ((listMatches_item_iff one).mpr ⟨.inr (.inl ⟨?_, same⟩), rest⟩)
      rw [same]
      obtain rfl | rfl := isFront <;> rfl

/-- do_path_item_match decides what an asterisk can stand for, and path_list_match what
:WILD-INFERIORS can, with an error only for masks with :UP or :BACK and a wrong denial only for
masks that end in two :WILD-INFERIORS. -/
theorem path_match_spec :
    (∀ s p, doPathItemMatch s 0 p 0 = true ↔ StringMatches s p) ∧
    ∀ a mask, isDirectory a = true → isDirectory mask = true →
      ((∀ m ∈ mask, m ≠ .up ∧ m ≠ .back) → ∃ answer, pathListMatch a mask = .ok answer) ∧
      (pathListMatch a mask = .ok true → DirectoryMatches a mask) ∧
      (pathListMatch a mask = .ok false → ¬EndsInTwo mask → ¬DirectoryMatches a mask) := by
  refine ⟨fun s p => doPathItemMatch_iff s 0 p 0, fun a mask directory directory' => ?_⟩
  cases mask with
  | nil =>
    refine ⟨fun _ => ⟨a.isEmpty, by rw [pathListMatch.eq_def]⟩, fun answered => ?_,
      fun answered ends => ?_⟩
    · exact .inl (pathListMatch_sound inner_nil answered)
    · intro matched
      obtain matched | ⟨-, front, rest, whole, -⟩ := matched
      · exact pathListMatch_complete inner_nil ends answered matched
      · cases whole
  | cons front rest =>
    obtain ⟨isFront, inner, steps⟩ := isDirectory_cons directory'
    rw [pathListMatch_front isFront a rest directory,
      directoryMatches_front isFront a rest directory]
    refine ⟨fun noDots => ?_, fun answered => ?_, fun answered ends => ?_⟩
    · have supported : ∀ m ∈ rest, m.supported = true ∨ m = .wildInferiors := by
        intro m member
        have step := steps m member
        have ⟨notUp, notBack⟩ := noDots m (mem_cons_of_mem _ member)
        cases m <;> simp_all [Component.isStep, Component.supported, Component.isString]
      have answers := pathListMatch_answers supported inner
      split
      · exact answers []
      · split
        · exact answers a.tail
        · exact ⟨false, rfl⟩
    · by_cases empty : a = []
      · rw [if_pos empty] at answered ⊢
        exact pathListMatch_sound inner answered
      · rw [if_neg empty] at answered ⊢
        by_cases same : a.head? = some front
        · rw [if_pos same] at answered
          exact ⟨same, pathListMatch_sound inner answered⟩
        · rw [if_neg same] at answered
          cases answered
    · have complete : ∀ {a}, pathListMatch a rest = .ok false → ¬ListMatches a rest :=
        pathListMatch_complete inner (mt EndsInTwo.cons ends)
      by_cases empty : a = []
      · rw [if_pos empty] at answered ⊢
        exact complete answered
      · rw [if_neg empty] at answered ⊢
        intro ⟨same, matched⟩
        rw [if_pos same] at answered
        exact complete answered matched

/-- A pattern fits another one as a string where that matches all it does. -/
theorem doPathItemMatch_subsumes (p q : List Char) : doPathItemMatch p 0 q 0 = true ↔
    ∀ s, doPathItemMatch s 0 p 0 = true → doPathItemMatch s 0 q 0 = true := by
  simp only [doPathItemMatch_iff]
  exact ⟨fun fits s matched => matched.trans fits, fun all => all p (stringMatches_refl p)⟩

/-- :UP is compared with a string before the mask fits. -/
theorem path_list_match_refused :
    let a := [Component.relative, .string ['y'], .string ['z'], .string ['y'], .up]
    let mask := [Component.relative, .wildInferiors, .string ['y'], .up]
    isDirectory a = true ∧ isDirectory mask = true ∧ DirectoryMatches a mask ∧
      pathListMatch a mask ≠ .ok true := by
  refine ⟨rfl, rfl, .inl ?_, by decide +kernel⟩
  have up : ListMatches [.up] [.up] :=
    (listMatches_item_iff (by decide)).mpr ⟨.inr (.inl ⟨rfl, rfl⟩), .nil⟩
  have letter : ItemMatches (.string ['y']) (.string ['y']) :=
    (@pathItemMatch_iff _ _ true (by decide +kernel)).mp rfl
  have inferiors : ListMatches [.string ['y'], .string ['z'], .string ['y'], .up]
      [.wildInferiors, .string ['y'], .up] :=
    listMatches_star_iff.mpr ⟨2, by decide, (listMatches_item_iff (by decide)).mpr ⟨letter, up⟩⟩
  exact (listMatches_item_iff (by decide)).mpr ⟨.inr (.inl ⟨rfl, rfl⟩), inferiors⟩

end Ecl.Pathname
