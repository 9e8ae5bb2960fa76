import Mathlib.Data.Int.Bitwise
import Mathlib.Data.List.Basic

/- The type algebra of the compiler in cmptype.lsp. -/
namespace Ecl.Cmptype

open List

/-- Type specifiers, with the symbols that mark the parts of a VALUES type. -/
inductive Spec (β : Type) where
  | base (b : β)
  | nil
  | null
  | t
  | star
  | optional
  | rest
  | and (t1 t2 : Spec β)
  | or (t1 t2 : Spec β)
  deriving DecidableEq

/-- What safe-canonical-type returns: a number, CONS, or NIL. -/
inductive Tag where
  | number (n : Int)
  | cons
  | unknown

/-- The number that is given to logand. -/
def Tag.toInt : Tag → Int
  | number n => n
  | _ => 0

section Code

variable {β σ : Type} [DecidableEq β] (eq : Spec β → Spec β → Bool)
  (safeCanonicalType : Spec β → σ → Tag × σ) (db : σ)

/-- The tags of two types, once and once more, from one database on. -/
def tags (t1 t2 : Spec β) : (Tag × Tag) × Int × Int :=
  let (tag1, db1) := safeCanonicalType t1 db
  let (tag2, db2) := safeCanonicalType t2 db1
  let (tag1', db3) := safeCanonicalType t1 db2
  let (tag2', _) := safeCanonicalType t2 db3
  ((tag1, tag2), tag1'.toInt, tag2'.toInt)

def typeAnd (t1 t2 : Spec β) : Spec β :=
  if eq t1 t2 || t2 = .star then t1
  else if t1 = .star then t2
  else
    match tags safeCanonicalType db t1 t2 with
    | ((.number _, .number _), tag1, tag2) =>
      if Int.land tag1 tag2 = 0 then .nil
      else if Int.ldiff tag1 tag2 = 0 then t1
      else if Int.ldiff tag2 tag1 = 0 then t2
      else .and t1 t2
    | ((.cons, _), _) => t2
    | ((_, .cons), _) => t1
    | ((.unknown, _), _) => t2
    | _ => t1

def typeOr (t1 t2 : Spec β) : Spec β :=
  if eq t1 t2 || t2 = .star then t1
  else if t1 = .star then t2
  else
    match tags safeCanonicalType db t1 t2 with
    | ((.number _, .number _), tag1, tag2) =>
      if Int.ldiff tag1 tag2 = 0 then t2
      else if Int.ldiff tag2 tag1 = 0 then t1
      else .or t1 t2
    | _ => .t

/-- An argument or a result: an ordinary type, or (VALUES . l). -/
inductive ValuesType (β : Type) where
  | ordinary (type : Spec β)
  | values (l : List (Spec β))
  deriving DecidableEq

/-- (eq i '&rest) or (eq i '&optional), where i is the first of a list. -/
def marked (t : List (Spec β)) : Bool := t.head? = some .rest ∨ t.head? = some .optional

/-- A marker at the head of the list begins a phase. -/
def enter (phase : Option (Spec β)) (t : List (Spec β)) :
    Option (Option (Spec β) × List (Spec β)) :=
  match t with
  | .optional :: t => if phase ≠ none ∨ t = [] then none else some (some .optional, t)
  | .rest :: t => if phase = some .rest ∨ t.length ≠ 1 then none else some (some .rest, t)
  | t => some (phase, t)

/-- (unless (eq phase3 phase) (push (setf phase3 phase) output)) -/
def mark (phase3 : Option (Spec β)) (phase : Spec β) (output : List (Spec β)) : List (Spec β) :=
  if phase3 = some phase then output else phase :: output

/-- The loop do-values-type-and, where i1 and i2 are the first elements of t1 and t2. There is no
result after an error. -/
def doValuesTypeAnd : Nat → List (Spec β) → List (Spec β) → Option (Spec β) → Option (Spec β) →
    Option (Spec β) → List (Spec β) → Option (ValuesType β)
  | 0, _, _, _, _, _, _ => none
  | fuel + 1, t1, t2, phase1, phase2, phase3, output =>
    if t1 = [] ∨ t2 = [] then
      some (if t1 = [] ∧ t2 = [] ∨ marked t1 ∨
        marked t2 then .values output.reverse else .ordinary .nil)
    else
      match enter phase1 t1, enter phase2 t2 with
      | some (phase1, i1 :: t1), some (phase2, i2 :: t2) =>
        let both := typeAnd eq safeCanonicalType db i1 i2
        if phase1 = none ∧ phase2 = none then
          doValuesTypeAnd fuel t1 t2 phase1 phase2 phase3 (both :: output)
        else if phase2 = none then
          doValuesTypeAnd fuel (if phase1 = some .rest then i1 :: t1 else t1) t2 phase1 phase2
            phase3 (both :: output)
        else if phase1 = none then
          doValuesTypeAnd fuel t1 (if phase2 = some .rest then i2 :: t2 else t2) phase1 phase2
            phase3 (both :: output)
        else if phase1 = phase2 then
          if phase1 = some .rest then
            doValuesTypeAnd fuel [] [] phase1 phase2 (some .rest) (both :: mark phase3 .rest output)
          else doValuesTypeAnd fuel t1 t2 phase1 phase2 (some .optional)
            (both :: mark phase3 .optional output)
        else if phase1 = some .optional then
          doValuesTypeAnd fuel t1 (i2 :: t2) phase1 phase2 (some .optional)
            (both :: mark phase3 .optional output)
        else doValuesTypeAnd fuel (i1 :: t1) t2 phase1 phase2 (some .optional)
          (both :: mark phase3 .optional output)
      | _, _ => none

def valuesAndOrdinary (v : List (Spec β)) (type : Spec β) : ValuesType β :=
  if marked v then .ordinary (typeAnd eq safeCanonicalType db (v.tail.headD .nil) type)
  else if v.tail = [] then .ordinary (typeAnd eq safeCanonicalType db (v.headD .nil) type)
  else .ordinary .nil

def valuesTypeAnd (t1 t2 : ValuesType β) : Option (ValuesType β) :=
  if t1 = t2 then some t1
  else
    match t1, t2 with
    | .values l1, .values l2 =>
      doValuesTypeAnd eq safeCanonicalType db (l1.length + l2.length + 1) l1 l2 none none none []
    | .values l, .ordinary type => some (valuesAndOrdinary eq safeCanonicalType db l type)
    | .ordinary type, .values l => some (valuesAndOrdinary eq safeCanonicalType db l type)
    | .ordinary type1, .ordinary type2 =>
        some (.ordinary (typeAnd eq safeCanonicalType db type1 type2))

/-- There is no type after an error. -/
def valuesTypePrimaryType : ValuesType β → Option (Spec β)
  | .ordinary type => some type
  | .values l =>
    if marked l then
      match l.tail with
      | [] => none
      | subtype :: _ =>
        if subtype = .optional ∨ subtype = .rest then none
        else some (typeOr eq safeCanonicalType db .null subtype)
    else some (l.headD .nil)

/-- The loop of values-type-to-n-types. Where an element of the list of types is the remaining
list, this is NIL. -/
def toNTypesLoop : List (Spec β) → List (Spec β) → Nat → Option (List (Spec β))
  | [], output, _ => some output.reverse
  | _, output, 0 => some output.reverse
  | [.optional], _, _ => none
  | .optional :: type :: l, output, n + 1 => toNTypesLoop l (type :: output) n
  | [.rest, _], output, n + 1 => some (output.reverse ++ List.replicate (n + 1) .nil)
  | .rest :: _, _, _ => none
  | type :: l, output, n + 1 => toNTypesLoop l (type :: output) n

def valuesTypeToNTypes (type : ValuesType β) (length : Nat) : Option (List (Spec β)) :=
  match type with
  | .ordinary type => some (type :: List.replicate (length - 1) .null)
  | .values l => toNTypesLoop l [] length

end Code

section Meaning

variable {β σ V : Type} (base : β → V → Prop) (null : V)

/-- The object is of the type, where null is the object NIL. -/
def Spec.Has : Spec β → V → Prop
  | .base b, x => base b x
  | .nil, _ => False
  | .null, x => x = null
  | .t, _ => True
  | .star, _ => True
  | .optional, _ => False
  | .rest, _ => False
  | .and t1 t2, x => t1.Has x ∧ t2.Has x
  | .or t1 t2, x => t1.Has x ∨ t2.Has x

/-- The tags of two types are right: they have a bit for every kind of objects. -/
structure Tagged (eq : Spec β → Spec β → Bool) (safeCanonicalType : Spec β → σ → Tag × σ) :
    Prop where
  eq_same : ∀ t1 t2, eq t1 t2 = true → t1 = t2
  kinds :
    ∀ db t1 t2 n1 n2 tag1 tag2, tags safeCanonicalType db t1 t2 =
    ((.number n1, .number n2), tag1, tag2) →
    ∃ kind : V → Nat, ∀ x, (t1.Has base null x ↔ tag1.testBit (kind x) = true) ∧
      (t2.Has base null x ↔ tag2.testBit (kind x) = true)

/-- A type, not a marker. -/
structure Spec.Plain (s : Spec β) : Prop where
  notOptional : s ≠ .optional
  notRest : s ≠ .rest
  notStar : s ≠ .star

variable {base null} {eq : Spec β → Spec β → Bool}
  {safeCanonicalType : Spec β → σ → Tag × σ} {db : σ}
  {t1 t2 : Spec β} {x : V}

theorem zero_testBit (k : Nat) : Int.testBit 0 k = false := Nat.zero_testBit k

/-- Where no bit of a tag is missing in another, every object of the one type is of the other. -/
theorem has_of_ldiff {s1 s2 : Spec β} {tag1 tag2 : Int} {kind : V → Nat}
    (right1 : s1.Has base null x ↔ tag1.testBit (kind x) = true)
    (right2 : s2.Has base null x ↔ tag2.testBit (kind x) = true) (zero : Int.ldiff tag1 tag2 = 0)
    (has : s1.Has base null x) : s2.Has base null x := by
  have bit := congrArg (Int.testBit · (kind x)) zero
  simp only [Int.testBit_ldiff, zero_testBit, right1.mp has, Bool.true_and,
    Bool.not_eq_false'] at bit
  exact right2.mpr bit

variable [DecidableEq β]

theorem typeAnd_has (tagged : Tagged base null eq safeCanonicalType) (has1 : t1.Has base null x)
    (has2 : t2.Has base null x) : (typeAnd eq safeCanonicalType db t1 t2).Has base null x := by
  rw [typeAnd]
  split
  · exact has1
  · split
    · exact has2
    · split
      · rename_i n1 n2 tag1 tag2 run
        obtain ⟨kind, right⟩ := tagged.kinds db t1 t2 n1 n2 tag1 tag2 run
        split
        · rename_i zero
          have bit := congrArg (Int.testBit · (kind x)) zero
          simp only [Int.testBit_land, zero_testBit, (right x).1.mp has1,
            (right x).2.mp has2] at bit
          cases bit
        · split
          · exact has1
          · split
            · exact has2
            · exact ⟨has1, has2⟩
      · exact has2
      · exact has1
      · exact has2
      · exact has1

theorem typeOr_has (tagged : Tagged base null eq safeCanonicalType) (notStar1 : t1 ≠ .star)
    (notStar2 : t2 ≠ .star)
    (has : t1.Has base null x ∨ t2.Has base null x) :
    (typeOr eq safeCanonicalType db t1 t2).Has base null x := by
  rw [typeOr]
  split
  · rename_i same
    rw [Bool.or_eq_true, decide_eq_true_eq, or_iff_left notStar2] at same
    rw [← tagged.eq_same t1 t2 same, or_self] at has
    exact has
  · split
    · rename_i n1 n2 tag1 tag2 run
      obtain ⟨kind, right⟩ := tagged.kinds db t1 t2 n1 n2 tag1 tag2 run
      split
      · rename_i below
        exact has.elim (has_of_ldiff (right x).1 (right x).2 below) id
      · split
        · rename_i below
          exact has.elim id (has_of_ldiff (right x).2 (right x).1 below)
        · exact has
    · trivial

theorem typeAnd_plain (plain1 : t1.Plain) (plain2 : t2.Plain) :
    (typeAnd eq safeCanonicalType db t1 t2).Plain := by
  rw [typeAnd]
  split
  · exact plain1
  · split
    · exact plain2
    · split
      · split
        · exact ⟨nofun, nofun, nofun⟩
        · split
          · exact plain1
          · split
            · exact plain2
            · exact ⟨nofun, nofun, nofun⟩
      · exact plain2
      · exact plain1
      · exact plain2
      · exact plain1

end Meaning

/-- The symbol &optional stands in front of optional types. -/
def optTokens {β : Type} (opt : List (Spec β)) :
    List (Spec β) := if opt.isEmpty then [] else .optional :: opt

def restTokens {β : Type} : Option (Spec β) → List (Spec β)
  | none => []
  | some s => [.rest, s]

/-- A VALUES type with its parts. -/
structure Values (β : Type) where
  req : List (Spec β)
  opt : List (Spec β)
  rest : Option (Spec β)
  plain : ∀ s, s ∈ req ++ opt ∨ rest = some s → s.Plain

namespace Values

variable {β : Type} (v : Values β)

def tokens : List (Spec β) := v.req ++ (optTokens v.opt ++ restTokens v.rest)

/-- The required and the optional types. -/
def length : Nat := v.req.length + v.opt.length

def typeAt (i : Nat) : Option (Spec β) := (v.req ++ v.opt)[i]?.or v.rest

/-- The list of values is as the type says. -/
structure Allows {V : Type} (base : β → V → Prop) (null : V) (vals : List V) : Prop where
  enough : v.req.length ≤ vals.length
  few : v.rest = none → vals.length ≤ v.length
  has : ∀ i x s, vals[i]? = some x → v.typeAt i = some s → s.Has base null x

variable {v} {k : Nat} {s : Spec β}

theorem typeAt_plain (type : v.typeAt k = some s) : s.Plain := by
  rw [typeAt] at type
  cases inside : (v.req ++ v.opt)[k]? with
  | none =>
    rw [inside, Option.none_or] at type
    exact v.plain s (.inr type)
  | some s' =>
    rw [inside, Option.some_or, Option.some.injEq] at type
    exact v.plain s (.inl (type ▸ mem_of_getElem? inside))

theorem typeAt_eq_none : v.typeAt k = none ↔ v.length ≤ k ∧ v.rest = none := by
  rw [typeAt, Option.or_eq_none_iff, List.getElem?_eq_none_iff, length_append, length]

/-- What is left of the list after some types, and the phase of the last of these. -/
def left (v : Values β) (k : Nat) : List (Spec β) :=
  if k ≤ v.req.length then v.req.drop k ++ (optTokens v.opt ++ restTokens v.rest)
  else if k ≤ v.length then v.opt.drop (k - v.req.length) ++ restTokens v.rest
  else v.rest.toList

def phase (v : Values β) (k : Nat) : Option (Spec β) :=
  if k ≤ v.req.length then none else if k ≤ v.length then some .optional else some .rest

theorem enter_plain [DecidableEq β] {phase : Option (Spec β)} {t : List (Spec β)}
    (plain : s.Plain) :
    enter phase (s :: t) = some (phase, s :: t) := by
  rw [enter.eq_def]
  split
  · rename_i same
    exact absurd (List.cons.inj same).1 plain.notOptional
  · rename_i same
    exact absurd (List.cons.inj same).1 plain.notRest
  · rfl

theorem marked_plain [DecidableEq β] {t : List (Spec β)} (plain : s.Plain) :
    marked (s :: t) = false :=
  decide_eq_false fun either => either.elim (fun same => plain.notRest (Option.some.inj same))
    fun same => plain.notOptional (Option.some.inj same)

theorem enter_left [DecidableEq β] (type : v.typeAt k = some s) :
    ∃ after, enter (v.phase k) (v.left k) = some (v.phase (k + 1), s :: after) ∧
      v.left (k + 1) = (if v.phase (k + 1) = some .rest then s :: after else after) := by
  have plain := typeAt_plain type
  have total : v.length = v.req.length + v.opt.length := rfl
  rw [typeAt] at type
  by_cases required : k < v.req.length
  · have here : v.req[k]? = some s := by
      rwa [List.getElem?_append_left required, List.getElem?_eq_getElem required, Option.some_or,
        ← List.getElem?_eq_getElem required] at type
    have split : v.left k = s :: v.left (k + 1) := by
      rw [left, left, if_pos (by omega), if_pos (by omega), drop_eq_getElem?_toList_append, here]
      rfl
    rw [phase, phase, if_pos (by omega), if_pos (by omega), split, enter_plain plain]
    exact ⟨_, rfl, rfl⟩
  · by_cases optional : k < v.length
    · have here : v.opt[k - v.req.length]? = some s := by
        rwa [List.getElem?_append_right (by omega), List.getElem?_eq_getElem (by omega),
          Option.some_or,
          ← List.getElem?_eq_getElem (by omega)] at type
      have split : v.opt.drop (k - v.req.length) = s :: v.opt.drop (k + 1 - v.req.length) := by
        rw [drop_eq_getElem?_toList_append, here, show k + 1 - v.req.length =
          k - v.req.length + 1 by omega]
        rfl
      have next : v.phase (k + 1) = some .optional := by
        rw [phase, if_neg (by omega), if_pos (by omega)]
      have after : v.left (k + 1) = v.opt.drop (k + 1 - v.req.length) ++ restTokens v.rest := by
        rw [left, if_neg (by omega), if_pos (by omega)]
      rw [next, after]
      by_cases first : k = v.req.length
      · subst first
        rw [Nat.sub_self, drop_zero] at split
        have begins : v.left v.req.length = .optional :: (v.opt ++ restTokens v.rest) := by
          rw [left, if_pos (Nat.le_refl _), drop_length, nil_append, optTokens, split]
          rfl
        have none : v.phase v.req.length = none := if_pos (Nat.le_refl _)
        have behind : v.opt ++ restTokens v.rest =
            s :: (v.opt.drop (v.req.length + 1 - v.req.length) ++ restTokens v.rest) :=
          congrArg (· ++ restTokens v.rest) split
        rw [begins, none, behind]
        exact ⟨_, rfl, (if_neg (by simp)).symm⟩
      · rw [phase, left, if_neg (by omega), if_pos (by omega), if_neg (by omega),
          if_pos (by omega), split]
        exact ⟨_, enter_plain plain, rfl⟩
    · have here : v.rest = some s := by
        rwa [List.getElem?_eq_none (by rw [length_append]; omega), Option.none_or] at type
      have next : v.phase (k + 1) = some .rest := by
        rw [phase, if_neg (by omega), if_neg (by omega)]
      have after : v.left (k + 1) = [s] := by
        rw [left, if_neg (by omega), if_neg (by omega), here]
        rfl
      rw [next, after]
      by_cases first : k = v.length
      · have begins : v.left k = [.rest, s] := by
          by_cases none : v.opt = []
          · have same : k = v.req.length := by rw [first, total, none]; rfl
            rw [left, if_pos (by omega), same, drop_length, none, here]
            rfl
          · have positive : 0 < v.opt.length := length_pos_iff.mpr none
            rw [left, if_neg (by omega), if_pos (by omega), here,
              show k - v.req.length = v.opt.length by omega,
              drop_length]
            rfl
        have notRest : v.phase k ≠ some .rest := by
          rw [phase]
          split
          · exact nofun
          · rw [if_pos (by omega)]
            exact nofun
        rw [begins]
        exact ⟨[], if_neg (by simp [notRest]), rfl⟩
      · rw [phase, left, if_neg (by omega), if_neg (by omega), if_neg (by omega),
          if_neg (by omega), here]
        exact ⟨[], enter_plain plain, rfl⟩

theorem left_eq_nil (none : v.typeAt k = none) : v.left k = [] := by
  obtain ⟨beyond, noRest⟩ := typeAt_eq_none.mp none
  rw [length] at beyond
  rw [left, noRest]
  split
  · rw [drop_eq_nil_of_le (by omega), eq_nil_of_length_eq_zero (by omega : v.opt.length = 0)]
    rfl
  · split
    · rw [drop_eq_nil_of_le (by omega)]
      rfl
    · rfl

theorem left_ne_nil [DecidableEq β] (type : v.typeAt k = some s) : v.left k ≠ [] := by
  intro empty
  obtain ⟨after, step, -⟩ := enter_left type
  simp [empty, enter] at step

theorem marked_left [DecidableEq β] (type : v.typeAt k = some s) :
    marked (v.left k) = true ↔ k = v.req.length ∨ k = v.length := by
  have total : v.length = v.req.length + v.opt.length := rfl
  have member (s' : Spec β) (inside : s' ∈ v.req ++ v.opt) : s'.Plain := v.plain s' (.inl inside)
  rw [left]
  split
  · by_cases last : k = v.req.length
    · refine iff_of_true ?_ (.inl last)
      rw [last, drop_length, nil_append, optTokens]
      split
      · rename_i noOpt
        cases rest : v.rest with
        | none =>
          have never := left_ne_nil type
          rw [List.isEmpty_iff] at noOpt
          exact absurd
            (left_eq_nil
            (typeAt_eq_none.mpr ⟨by rw [total, noOpt, last]; exact Nat.le_refl _, rest⟩)) never
        | some s => rfl
      · rfl
    · rw [drop_eq_getElem_cons (by omega : k < v.req.length), cons_append,
        marked_plain (member _ (mem_append_left _ (getElem_mem _)))]
      exact iff_of_false Bool.false_ne_true (by omega)
  · split
    · by_cases last : k = v.length
      · refine iff_of_true ?_ (.inr last)
        rw [last, total, Nat.add_sub_cancel_left, drop_length]
        cases rest : v.rest with
        | none =>
          exact absurd (left_eq_nil (typeAt_eq_none.mpr ⟨last.ge, rest⟩)) (left_ne_nil type)
        | some s => rfl
      · rw [drop_eq_getElem_cons (by omega : k - v.req.length < v.opt.length), cons_append,
          marked_plain (member _ (mem_append_right _ (getElem_mem _)))]
        exact iff_of_false Bool.false_ne_true (by omega)
    · cases rest : v.rest with
      | none => exact absurd (left_eq_nil (typeAt_eq_none.mpr ⟨by omega, rest⟩)) (left_ne_nil type)
      | some s =>
        rw [Option.toList_some, marked_plain (v.plain s (.inr rest))]
        exact iff_of_false Bool.false_ne_true (by omega)

end Values

end Ecl.Cmptype
