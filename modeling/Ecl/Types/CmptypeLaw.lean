import Ecl.Types.Cmptype

/- The type algebra of cmptype.lsp is sound, for VALUES types under conditions on their parts. -/
namespace Ecl.Cmptype

open List

section Loop

variable {β σ : Type} [DecidableEq β] (eq : Spec β → Spec β → Bool)
  (safeCanonicalType : Spec β → σ → Tag × σ) (db : σ)
  (v1 v2 : Values β)

/-- The type of a value that both allow. -/
def both (i : Nat) : Spec β :=
  typeAnd eq safeCanonicalType db ((v1.typeAt i).getD .nil) ((v2.typeAt i).getD .nil)

def boths (k : Nat) : List (Spec β) := (List.range k).map (both eq safeCanonicalType db v1 v2)

/-- The output after some types: values that one of the two requires are required. -/
def outputAt (k : Nat) : List (Spec β) :=
  let n := max v1.req.length v2.req.length
  let types := boths eq safeCanonicalType db v1 v2 k
  types.take n ++ optTokens (types.drop n)

def phase3At (k : Nat) : Option (Spec β) :=
  if k ≤ max v1.req.length v2.req.length then none else some .optional

variable {eq safeCanonicalType db v1 v2} {k fuel : Nat} {s1 s2 : Spec β}

theorem boths_succ : boths eq safeCanonicalType db v1 v2 (k + 1) =
    boths eq safeCanonicalType db v1 v2 k ++ [both eq safeCanonicalType db v1 v2 k] := by
  rw [boths, range_succ, map_append]
  rfl

theorem boths_length : (boths eq safeCanonicalType db v1 v2 k).length = k := by
  rw [boths, length_map, length_range]

theorem outputAt_required (required : k < max v1.req.length v2.req.length) :
    outputAt eq safeCanonicalType db v1 v2 (k + 1) =
      outputAt eq safeCanonicalType db v1 v2 k ++ [both eq safeCanonicalType db v1 v2 k] ∧
    (phase3At v1 v2 (k + 1) : Option (Spec β)) = phase3At v1 v2 k := by
  refine ⟨?_, ?_⟩
  · have here := @boths_length _ _ _ eq safeCanonicalType db v1 v2 k
    have next := @boths_length _ _ _ eq safeCanonicalType db v1 v2 (k + 1)
    simp only [outputAt]
    rw [take_of_length_le (by omega), drop_eq_nil_of_le (by omega), take_of_length_le (by omega),
      drop_eq_nil_of_le (by omega), boths_succ]
    simp [optTokens]
  · rw [phase3At, phase3At, if_pos (by omega), if_pos (by omega)]

theorem outputAt_optional (optional : max v1.req.length v2.req.length ≤ k) :
    (outputAt eq safeCanonicalType db v1 v2 (k + 1)).reverse =
      both eq safeCanonicalType db v1 v2 k ::
      mark (phase3At v1 v2 k) .optional (outputAt eq safeCanonicalType db v1 v2 k).reverse ∧
    (phase3At v1 v2 (k + 1) : Option (Spec β)) = some .optional := by
  have here := @boths_length _ _ _ eq safeCanonicalType db v1 v2 k
  refine ⟨?_, if_neg (by omega)⟩
  simp only [outputAt]
  rw [boths_succ, take_append_of_le_length (by omega),
    drop_append_of_le_length (by omega), phase3At]
  split
  · rw [drop_eq_nil_of_le (by omega : (boths eq safeCanonicalType db v1 v2 k).length ≤ _)]
    simp [optTokens, mark]
  · have some' :
      (boths eq safeCanonicalType db v1 v2 k).drop (max v1.req.length v2.req.length) ≠ [] := by
      rw [Ne, drop_eq_nil_iff]
      omega
    simp [optTokens, mark, some']

omit [DecidableEq β] in
theorem phase_succ (v : Values β) (k : Nat) :
    v.phase (k + 1) = none ∧ k < v.req.length ∨ v.phase (k + 1) = some .optional ∧
      v.req.length ≤ k ∧ k < v.length ∨
      v.phase (k + 1) = some .rest ∧ v.req.length ≤ k ∧ v.length ≤ k := by
  have total : v.length = v.req.length + v.opt.length := rfl
  rw [Values.phase]
  split
  · exact .inl ⟨rfl, by omega⟩
  · split
    · exact .inr (.inl ⟨rfl, by omega, by omega⟩)
    · exact .inr (.inr ⟨rfl, by omega, by omega⟩)

theorem both_eq (type1 : v1.typeAt k = some s1) (type2 : v2.typeAt k = some s2) :
    both eq safeCanonicalType db v1 v2 k = typeAnd eq safeCanonicalType db s1 s2 := by
  rw [both, type1, type2]
  rfl

/-- The loop from some types on. -/
def loopAt (eq : Spec β → Spec β → Bool) (safeCanonicalType : Spec β → σ → Tag × σ) (db : σ)
    (v1 v2 : Values β)
    (fuel k : Nat) : Option (ValuesType β) :=
  doValuesTypeAnd eq safeCanonicalType db fuel (v1.left k) (v2.left k) (v1.phase k) (v2.phase k)
    (phase3At v1 v2 k)
    (outputAt eq safeCanonicalType db v1 v2 k).reverse

theorem loopAt_round (type1 : v1.typeAt k = some s1) (type2 : v2.typeAt k = some s2)
    (goesOn : ¬(v1.length ≤ k ∧ v2.length ≤ k)) :
    loopAt eq safeCanonicalType db v1 v2 (fuel + 1) k =
      loopAt eq safeCanonicalType db v1 v2 fuel (k + 1) := by
  obtain ⟨after1, enter1, left1⟩ := Values.enter_left type1
  obtain ⟨after2, enter2, left2⟩ := Values.enter_left type2
  have filled : ¬(v1.left k = [] ∨ v2.left k = []) := fun empty =>
    empty.elim (Values.left_ne_nil type1) (Values.left_ne_nil type2)
  rw [loopAt, loopAt, doValuesTypeAnd, if_neg filled, enter1, enter2]
  dsimp only
  rw [left1, left2, ← both_eq type1 type2]
  by_cases required : k < max v1.req.length v2.req.length
  · obtain ⟨output, phase3⟩ := @outputAt_required _ _ _ eq safeCanonicalType db v1 v2 k required
    rw [output, phase3, reverse_append, reverse_singleton, singleton_append]
    obtain ⟨phase1, low1⟩ | ⟨phase1, high1, -⟩ | ⟨phase1, high1, -⟩ := phase_succ v1 k <;>
    obtain ⟨phase2, low2⟩ | ⟨phase2, high2, -⟩ | ⟨phase2, high2, -⟩ := phase_succ v2 k <;>
    first
    | omega
    | simp [phase1, phase2]
  · obtain ⟨output, phase3⟩ := @outputAt_optional _ _ _ eq safeCanonicalType db v1 v2 k (by omega)
    rw [output, phase3]
    obtain ⟨phase1, low1⟩ | ⟨phase1, high1, -⟩ | ⟨phase1, high1, far1⟩ := phase_succ v1 k <;>
    obtain ⟨phase2, low2⟩ | ⟨phase2, high2, -⟩ | ⟨phase2, high2, far2⟩ := phase_succ v2 k <;>
    first
    | omega
    | simp [phase1, phase2]

theorem loopAt_rest (type1 : v1.typeAt k = some s1) (type2 : v2.typeAt k = some s2)
    (far1 : v1.length ≤ k)
    (far2 : v2.length ≤ k) :
    loopAt eq safeCanonicalType db v1 v2 (fuel + 2) k =
      some (.values
        (outputAt eq safeCanonicalType db v1 v2 k ++
        [.rest, both eq safeCanonicalType db v1 v2 k])) := by
  obtain ⟨after1, enter1, left1⟩ := Values.enter_left type1
  obtain ⟨after2, enter2, left2⟩ := Values.enter_left type2
  have filled : ¬(v1.left k = [] ∨ v2.left k = []) := fun empty =>
    empty.elim (Values.left_ne_nil type1) (Values.left_ne_nil type2)
  have total1 : v1.length = v1.req.length + v1.opt.length := rfl
  have total2 : v2.length = v2.req.length + v2.opt.length := rfl
  have phase1 :
    v1.phase (k + 1) = some .rest := by rw [Values.phase, if_neg (by omega), if_neg (by omega)]
  have phase2 :
    v2.phase (k + 1) = some .rest := by rw [Values.phase, if_neg (by omega), if_neg (by omega)]
  have notRest : (phase3At v1 v2 k : Option (Spec β)) ≠ some .rest := by
    rw [phase3At]
    split <;> simp
  rw [loopAt, doValuesTypeAnd, if_neg filled, enter1, enter2]
  dsimp only
  rw [← both_eq type1 type2]
  simp [phase1, phase2, doValuesTypeAnd, mark, notRest]

/-- When nothing is left of one, there is an output unless a type is left of the other before its
next phase. -/
theorem loopAt_end (ended : v1.typeAt k = none ∨ v2.typeAt k = none) :
    loopAt eq safeCanonicalType db v1 v2 (fuel + 1) k =
      some (if (v1.typeAt k = none ∨ k = v1.req.length ∨ k = v1.length) ∧
          (v2.typeAt k = none ∨ k = v2.req.length ∨ k = v2.length) then
        .values (outputAt eq safeCanonicalType db v1 v2 k) else .ordinary .nil) := by
  have empty (v : Values β) : v.left k = [] ↔ v.typeAt k = none := by
    refine ⟨fun nil => ?_, Values.left_eq_nil⟩
    cases type : v.typeAt k with
    | none => rfl
    | some s => exact absurd nil (Values.left_ne_nil type)
  have begins (v : Values β) : v.left k = [] ∨ marked (v.left k) = true ↔
      v.typeAt k = none ∨ k = v.req.length ∨ k = v.length := by
    cases type : v.typeAt k with
    | none => exact iff_of_true (.inl (Values.left_eq_nil type)) (.inl rfl)
    | some s =>
      have filled : some s ≠ none := Option.some_ne_none s
      rw [Values.marked_left type, or_iff_right (Values.left_ne_nil type), or_iff_right filled]
  have nothing : marked ([] : List (Spec β)) = false := rfl
  rw [loopAt, doValuesTypeAnd, if_pos (ended.imp (empty v1).mpr (empty v2).mpr), reverse_reverse]
  refine congrArg some (if_congr ?_ rfl rfl)
  rw [← begins v1, ← begins v2]
  obtain none | none := ended
  · rw [(empty v1).mpr none, nothing]
    simp
  · rw [(empty v2).mpr none, nothing]
    simp

theorem loopAt_run (k : Nat) (inside : ∀ i < k, v1.typeAt i ≠ none ∧ v2.typeAt i ≠ none ∧
    ¬(v1.length ≤ i ∧ v2.length ≤ i)) :
    loopAt eq safeCanonicalType db v1 v2 (k + fuel) 0 =
      loopAt eq safeCanonicalType db v1 v2 fuel k := by
  induction k generalizing fuel with
  | zero => rw [Nat.zero_add]
  | succ k ih =>
    obtain ⟨some1, some2, goesOn⟩ := inside k (Nat.lt_succ_self k)
    obtain ⟨s1, type1⟩ := Option.ne_none_iff_exists'.mp some1
    obtain ⟨s2, type2⟩ := Option.ne_none_iff_exists'.mp some2
    rw [Nat.succ_add_eq_add_succ, ih fun i below => inside i (Nat.lt_succ_of_lt below),
      loopAt_round type1 type2 goesOn]

theorem doValuesTypeAnd_eq (fuel : Nat) :
    doValuesTypeAnd eq safeCanonicalType db fuel v1.tokens v2.tokens none none none [] =
      loopAt eq safeCanonicalType db v1 v2 fuel 0 := by
  have output :
    outputAt eq safeCanonicalType db v1 v2 0 = [] := by simp [outputAt, boths, optTokens]
  have start (v : Values β) : v.left 0 = v.tokens := if_pos (Nat.zero_le _)
  have phase (v : Values β) : v.phase 0 = none := if_pos (Nat.zero_le _)
  have phase3 : (phase3At v1 v2 0 : Option (Spec β)) = none := if_pos (Nat.zero_le _)
  rw [loopAt, output, start, start, phase, phase, phase3, reverse_nil]

end Loop

/-- Where the loop ends over two VALUES types that are not both open. -/
def ending {β : Type} (v1 v2 : Values β) : Option Nat :=
  match v1.rest, v2.rest with
  | none, none => some (min v1.length v2.length)
  | none, some _ => some v1.length
  | some _, none => some v2.length
  | some _, some _ => none

theorem tokens_length {β : Type} (v : Values β) : v.length ≤ v.tokens.length ∧
    (v.rest ≠ none → v.length + 1 ≤ v.tokens.length) := by
  have total : v.length = v.req.length + v.opt.length := rfl
  have opts : v.opt.length ≤ (optTokens v.opt).length := by
    rw [optTokens]
    split
    · rename_i empty
      rw [isEmpty_iff.mp empty]
    · exact Nat.le_succ _
  rw [Values.tokens, length_append, length_append]
  refine ⟨by omega, fun given => ?_⟩
  cases rest : v.rest with
  | none => exact absurd rest given
  | some s =>
    have two : (restTokens (some s)).length = 2 := rfl
    omega

section Allowed

variable {β σ V : Type} (base : β → V → Prop) (null : V)

def Allowed : ValuesType β → List V → Prop
  | .ordinary type, vals => ∃ x, vals = [x] ∧ type.Has base null x
  | .values l, vals => ∃ v : Values β, v.tokens = l ∧ v.Allows base null vals

inductive Given (β : Type) where
  | ordinary (type : Spec β)
  | values (v : Values β)

def Given.type : Given β → ValuesType β
  | ordinary type => .ordinary type
  | values v => .values v.tokens

def Given.Allows : Given β → List V → Prop
  | ordinary type, vals => ∃ x, vals = [x] ∧ type.Has base null x
  | values v, vals => v.Allows base null vals

/-- The parts of two types at which values-type-and does not give up. -/
def Given.Meets : Given β → Given β → Prop
  | ordinary _, ordinary _ => True
  | values v, ordinary _ => v.req.length ≠ 1 ∨ v.opt = [] ∧ v.rest = none
  | ordinary _, values v => v.req.length ≠ 1 ∨ v.opt = [] ∧ v.rest = none
  | values v1, values v2 => ∀ e, ending v1 v2 = some e →
      (e = v1.req.length ∨ e = v1.length) ∧ (e = v2.req.length ∨ e = v2.length)

variable {base null} [DecidableEq β] {eq : Spec β → Spec β → Bool}
  {safeCanonicalType : Spec β → σ → Tag × σ} {db : σ}

theorem output_allowed (tagged : Tagged base null eq safeCanonicalType) {v1 v2 : Values β} {k : Nat}
    {rest : Option (Spec β)}
    {vals : List V} (inside : ∀ i < k, v1.typeAt i ≠ none ∧ v2.typeAt i ≠ none)
    (allowed1 : v1.Allows base null vals) (allowed2 : v2.Allows base null vals)
    (few : rest = none → vals.length ≤ k)
    (open' : ∀ s, rest = some s → s.Plain ∧ ∀ x, ∀ i ≥ k, vals[i]? = some x → s.Has base null x) :
    Allowed base null
      (.values (outputAt eq safeCanonicalType db v1 v2 k ++ restTokens rest)) vals := by
  have length := @boths_length _ _ _ eq safeCanonicalType db v1 v2 k
  have types (i : Nat) (below : i < k) : ∃ s1 s2, v1.typeAt i = some s1 ∧ v2.typeAt i = some s2 ∧
      (boths eq safeCanonicalType db v1 v2 k)[i]? =
        some (typeAnd eq safeCanonicalType db s1 s2) := by
    obtain ⟨some1, some2⟩ := inside i below
    obtain ⟨s1, type1⟩ := Option.ne_none_iff_exists'.mp some1
    obtain ⟨s2, type2⟩ := Option.ne_none_iff_exists'.mp some2
    refine ⟨s1, s2, type1, type2, ?_⟩
    rw [boths, List.getElem?_map, List.getElem?_range below, Option.map_some, both_eq type1 type2]
  have plain (s : Spec β) (member : s ∈ boths eq safeCanonicalType db v1 v2 k) : s.Plain := by
    obtain ⟨i, below, same⟩ := getElem_of_mem member
    obtain ⟨s1, s2, type1, type2, here⟩ := types i (length ▸ below)
    rw [List.getElem?_eq_getElem below, same, Option.some.injEq] at here
    rw [here]
    exact typeAnd_plain (Values.typeAt_plain type1) (Values.typeAt_plain type2)
  have whole :=
    take_append_drop (max v1.req.length v2.req.length) (boths eq safeCanonicalType db v1 v2 k)
  have parts (s : Spec β)
    (given : s ∈ (boths eq safeCanonicalType db v1 v2 k).take (max v1.req.length v2.req.length) ++
      (boths eq safeCanonicalType db v1 v2 k).drop (max v1.req.length v2.req.length) ∨
        rest = some s) : s.Plain :=
    given.elim (fun member => plain s (whole ▸ member)) fun same => (open' s same).1
  refine ⟨⟨_, _, rest, parts⟩, (append_assoc _ _ _).symm, ?_, ?_, ?_⟩
  · have enough1 := allowed1.enough
    have enough2 := allowed2.enough
    rw [length_take]
    omega
  · intro none
    have limit := few none
    rw [Values.length, ← length_append, whole]
    omega
  · intro i x s value type
    rw [Values.typeAt] at type
    dsimp only at type
    rw [whole] at type
    by_cases below : i < k
    · obtain ⟨s1, s2, type1, type2, here⟩ := types i below
      rw [here, Option.some_or, Option.some.injEq] at type
      rw [← type]
      exact typeAnd_has tagged (allowed1.has i x s1 value type1) (allowed2.has i x s2 value type2)
    · rw [List.getElem?_eq_none (by omega), Option.none_or] at type
      exact (open' s type).2 x i (by omega) value

omit [DecidableEq β] in
theorem ending_some {v1 v2 : Values β} {e : Nat} (ends : ending v1 v2 = some e) :
    (∀ i < e, v1.typeAt i ≠ none ∧ v2.typeAt i ≠ none ∧ ¬(v1.length ≤ i ∧ v2.length ≤ i)) ∧
      (v1.typeAt e = none ∨ v2.typeAt e = none) ∧ e ≤ v1.tokens.length + v2.tokens.length ∧
      ((v1.rest = none ∧ e = v1.length) ∨ v2.rest = none ∧ e = v2.length) ∧
      (v1.typeAt e = none → e = v1.length) ∧ (v2.typeAt e = none → e = v2.length) := by
  have long1 := (tokens_length v1).1
  have long2 := (tokens_length v2).1
  simp only [Values.typeAt_eq_none, ne_eq]
  rw [ending] at ends
  cases rest1 : v1.rest <;> cases rest2 : v2.rest <;> rw [rest1, rest2] at ends <;> cases ends <;>
    simp only [reduceCtorEq, and_false, and_true, false_and, true_and, not_false_eq_true,
      or_false, false_or,
      false_implies, implies_true] <;>
    refine ⟨fun i below => ?_, ?_⟩ <;> omega

omit [DecidableEq β] in
theorem ending_none {v1 v2 : Values β} (ends : ending v1 v2 = none) :
    ∃ s1 s2, v1.rest = some s1 ∧ v2.rest = some s2 := by
  rw [ending] at ends
  cases rest1 : v1.rest <;> cases rest2 : v2.rest <;> rw [rest1, rest2] at ends <;> cases ends
  exact ⟨_, _, rfl, rfl⟩

omit [DecidableEq β] in
theorem not_allowed_nil {vals : List V} : ¬Allowed base null (.ordinary (.nil : Spec β)) vals := by
  rintro ⟨_, -, never⟩
  exact never

theorem doValuesTypeAnd_iff (tagged : Tagged base null eq safeCanonicalType) (v1 v2 : Values β) :
    ∃ result, doValuesTypeAnd eq safeCanonicalType db
      (v1.tokens.length + v2.tokens.length + 1) v1.tokens v2.tokens
        none none none [] = some result ∧
      ((∀ vals, v1.Allows base null vals → v2.Allows base null vals →
        Allowed base null result vals) ↔
        (Given.values v1).Meets (.values v2) ∨ ¬∃ vals, v1.Allows base null vals ∧
          v2.Allows base null vals) := by
  rw [doValuesTypeAnd_eq]
  cases ends : ending v1 v2 with
  | none =>
    obtain ⟨s1, s2, rest1, rest2⟩ := ending_none ends
    have long1 := (tokens_length v1).2 (by rw [rest1]; exact Option.some_ne_none s1)
    have long2 := (tokens_length v2).2 (by rw [rest2]; exact Option.some_ne_none s2)
    have given (v : Values β) {s : Spec β} (rest : v.rest = some s) (i : Nat) : v.typeAt i ≠ none :=
      fun none => by
      have noRest := (Values.typeAt_eq_none.mp none).2
      rw [rest] at noRest
      cases noRest
    have last (v : Values β) {s : Spec β} (rest : v.rest = some s) {i : Nat} (far : v.length ≤ i) :
        v.typeAt i = some s := by
      rw [Values.typeAt, List.getElem?_eq_none (by rw [length_append]; exact far),
        Option.none_or, rest]
    obtain ⟨fuel, fuel_eq⟩ : ∃ fuel, v1.tokens.length + v2.tokens.length + 1 =
        max v1.length v2.length + (fuel + 2) :=
          ⟨v1.tokens.length + v2.tokens.length - 1 - max v1.length v2.length, by omega⟩
    have type1 := last v1 rest1 (Nat.le_max_left v1.length v2.length)
    have type2 := last v2 rest2 (Nat.le_max_right v1.length v2.length)
    rw [fuel_eq, loopAt_run _ fun i below => ⟨given v1 rest1 i, given v2 rest2 i, by omega⟩,
      loopAt_rest type1 type2 (Nat.le_max_left _ _) (Nat.le_max_right _ _)]
    refine ⟨_, rfl, iff_of_true (fun vals allowed1 allowed2 => ?_) (.inl fun e some => ?_)⟩
    · have closed :
        (some (both eq safeCanonicalType db v1 v2 (max v1.length v2.length)) : Option (Spec β)) =
        none →
          vals.length ≤ max v1.length v2.length := fun never => by cases never
      refine output_allowed tagged (fun i _ => ⟨given v1 rest1 i, given v2 rest2 i⟩) allowed1
        allowed2 closed
        fun s same => ?_
      cases same
      rw [both_eq type1 type2]
      exact ⟨typeAnd_plain (Values.typeAt_plain type1) (Values.typeAt_plain type2),
        fun x i far value =>
        typeAnd_has tagged (allowed1.has i x s1 value (last v1 rest1 (by omega)))
          (allowed2.has i x s2 value (last v2 rest2 (by omega)))⟩
    · rw [ends] at some
      cases some
  | some e =>
    obtain ⟨inside, ended, short, limit, end1, end2⟩ := ending_some ends
    obtain ⟨fuel, fuel_eq⟩ : ∃ fuel, v1.tokens.length + v2.tokens.length + 1 = e + (fuel + 1) :=
      ⟨v1.tokens.length + v2.tokens.length - e, by omega⟩
    rw [fuel_eq, loopAt_run e inside, loopAt_end ended]
    refine ⟨_, rfl, ?_⟩
    have meets : (Given.values v1).Meets (.values v2) ↔
        (v1.typeAt e = none ∨ e = v1.req.length ∨ e = v1.length) ∧
          (v2.typeAt e = none ∨ e = v2.req.length ∨ e = v2.length) := by
      refine ⟨fun all => (all e ends).imp .inr .inr, fun both e' same => ?_⟩
      rw [ends, Option.some.injEq] at same
      subst same
      exact both.imp (fun one => one.elim (fun none => .inr (end1 none)) id)
        fun two => two.elim (fun none => .inr (end2 none)) id
    rw [meets]
    split
    · rename_i good
      refine iff_of_true (fun vals allowed1 allowed2 => ?_) (.inl good)
      have output :=
        @output_allowed _ _ _ base null _ eq safeCanonicalType db tagged v1 v2 e none vals
        (fun i below => ⟨(inside i below).1, (inside i below).2.1⟩) allowed1 allowed2
        (fun _ => limit.elim (fun one => one.2 ▸ allowed1.few one.1) fun two =>
          two.2 ▸ allowed2.few two.1) (fun s never => by cases never)
      rwa [restTokens, append_nil] at output
    · rename_i bad
      rw [or_iff_right bad]
      exact ⟨fun sound some => some.elim fun vals allowed =>
        not_allowed_nil (sound vals allowed.1 allowed.2),
        fun no vals allowed1 allowed2 => absurd ⟨vals, allowed1, allowed2⟩ no⟩

theorem valuesAndOrdinary_iff (tagged : Tagged base null eq safeCanonicalType) (v : Values β)
    (type : Spec β) :
    (∀ vals, v.Allows base null vals → (∃ x, vals = [x] ∧ type.Has base null x) →
      Allowed base null (valuesAndOrdinary eq safeCanonicalType db v.tokens type) vals) ↔
      (v.req.length ≠ 1 ∨ v.opt = [] ∧ v.rest = none) ∨
        ¬∃ vals, v.Allows base null vals ∧ ∃ x, vals = [x] ∧ type.Has base null x := by
  have first {s : Spec β} (typeAt : v.typeAt 0 = some s) (vals : List V)
    (allowed : v.Allows base null vals)
      (one : ∃ x, vals = [x] ∧ type.Has base null x) :
      Allowed base null (.ordinary (typeAnd eq safeCanonicalType db s type)) vals := by
    obtain ⟨x, rfl, has⟩ := one
    exact ⟨x, rfl, typeAnd_has tagged (allowed.has 0 x s rfl typeAt) has⟩
  rw [Values.tokens, valuesAndOrdinary]
  cases req : v.req with
  | nil =>
    refine iff_of_true ?_ (.inl (.inl (by simp)))
    cases opt : v.opt with
    | nil =>
      cases rest : v.rest with
      | none =>
        rintro vals allowed ⟨x, rfl, -⟩
        have few := allowed.few rest
        rw [Values.length, req, opt] at few
        exact absurd few (Nat.not_succ_le_zero 0)
      | some s => exact first (by rw [Values.typeAt, req, opt, rest]; rfl)
    | cons s opt' => exact first (by rw [Values.typeAt, req, opt]; rfl)
  | cons s req' =>
    have isFirst : v.typeAt 0 = some s := by
      rw [Values.typeAt, req]
      rfl
    rw [cons_append, Values.marked_plain (Values.typeAt_plain isFirst), if_neg Bool.false_ne_true,
      tail_cons, headD_cons]
    by_cases alone : req' ++ (optTokens v.opt ++ restTokens v.rest) = []
    · rw [if_pos alone]
      refine iff_of_true (first isFirst) (.inl (.inr ?_))
      have parts := (append_eq_nil_iff.mp (append_eq_nil_iff.mp alone).2)
      refine ⟨?_, ?_⟩
      · cases opt : v.opt with
        | nil => rfl
        | cons s' opt' =>
          rw [opt] at parts
          cases parts.1
      · cases rest : v.rest with
        | none => rfl
        | some s' =>
          rw [rest] at parts
          cases parts.2
    · rw [if_neg alone]
      have more : ¬(v.opt = [] ∧ v.rest = none) ∨ req' ≠ [] := by
        by_contra no
        rw [not_or, not_not, not_not] at no
        rw [no.1.1, no.1.2, no.2] at alone
        exact alone rfl
      constructor
      · exact fun sound => .inr fun some =>
          some.elim fun vals allowed => not_allowed_nil (sound vals allowed.1 allowed.2)
      · rintro (shape | no) vals allowed one
        · have enough := allowed.enough
          obtain ⟨x, rfl, -⟩ := one
          rw [req] at enough
          have none : req' = [] :=
            length_eq_zero_iff.mp (Nat.le_zero.mp (Nat.le_of_succ_le_succ enough))
          rw [none] at shape more
          exact absurd (shape.resolve_left fun no => no rfl) (more.resolve_right fun no => no rfl)
        · exact absurd ⟨vals, allowed, one⟩ no

end Allowed

section Types

variable {β σ V : Type} {base : β → V → Prop} {null : V}

theorem toNTypesLoop_zero (l output : List (Spec β)) :
    toNTypesLoop l output 0 = some output.reverse := by
  cases l <;> rfl

theorem toNTypesLoop_plain {s : Spec β} (plain : s.Plain) (l output : List (Spec β)) (n : Nat) :
    toNTypesLoop (s :: l) output (n + 1) = toNTypesLoop l (s :: output) n := by
  have notOptional := plain.notOptional
  have notRest := plain.notRest
  rw [toNTypesLoop.eq_def]
  split <;> simp_all

theorem toNTypesLoop_append {types : List (Spec β)} (plain : ∀ s ∈ types, s.Plain)
    (l output : List (Spec β)) (n : Nat) :
    toNTypesLoop (types ++ l) output n =
      if n ≤ types.length then some (output.reverse ++ types.take n)
      else toNTypesLoop l (types.reverse ++ output) (n - types.length) := by
  induction types generalizing output n with
  | nil =>
    cases n with
    | zero => rw [toNTypesLoop_zero, if_pos (Nat.zero_le _), take_nil, append_nil]
    | succ n => rfl
  | cons s types ih =>
    cases n with
    | zero => rw [toNTypesLoop_zero, if_pos (Nat.zero_le _), take_zero, append_nil]
    | succ n =>
      rw [cons_append, toNTypesLoop_plain (plain s mem_cons_self), ih fun s member =>
        plain s (.tail _ member)]
      simp only [length_cons, Nat.succ_le_succ_iff, reverse_cons, append_assoc, singleton_append,
        take_succ_cons, Nat.add_sub_add_right]

theorem valuesTypeToNTypes_eq (v : Values β) (n : Nat) :
    valuesTypeToNTypes (.values v.tokens) n =
      some ((v.req ++ v.opt).take n ++ if v.rest =
        none then [] else List.replicate (n - v.length) .nil) := by
  have plain (s : Spec β) (member : s ∈ v.req ++ v.opt) : s.Plain := v.plain s (.inl member)
  have total : v.length = v.req.length + v.opt.length := rfl
  rw [valuesTypeToNTypes, Values.tokens, toNTypesLoop_append fun s member =>
    plain s (mem_append_left _ member)]
  split
  · rename_i few
    rw [take_append_of_le_length few, Nat.sub_eq_zero_of_le (by omega), replicate_zero, ite_self,
      append_nil, reverse_nil, nil_append]
  · rename_i many
    obtain ⟨k, k_eq⟩ : ∃ k, n - v.req.length = k + 1 := ⟨n - v.req.length - 1, by omega⟩
    have opts : toNTypesLoop (optTokens v.opt ++ restTokens v.rest) (v.req.reverse ++ []) (k + 1) =
        toNTypesLoop (v.opt ++ restTokens v.rest) (v.req.reverse ++ []) (k + 1) := by
      cases opt : v.opt with
      | nil => rfl
      | cons s opt' =>
        rw [cons_append, toNTypesLoop_plain (plain s (by rw [opt]; simp))]
        rfl
    rw [k_eq, opts, toNTypesLoop_append fun s member => plain s (mem_append_right _ member)]
    have front : (v.req ++ v.opt).take n = v.req ++ v.opt.take (k + 1) := by
      rw [take_append, take_of_length_le (by omega), k_eq]
    rw [front, append_nil]
    split
    · rename_i few
      rw [Nat.sub_eq_zero_of_le (by omega), replicate_zero, ite_self, append_nil, reverse_reverse]
    · rename_i many'
      rw [take_of_length_le (by omega : v.opt.length ≤ k + 1)]
      cases rest : v.rest with
      | none =>
        rw [if_pos rfl, append_nil, restTokens, toNTypesLoop]
        simp
      | some s =>
        obtain ⟨j, j_eq⟩ : ∃ j, k + 1 - v.opt.length = j + 1 := ⟨k - v.opt.length, by omega⟩
        rw [if_neg (Option.some_ne_none s), j_eq, show n - v.length = j + 1 by omega]
        simp [restTokens, toNTypesLoop]

/-- A list of types for the first values, where NIL stands for those that are missing. -/
def NTypes (base : β → V → Prop) (null : V) (a : Given β) (n : Nat) (types : List (Spec β)) :
    Prop :=
  types.length = n ∧ ∀ vals : List V, a.Allows base null vals →
    ∀ (i : Nat) (s : Spec β), types[i]? = some s →
    s.Has base null (vals[i]?.getD null)

/-- The values that are asked for are required, or they may be NIL. -/
def Given.Fills (base : β → V → Prop) (null : V) (n : Nat) : Given β → Prop
  | ordinary _ => True
  | values v =>
      n ≤ v.req.length ∨ n ≤ v.length ∧
      (∀ s ∈ v.opt.take (n - v.req.length), s.Has base null null) ∨
      (n ≤ v.length ∨ v.rest ≠ none) ∧ ¬∃ vals, v.Allows base null vals

theorem Values.Allows.required {v : Values β} {vals : List V} (allowed : v.Allows base null vals) :
    v.Allows base null (vals.take v.req.length) := by
  have enough := allowed.enough
  refine ⟨?_, fun _ => ?_, fun i x s value type => ?_⟩
  · rw [length_take]
    omega
  · rw [length_take, Values.length]
    omega
  · rw [List.getElem?_take] at value
    split at value
    · exact allowed.has i x s value type
    · cases value

theorem valuesTypeToNTypes_iff (a : Given β) {n : Nat} (positive : 1 ≤ n) :
    (∃ types, valuesTypeToNTypes a.type n = some types ∧ NTypes base null a n types) ↔
      a.Fills base null n := by
  cases a with
  | ordinary type =>
    refine iff_of_true ⟨_, rfl, ?_, ?_⟩ trivial
    · exact congrArg Nat.succ length_replicate |>.trans (Nat.sub_add_cancel positive)
    · rintro vals ⟨x, rfl, has⟩ i s given
      cases i with
      | zero =>
        cases given
        exact has
      | succ i =>
        rw [List.getElem?_cons_succ] at given
        rw [eq_of_mem_replicate (mem_of_getElem? given)]
        rfl
  | values v =>
    have total : v.length = v.req.length + v.opt.length := rfl
    have inside {i : Nat} (below : i < v.length) {s : Spec β}
      (here : (v.req ++ v.opt)[i]? = some s) :
        v.typeAt i = some s := by
      rw [Values.typeAt, here, Option.some_or]
    rw [Given.type, valuesTypeToNTypes_eq, Given.Fills]
    constructor
    · rintro ⟨types, same, length, has⟩
      cases same
      by_cases few : n ≤ v.req.length
      · exact .inl few
      · by_cases some : ∃ vals, v.Allows base null vals
        · obtain ⟨vals, allowed⟩ := some
          have missing (i : Nat) (beyond : v.req.length ≤ i) :
            (vals.take v.req.length)[i]?.getD null = null := by
            rw [List.getElem?_eq_none (by rw [length_take]; omega), Option.getD_none]
          by_cases short : n ≤ v.length
          · refine .inr (.inl ⟨short, fun s member => ?_⟩)
            obtain ⟨j, below, here⟩ := getElem_of_mem member
            rw [length_take] at below
            have value := has _ allowed.required (v.req.length + j) s (by
              rw [List.getElem?_append_left (by rw [length_take, length_append]; omega),
                List.getElem?_take_of_lt (by omega), List.getElem?_append_right (by omega),
                  Nat.add_sub_cancel_left,
                ← here, getElem_take, List.getElem?_eq_getElem])
            rwa [missing _ (Nat.le_add_right _ _)] at value
          · split at length
            · rw [append_nil, length_take, length_append] at length
              omega
            · rename_i isRest
              have never := has vals allowed v.length .nil (by
                rw [if_neg isRest,
                  List.getElem?_append_right (by rw [length_take, length_append]; omega)]
                rw [List.getElem?_replicate, if_pos (by rw [length_take, length_append]; omega)])
              exact absurd never id
        · refine .inr (.inr ⟨?_, some⟩)
          split at length
          · rw [append_nil, length_take, length_append] at length
            exact .inl (by omega)
          · rename_i isRest
            exact .inr isRest
    · intro fills
      refine ⟨_, rfl, ?_, fun vals allowed i s given => ?_⟩
      · have long : n ≤ v.length ∨ v.rest ≠ none := by
          obtain few | short | open' := fills
          · exact .inl (by omega)
          · exact .inl short.1
          · exact open'.1
        rw [length_append, length_take, length_append]
        split
        · rename_i noRest
          have short := long.resolve_right (not_not.mpr noRest)
          rw [length_nil]
          omega
        · rw [length_replicate]
          omega
      · have allowed : v.Allows base null vals := allowed
        have enough := allowed.enough
        have short : n ≤ v.length := by
          obtain few | short | never := fills
          · omega
          · exact short.1
          · exact absurd ⟨vals, allowed⟩ never.2
        rw [Nat.sub_eq_zero_of_le short, replicate_zero, ite_self, append_nil,
          List.getElem?_take] at given
        split at given
        · rename_i below
          cases value : vals[i]? with
          | some x => exact allowed.has i x s value (inside (by omega) given)
          | none =>
            have beyond := List.getElem?_eq_none_iff.mp value
            obtain few | some | never := fills
            · omega
            · refine some.2 s (mem_of_getElem? (i := i - v.req.length) ?_)
              rw [List.getElem?_take_of_lt (by omega), ← List.getElem?_append_right (by omega)]
              exact given
            · exact absurd ⟨vals, allowed⟩ never.2
        · cases given

variable [DecidableEq β] {eq : Spec β → Spec β → Bool}
  {safeCanonicalType : Spec β → σ → Tag × σ} {db : σ}

theorem valuesTypePrimaryType_iff (tagged : Tagged base null eq safeCanonicalType) (a : Given β) :
    (∃ s, valuesTypePrimaryType eq safeCanonicalType db a.type = some s ∧
      ∀ vals, a.Allows base null vals → s.Has base null (vals.head?.getD null)) ↔
        a.type ≠ .values [] := by
  cases a with
  | ordinary type =>
    refine iff_of_true ⟨type, rfl, ?_⟩ (fun never => by cases never)
    rintro vals ⟨x, rfl, has⟩
    exact has
  | values v =>
    have orNull {s : Spec β} (type : v.typeAt 0 = some s) (vals : List V)
      (allowed : v.Allows base null vals) :
        (typeOr eq safeCanonicalType db .null s).Has base null (vals.head?.getD null) := by
      refine typeOr_has tagged (fun never => by cases never) (Values.typeAt_plain type).notStar ?_
      cases vals with
      | nil => exact .inl rfl
      | cons x vals => exact .inr (allowed.has 0 x s rfl type)
    rw [Given.type, Values.tokens, valuesTypePrimaryType]
    cases req : v.req with
    | cons s req' =>
      have isFirst : v.typeAt 0 = some s := by
        rw [Values.typeAt, req]
        rfl
      rw [cons_append, Values.marked_plain (Values.typeAt_plain isFirst), if_neg Bool.false_ne_true]
      refine iff_of_true ⟨s, rfl, fun vals allowed => ?_⟩ (fun never => by cases never)
      have allowed : v.Allows base null vals := allowed
      have enough := allowed.enough
      cases vals with
      | nil =>
        rw [req] at enough
        cases enough
      | cons x vals => exact allowed.has 0 x s rfl isFirst
    | nil =>
      cases opt : v.opt with
      | cons s opt' =>
        have type : v.typeAt 0 = some s := by rw [Values.typeAt, req, opt]; rfl
        have plain := Values.typeAt_plain type
        refine iff_of_true ⟨_, ?_, orNull type⟩ (fun never => by cases never)
        exact if_neg (not_or.mpr ⟨plain.notOptional, plain.notRest⟩)
      | nil =>
        cases rest : v.rest with
        | some s =>
          have type : v.typeAt 0 = some s := by rw [Values.typeAt, req, opt, rest]; rfl
          have plain := Values.typeAt_plain type
          refine iff_of_true ⟨_, ?_, orNull type⟩ (fun never => by cases never)
          exact if_neg (not_or.mpr ⟨plain.notOptional, plain.notRest⟩)
        | none =>
          refine iff_of_false ?_ fun no => no rfl
          rintro ⟨s, same, has⟩
          cases same
          refine has []
            ⟨by rw [req]; exact Nat.le_refl _, fun _ => Nat.zero_le _, fun i x s never => ?_⟩
          cases never

theorem valuesTypeAnd_iff (tagged : Tagged base null eq safeCanonicalType) (a b : Given β) :
    (∃ result, valuesTypeAnd eq safeCanonicalType db a.type b.type = some result ∧
      ∀ vals, a.Allows base null vals → b.Allows base null vals → Allowed base null result vals) ↔
      a.type = b.type ∨ a.Meets b ∨ ¬∃ vals, a.Allows base null vals ∧ b.Allows base null vals := by
  have unique {p : ValuesType β → Prop} {result : ValuesType β} :
      (∃ result', some result = some result' ∧ p result') ↔ p result :=
    ⟨fun ⟨_, same, holds⟩ => Option.some.inj same ▸ holds, fun holds => ⟨result, rfl, holds⟩⟩
  by_cases same : a.type = b.type
  · refine iff_of_true ⟨a.type, if_pos same, fun vals allowed _ => ?_⟩ (.inl same)
    cases a with
    | ordinary type => exact allowed
    | values v => exact ⟨v, rfl, allowed⟩
  · rw [or_iff_right same, valuesTypeAnd.eq_def, if_neg same]
    cases a with
    | ordinary type1 =>
      cases b with
      | ordinary type2 =>
        refine iff_of_true ⟨_, rfl, ?_⟩ (.inl trivial)
        rintro vals ⟨x, rfl, has1⟩ ⟨_, one, has2⟩
        cases one
        exact ⟨x, rfl, typeAnd_has tagged has1 has2⟩
      | values v =>
        refine unique.trans (Iff.trans ⟨fun sound vals allowed one => sound vals one allowed,
          fun sound vals one allowed => sound vals allowed one⟩
          ((@valuesAndOrdinary_iff _ _ _ base null _ eq safeCanonicalType db tagged v type1).trans
            (or_congr Iff.rfl (not_congr ?_))))
        exact ⟨fun ⟨vals, allowed, one⟩ => ⟨vals, one, allowed⟩, fun ⟨vals, one, allowed⟩ =>
          ⟨vals, allowed, one⟩⟩
    | values v1 =>
      cases b with
      | ordinary type2 => exact unique.trans (valuesAndOrdinary_iff tagged v1 type2)
      | values v2 =>
        obtain ⟨result, run, law⟩ :=
          @doValuesTypeAnd_iff _ _ _ base null _ eq safeCanonicalType db tagged v1 v2
        rw [Given.type, Given.type]
        dsimp only
        rw [run]
        exact unique.trans law

/-- The type algebra of the compiler is sound for ordinary types, and for VALUES types exactly
under conditions on their parts. -/
theorem cmptype_sound (tagged : Tagged base null eq safeCanonicalType) (db : σ) :
    (∀ t1 t2, t1 ≠ .star → t2 ≠ .star → ∀ x,
      (t1.Has base null x → t2.Has base null x →
        (typeAnd eq safeCanonicalType db t1 t2).Has base null x) ∧
      (t1.Has base null x ∨ t2.Has base null x →
        (typeOr eq safeCanonicalType db t1 t2).Has base null x)) ∧
    (∀ a b : Given β, (∃ result, valuesTypeAnd eq safeCanonicalType db a.type b.type = some result ∧
        ∀ vals, a.Allows base null vals → b.Allows base null vals → Allowed base null result vals) ↔
      a.type = b.type ∨ a.Meets b ∨ ¬∃ vals, a.Allows base null vals ∧ b.Allows base null vals) ∧
    (∀ (a : Given β) n, 1 ≤ n →
      ((∃ types, valuesTypeToNTypes a.type n = some types ∧ NTypes base null a n types) ↔
        a.Fills base null n)) ∧
    ∀ a : Given β, (∃ s, valuesTypePrimaryType eq safeCanonicalType db a.type = some s ∧
      ∀ vals, a.Allows base null vals → s.Has base null (vals.head?.getD null)) ↔
        a.type ≠ .values [] :=
  ⟨fun _ _ notStar1 notStar2 _ => ⟨typeAnd_has tagged, typeOr_has tagged notStar1 notStar2⟩,
    valuesTypeAnd_iff tagged, fun a _ positive =>
      valuesTypeToNTypes_iff a positive, valuesTypePrimaryType_iff tagged⟩

end Types

/-- The tags, where NIL has the first bit and the other object the second. -/
def twoBits : Spec Unit → Option Int
  | .base _ => some 2
  | .nil => some 0
  | .null => some 1
  | .t | .star => some 3
  | .optional | .rest => none
  | .and t1 t2 => (twoBits t1).bind fun n1 => (twoBits t2).map (Int.land n1)
  | .or t1 t2 => (twoBits t1).bind fun n1 => (twoBits t2).map (Int.lor n1)

def twoTags (type : Spec Unit) (db : Unit) :
    Tag × Unit := ((twoBits type).elim .unknown .number, db)

theorem twoBits_has {type : Spec Unit} {n : Int} (bits : twoBits type = some n) (x : Bool) :
    type.Has (fun _ x => x = true) false x ↔ n.testBit x.toNat = true := by
  induction type generalizing n with
  | base b =>
    cases bits
    change x = true ↔ _
    cases x <;> decide
  | nil =>
    cases bits
    change False ↔ _
    cases x <;> decide
  | null =>
    cases bits
    change x = false ↔ _
    cases x <;> decide
  | t =>
    cases bits
    change True ↔ _
    cases x <;> decide
  | star =>
    cases bits
    change True ↔ _
    cases x <;> decide
  | optional => cases bits
  | rest => cases bits
  | and t1 t2 ih1 ih2 =>
    obtain ⟨n1, bits1, rest⟩ := Option.bind_eq_some_iff.mp bits
    obtain ⟨n2, bits2, rfl⟩ := Option.map_eq_some_iff.mp rest
    rw [Int.testBit_land, Bool.and_eq_true, ← ih1 bits1, ← ih2 bits2]
    rfl
  | or t1 t2 ih1 ih2 =>
    obtain ⟨n1, bits1, rest⟩ := Option.bind_eq_some_iff.mp bits
    obtain ⟨n2, bits2, rfl⟩ := Option.map_eq_some_iff.mp rest
    rw [Int.testBit_lor, Bool.or_eq_true, ← ih1 bits1, ← ih2 bits2]
    rfl

theorem twoTags_tagged :
    Tagged (fun _ x => x = true) false (fun t1 t2 => decide (t1 = t2)) twoTags where
  eq_same t1 t2 same := of_decide_eq_true same
  kinds db t1 t2 n1 n2 tag1 tag2 run := by
    refine ⟨Bool.toNat, fun x => ?_⟩
    simp only [tags, twoTags, Prod.mk.injEq] at run
    cases bits1 : twoBits t1 <;> cases bits2 : twoBits t2 <;> simp [bits1, bits2, Tag.toInt] at run
    obtain ⟨-, rfl, rfl⟩ := run
    exact ⟨twoBits_has bits1 x, twoBits_has bits2 x⟩

/-- (VALUES A &rest A). -/
def openValues : Values Unit := ⟨[.base ()], [], some (.base ()), by
  rintro s (member | same)
  · rw [append_nil, mem_singleton] at member
    rw [member]
    exact ⟨nofun, nofun, nofun⟩
  · cases same
    exact ⟨nofun, nofun, nofun⟩⟩

/-- (VALUES A A). -/
def twoValues : Values Unit := ⟨[.base (), .base ()], [], none, by
  rintro s (member | same)
  · rw [append_nil, mem_cons, mem_singleton, or_self] at member
    rw [member]
    exact ⟨nofun, nofun, nofun⟩
  · cases same⟩

theorem cmptype_sound_two :
    (∃ result, valuesTypeAnd (fun t1 t2 => decide (t1 = t2)) twoTags () (.values openValues.tokens)
        (.ordinary (.base ())) = some result ∧
      ∀ vals, openValues.Allows (fun _ x => x = true) false vals →
        (∃ x : Bool, vals = [x] ∧ x = true) → Allowed (fun _ x => x = true) false result vals) ↔
      (Given.values openValues).type = (Given.ordinary (.base ())).type ∨
        (Given.values openValues).Meets (.ordinary (.base ())) ∨
        ¬∃ vals, (Given.values openValues).Allows (fun _ x => x = true) false vals ∧
          (Given.ordinary (.base ())).Allows (fun _ x => x = true) false vals :=
  (cmptype_sound twoTags_tagged ()).2.1 (.values openValues) (.ordinary (.base ()))

/-- Two values of the type are allowed by (VALUES A &rest A) and by (VALUES A A), but not by NIL. -/
theorem valuesTypeAnd_open :
    ¬ ∀ v1 v2 : Values Unit, ∃ result,
      valuesTypeAnd (fun t1 t2 => decide (t1 = t2)) twoTags () (.values v1.tokens)
        (.values v2.tokens) = some result ∧
        ∀ vals : List Bool, v1.Allows (fun _ x => x = true) false vals →
          v2.Allows (fun _ x => x = true) false vals →
          Allowed (fun _ x => x = true) false result vals := by
  intro all
  obtain ⟨result, run, sound⟩ := all openValues twoValues
  have nothing :
    valuesTypeAnd (fun t1 t2 => decide (t1 = t2)) twoTags () (.values openValues.tokens)
      (.values twoValues.tokens) = some (.ordinary .nil) := by decide
  rw [nothing, Option.some.injEq] at run
  subst run
  have types (v : Values Unit) (only : ∀ i s, v.typeAt i = some s → s = .base ()) (i : Nat)
    (x : Bool) (s : Spec Unit)
      (value : [true, true][i]? = some x) (type : v.typeAt i = some s) :
        s.Has (fun _ x => x = true) false x := by
    rw [only i s type]
    obtain ⟨_, same⟩ := mem_replicate.mp (mem_of_getElem? value : x ∈ List.replicate 2 true)
    exact same
  refine not_allowed_nil (sound [true, true] ⟨by decide, nofun, types _ fun i s type => ?_⟩
    ⟨by decide, fun _ => by decide, types _ fun i s type => ?_⟩)
  · cases i with
    | zero => exact (Option.some.inj type).symm
    | succ i => exact (Option.some.inj type).symm
  · match i with
    | 0 => exact (Option.some.inj type).symm
    | 1 => exact (Option.some.inj type).symm
    | i + 2 => cases type

end Ecl.Cmptype
