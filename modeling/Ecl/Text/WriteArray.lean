import Mathlib.Data.List.Nodup
import Ecl.Arrays.RowMajor

/- The printer of arrays, write_array of print.d. -/
namespace Ecl.Text.WriteArray

open List Function

/-- What write_array writes. MARK, UNMARK and SET_INDENT tell the pretty printer where
lines may be broken. An object is written with *PRINT-LEVEL* bound to the level given. -/
inductive Token (E : Type) where
  | mark
  | unmark
  | setIndent
  | indent
  | openParen
  | closeParen
  | text (s : String)
  | number (n : Nat)
  | address
  | object (e : E) (level : Nat)
  deriving DecidableEq

/-- An array. The dimension of a vector is its fill pointer; the elements are in row major
order, and their number is a fixnum. -/
structure PrintArray (E : Type) where
  vector : Bool
  dims : List Nat
  elttype : String
  data : Nat → E
  rank : vector = true → dims.length = 1
  total : dims.prod < 2 ^ 61

/-- The printer variables, with MOST_POSITIVE_FIXNUM for a limit that is NIL. -/
structure Settings where
  readably : Bool
  array : Bool
  level : Nat
  length : Nat

/-- MOST_POSITIVE_FIXNUM. -/
def noLimit : Nat := 2 ^ 61 - 1

def Settings.printLevel (settings : Settings) : Nat :=
  if settings.readably then noLimit else settings.level

def Settings.printLength (settings : Settings) : Nat :=
  if settings.readably then noLimit else settings.length

section Odometer

variable {E : Type}

/-- The variables of the loop, and what it has written. -/
structure Odometer (E : Type) where
  subscripts : Nat → Nat
  m : Nat
  out : List (Token E)

namespace Odometer

def write (st : Odometer E) (tokens : List (Token E)) : Odometer E :=
  { st with out := st.out ++ tokens }

def set (st : Odometer E) (i s : Nat) : Odometer E :=
  { st with subscripts := Function.update st.subscripts i s }

end Odometer

-- `dims` are the first n dimensions; `leaf` is what stands below them
variable (dims : List Nat) (limit : Nat) (leaf : Nat → Token E)

/-- The loop over i, of which `left` rounds are left, and what follows it. The result is
the state at the label INC with the value of j + 1 and k there. -/
def descend : Nat → Nat → Odometer E → Odometer E × Nat × Nat
  | 0, i, st => (st.write [leaf st.m], i, 1)
  | left + 1, i, st =>
    let s := st.subscripts i
    let opened := if s = 0 then st.write [.mark, .openParen, .setIndent] else st
    if s = 0 ∧ dims.getD i 0 = 0 then (opened.write [.closeParen, .unmark], i, 0)
    else
      let st := if 0 < s then opened.write [.indent] else opened
      if limit ≤ s then
        ((st.write [.text "...", .closeParen, .unmark]).set i 0, i,
          (dims.getD i 0 - s) * (dims.drop (i + 1)).prod)
      else descend left (i + 1) st

/-- The loop at the label INC, from j + 1 on. It ends at the j whose subscript is less than
the dimension, if there is one. -/
def carry : Nat → Odometer E → Odometer E × Option Nat
  | 0, st => (st, none)
  | j + 1, st =>
    if st.subscripts j + 1 < dims.getD j 0 then (st.set j (st.subscripts j + 1), some j)
    else carry j ((st.set j 0).write [.closeParen, .unmark])

/-- The loop of write_array, from j on. It has no bound in the source, hence the fuel. -/
def writeLoop : Nat → Nat → Odometer E → Option (Odometer E)
  | 0, _, _ => none
  | fuel + 1, j, st =>
    match descend dims limit leaf (dims.length - j) j st with
    | (st, upto, k) =>
      match carry dims upto st with
      | (st, none) => some st
      | (st, some j) => writeLoop fuel j { st with m := st.m + k }

end Odometer

/-- The parts of a list or sub-array, which INDENT separates. -/
def separated {E : Type} : List (List (Token E)) → List (Token E)
  | [] => []
  | [part] => part
  | part :: next :: parts => part ++ .indent :: separated (next :: parts)

section WriteArray

variable {E : Type} (settings : Settings) (x : PrintArray E)

/-- What stands before the elements. -/
def header (n : Nat) : List (Token E) :=
  if settings.readably then
    [.text "#", .text "A", .openParen, .text x.elttype, .indent] ++
      (if 0 < n then
        [.openParen] ++ separated (x.dims.map fun d => [.number d]) ++ [.closeParen]
      else [.text "NIL"]) ++ [.indent]
  else if x.vector then [.text "#"]
  else [.text "#", .number n, .text "A"]

/-- What stands below the dimensions that are written: an element, or the sign for an array
that is below *PRINT-LEVEL*. -/
def leaf (n : Nat) (m : Nat) : Token E :=
  if n ≤ settings.printLevel then .object (x.data m) (settings.printLevel - n) else .text "#"

def writeArray (fuel : Nat) : Option (List (Token E)) :=
  let n := if x.vector then 1 else x.dims.length
  if settings.readably = false ∧ settings.array = false then
    some [.text (if x.vector then "#<vector " else "#<array "), .address, .text ">"]
  else if settings.printLevel = 0 then some [.text "#"]
  else
    (writeLoop (x.dims.take (min settings.printLevel n)) settings.printLength
      (leaf settings x n) fuel 0 ⟨fun _ => 0, 0, header settings x n⟩).map fun st =>
        st.out ++ if settings.readably then [.closeParen] else []

end WriteArray

section Layout

variable {E : Type}

/-- One dimension: the parts below the limit, and three dots for the others. -/
def frame (limit d : Nat) (part : Nat → List (Token E)) : List (Token E) :=
  [.mark, .openParen, .setIndent] ++
    separated ((List.range (min d limit)).map part ++ if limit < d then [[.text "..."]] else []) ++
    [.closeParen, .unmark]

/-- What is to be written for the subscripts `subs` followed by those in `dims`. -/
def layout (limit : Nat) (leaf : List Nat → Token E) : List Nat → List Nat → List (Token E)
  | [], subs => [leaf subs]
  | d :: dims, subs => frame limit d fun s => layout limit leaf dims (subs ++ [s])

/-- The same with row major indices. -/
def render (limit : Nat) (leaf : Nat → Token E) : List Nat → Nat → List (Token E)
  | [], m => [leaf m]
  | d :: dims, m => frame limit d fun s => render limit leaf dims (m + s * dims.prod)

end Layout

def rowMajor : List Nat → List Nat → Nat
  | _ :: dims, s :: subs => s * dims.prod + rowMajor dims subs
  | _, _ => 0

theorem layout_eq_render {E : Type} {limit : Nat} {leaf : Nat → Token E}
    {leafAt : List Nat → Token E} (dims : List Nat) : ∀ {subs : List Nat} {m : Nat},
    (∀ rest, leafAt (subs ++ rest) = leaf (m + rowMajor dims rest)) →
    layout limit leafAt dims subs = render limit leaf dims m := by
  induction dims with
  | nil =>
    intro subs m same
    have here := same []
    rw [append_nil] at here
    rw [layout, render, here]
    rfl
  | cons d dims ih =>
    intro subs m same
    rw [layout, render]
    refine congrArg (frame limit d) (funext fun s => ih fun rest => ?_)
    rw [append_assoc, singleton_append, same, rowMajor, Nat.add_assoc]

section Run

variable {E : Type} {dims : List Nat} {limit : Nat} {leaf : Nat → Token E}

/-- What follows the label INC. -/
def resume (dims : List Nat) (limit : Nat) (leaf : Nat → Token E) (fuel : Nat) :
    Odometer E × Nat × Nat → Option (Odometer E)
  | (st, upto, k) =>
    match carry dims upto st with
    | (st, none) => some st
    | (st, some j) => writeLoop dims limit leaf fuel j { st with m := st.m + k }

theorem writeLoop_succ (fuel j : Nat) (st : Odometer E) :
    writeLoop dims limit leaf (fuel + 1) j st =
      resume dims limit leaf fuel (descend dims limit leaf (dims.length - j) j st) := rfl

/-- Some rounds lead from one state at the label INC to another. -/
def Leads (dims : List Nat) (limit : Nat) (leaf : Nat → Token E)
    (before after : Odometer E × Nat × Nat) : Prop :=
  ∃ cost, ∀ fuel, resume dims limit leaf (fuel + cost) before = resume dims limit leaf fuel after

theorem Leads.refl (config : Odometer E × Nat × Nat) : Leads dims limit leaf config config :=
  ⟨0, fun _ => rfl⟩

theorem Leads.trans {first second third : Odometer E × Nat × Nat}
    (one : Leads dims limit leaf first second) (two : Leads dims limit leaf second third) :
    Leads dims limit leaf first third := by
  obtain ⟨cost, run⟩ := one
  obtain ⟨cost', run'⟩ := two
  refine ⟨cost' + cost, fun fuel => ?_⟩
  rw [← Nat.add_assoc, run, run']

def Odometer.Clear (st : Odometer E) (i : Nat) : Prop := ∀ j, i ≤ j → st.subscripts j = 0

/-- From the dimension `i` on the loop has written `tokens` and is to go on to the next
subscript in front of it. -/
structure Written (before : Odometer E) (i : Nat) (tokens : List (Token E)) (size : Nat)
    (after : Odometer E × Nat × Nat) : Prop where
  subscripts : after.1.subscripts = before.subscripts
  out : after.1.out = before.out ++ tokens
  upto : after.2.1 = i
  index : after.1.m + after.2.2 = before.m + size

theorem separated_cons (part : List (Token E)) {parts : List (List (Token E))}
    (more : parts ≠ []) : separated (part :: parts) = part ++ .indent :: separated parts := by
  cases parts with
  | nil => exact absurd rfl more
  | cons next parts => rfl

/-- The parts of a frame from the subscript `s` on, and its end. -/
def restOf (limit d : Nat) (part : Nat → List (Token E)) (s : Nat) : List (Token E) :=
  separated ((List.range' s (min d limit - s)).map part ++
    if limit < d then [[.text "..."]] else []) ++ [.closeParen, .unmark]

theorem frame_eq (limit d : Nat) (part : Nat → List (Token E)) :
    frame limit d part = [.mark, .openParen, .setIndent] ++ restOf limit d part 0 := by
  rw [frame, restOf, Nat.sub_zero, ← range_eq_range', append_assoc]

theorem restOf_succ {limit d s : Nat} (part : Nat → List (Token E)) (inside : s < d)
    (below : s < limit) :
    restOf limit d part s = part s ++
      if s + 1 < d then .indent :: restOf limit d part (s + 1) else [.closeParen, .unmark] := by
  obtain ⟨left, total⟩ : ∃ left, min d limit - s = left + 1 := ⟨min d limit - s - 1, by omega⟩
  have rest : min d limit - (s + 1) = left := by omega
  rw [restOf, restOf, total, rest, List.range'_succ, map_cons, cons_append]
  by_cases more : s + 1 < d
  · rw [if_pos more, separated_cons]
    · simp only [append_assoc, cons_append]
    · -- there is another part, or the three dots
      by_cases cut : limit < d
      · rw [if_pos cut]
        exact append_ne_nil_of_right_ne_nil _ (cons_ne_nil _ _)
      · rw [if_neg cut, append_nil]
        have positive : left ≠ 0 := by omega
        simpa only [ne_eq, map_eq_nil_iff, List.range'_eq_nil_iff] using positive
  · have none : left = 0 := by omega
    have whole : ¬ limit < d := by omega
    rw [if_neg more, none, if_neg whole]
    rfl

theorem restOf_cut {limit d : Nat} (part : Nat → List (Token E)) {s : Nat} (cut : limit ≤ s)
    (inside : s < d) : restOf limit d part s = [.text "...", .closeParen, .unmark] := by
  have none : min d limit - s = 0 := by omega
  have fewer : limit < d := by omega
  rw [restOf, none, if_pos fewer]
  rfl

section Dimension

variable {i left : Nat} (position : i + (left + 1) = dims.length)

include position

/-- After the part of one subscript the loop goes on to the next subscript, or ends the
frame. -/
theorem descend_rest {m0 : Nat}
    (next : ∀ st : Odometer E, st.Clear (i + 1) →
      ∃ after, Leads dims limit leaf (descend dims limit leaf left (i + 1) st) after ∧
        Written st (i + 1) (render limit leaf (dims.drop (i + 1)) st.m)
          (dims.drop (i + 1)).prod after)
    (rem : Nat) : ∀ (s : Nat) (st : Odometer E), s + rem + 1 = dims.getD i 0 → s < limit →
      st.subscripts i = s → st.Clear (i + 1) →
      st.m = m0 + s * (dims.drop (i + 1)).prod →
      ∃ after, Leads dims limit leaf (descend dims limit leaf left (i + 1) st) after ∧
        after.1.subscripts = update st.subscripts i 0 ∧
        after.1.out = st.out ++ restOf limit (dims.getD i 0)
          (fun t => render limit leaf (dims.drop (i + 1)) (m0 + t * (dims.drop (i + 1)).prod)) s ∧
        after.2.1 = i ∧
        after.1.m + after.2.2 = m0 + dims.getD i 0 * (dims.drop (i + 1)).prod := by
  induction rem with
  | zero =>
    intro s st last below here clear index
    obtain ⟨⟨st₁, upto, k⟩, leads, written⟩ := next st clear
    obtain ⟨subscripts, out, rfl, sum⟩ := written
    dsimp only at subscripts out sum
    have ends : ¬ st₁.subscripts i + 1 < dims.getD i 0 := by
      rw [subscripts, here]
      omega
    refine ⟨((st₁.set i 0).write [.closeParen, .unmark], i, k), leads.trans ⟨0, fun fuel => ?_⟩,
      ?_, ?_, rfl, ?_⟩
    · rw [Nat.add_zero, resume, carry, if_neg ends, resume]
    · change update st₁.subscripts i 0 = _
      rw [subscripts]
    · change st₁.out ++ _ = _
      rw [out, restOf_succ _ (by omega) below, if_neg (by omega), index, append_assoc]
    · change st₁.m + k = _
      rw [sum, index, ← last, Nat.add_zero, Nat.succ_mul, Nat.add_assoc]
  | succ rem ih =>
    intro s st total below here clear index
    obtain ⟨⟨st₁, upto, k⟩, leads, written⟩ := next st clear
    obtain ⟨subscripts, out, rfl, sum⟩ := written
    dsimp only at subscripts out sum
    have goesOn : st₁.subscripts i + 1 < dims.getD i 0 := by
      rw [subscripts, here]
      omega
    obtain ⟨st₂, isNext⟩ : ∃ st₂, st₂ =
        { st₁.set i (st₁.subscripts i + 1) with m := st₁.m + k } := ⟨_, rfl⟩
    have rounds : dims.length - i = left + 1 := by omega
    have step : Leads dims limit leaf (st₁, i + 1, k)
        (descend dims limit leaf (left + 1) i st₂) := by
      refine ⟨1, fun fuel => ?_⟩
      have carried : resume dims limit leaf (fuel + 1) (st₁, i + 1, k) =
          writeLoop dims limit leaf (fuel + 1) i st₂ := by
        rw [resume, carry, if_pos goesOn, isNext]
        rfl
      rw [carried, writeLoop_succ, rounds]
    have sub : st₂.subscripts i = s + 1 := by
      rw [isNext]
      change update st₁.subscripts i (st₁.subscripts i + 1) i = _
      rw [update_self, subscripts, here]
    have index₂ : st₂.m = m0 + (s + 1) * (dims.drop (i + 1)).prod := by
      rw [isNext]
      change st₁.m + k = _
      rw [sum, index, Nat.succ_mul, Nat.add_assoc]
    have out₂ : st₂.out = st.out ++ render limit leaf (dims.drop (i + 1)) st.m := by
      rw [isNext]
      exact out
    have updated : update st₂.subscripts i 0 = update st.subscripts i 0 := by
      rw [isNext]
      change update (update st₁.subscripts i _) i 0 = _
      rw [update_idem, subscripts]
    have clear₂ : st₂.Clear (i + 1) := by
      intro j later
      rw [isNext]
      change update st₁.subscripts i _ j = 0
      rw [update_of_ne (by omega), subscripts]
      exact clear j later
    have opens : descend dims limit leaf (left + 1) i st₂ =
        if limit ≤ s + 1 then
          (((st₂.write [.indent]).write [.text "...", .closeParen, .unmark]).set i 0, i,
            (dims.getD i 0 - (s + 1)) * (dims.drop (i + 1)).prod)
        else descend dims limit leaf left (i + 1) (st₂.write [.indent]) := by
      have later : ¬ s + 1 = 0 := Nat.succ_ne_zero s
      simp only [descend, sub, later, false_and, if_false, Nat.succ_pos, if_true]
    rw [restOf_succ _ (by omega) below, if_pos (by omega), ← index]
    by_cases cut : limit ≤ s + 1
    · rw [opens, if_pos cut] at step
      refine ⟨_, leads.trans step, updated, ?_, rfl, ?_⟩
      · change (st₂.out ++ [.indent]) ++ _ = _
        rw [out₂, restOf_cut _ cut (by omega)]
        simp only [append_assoc, cons_append, nil_append]
      · change st₂.m + _ = _
        rw [index₂, Nat.add_assoc, ← Nat.add_mul, Nat.add_sub_cancel' (by omega)]
    · rw [opens, if_neg cut] at step
      obtain ⟨after, leads', subscripts', out', upto, sum'⟩ := ih (s + 1) (st₂.write [.indent])
        (by omega) (by omega) sub clear₂ index₂
      refine ⟨after, (leads.trans step).trans leads', subscripts'.trans updated, ?_, upto, sum'⟩
      rw [out']
      change (st₂.out ++ [.indent]) ++ _ = _
      rw [out₂]
      simp only [append_assoc, cons_append, nil_append]

end Dimension

theorem descend_written (left : Nat) : ∀ (i : Nat) (st : Odometer E), i + left = dims.length →
    st.Clear i → ∃ after, Leads dims limit leaf (descend dims limit leaf left i st) after ∧
      Written st i (render limit leaf (dims.drop i) st.m) (dims.drop i).prod after := by
  induction left with
  | zero =>
    intro i st position clear
    refine ⟨_, Leads.refl _, rfl, ?_, rfl, ?_⟩
    · rw [drop_eq_nil_of_le (by omega)]
      rfl
    · rw [drop_eq_nil_of_le (by omega)]
      rfl
  | succ left ih =>
    intro i st position clear
    have inside : i < dims.length := by omega
    have dim : dims.getD i 0 = dims[i] := by simp [inside]
    have here := clear i (Nat.le_refl i)
    have same : update st.subscripts i 0 = st.subscripts := by
      rw [← here, update_eq_self]
    have opens : descend dims limit leaf (left + 1) i st =
        if dims.getD i 0 = 0 then
          ((st.write [.mark, .openParen, .setIndent]).write [.closeParen, .unmark], i, 0)
        else if limit ≤ 0 then
          (((st.write [.mark, .openParen, .setIndent]).write
            [.text "...", .closeParen, .unmark]).set i 0, i,
            (dims.getD i 0 - 0) * (dims.drop (i + 1)).prod)
        else descend dims limit leaf left (i + 1) (st.write [.mark, .openParen, .setIndent]) := by
      rw [descend, here, if_neg (Nat.lt_irrefl 0)]
      simp only [if_true, true_and]
    rw [drop_eq_getElem_cons inside, ← dim, render, prod_cons, frame_eq]
    by_cases empty : dims.getD i 0 = 0
    · rw [opens, if_pos empty]
      refine ⟨_, Leads.refl _, rfl, ?_, rfl, ?_⟩
      · rw [empty]
        change (st.out ++ _) ++ _ = _
        rw [append_assoc]
        rfl
      · rw [empty, Nat.zero_mul]
        rfl
    · by_cases cut : limit ≤ 0
      · rw [opens, if_neg empty, if_pos cut]
        refine ⟨_, Leads.refl _, same, ?_, rfl, rfl⟩
        change (st.out ++ _) ++ _ = _
        rw [append_assoc, restOf_cut _ cut (by omega)]
      · rw [opens, if_neg empty, if_neg cut]
        obtain ⟨after, leads, subscripts, out, upto, sum⟩ := descend_rest position
          (fun st clear => ih (i + 1) st (by omega) clear) (dims.getD i 0 - 1) 0
          (st.write [.mark, .openParen, .setIndent]) (by omega) (by omega) here
          (fun j later => clear j (by omega)) (by rw [Nat.zero_mul, Nat.add_zero])
        refine ⟨after, leads, subscripts.trans same, ?_, upto, sum⟩
        rw [out]
        change (st.out ++ _) ++ _ = _
        rw [append_assoc]
        rfl

theorem writeLoop_written (st : Odometer E) (clear : st.Clear 0) (start : st.m = 0) :
    ∃ bound last, (∀ fuel, bound ≤ fuel → writeLoop dims limit leaf fuel 0 st = some last) ∧
      last.out = st.out ++ render limit leaf dims 0 := by
  obtain ⟨⟨last, upto, k⟩, ⟨cost, run⟩, subscripts, out, rfl, sum⟩ :=
    descend_written dims.length 0 st (Nat.zero_add _) clear
  refine ⟨cost + 1, last, fun fuel enough => ?_, ?_⟩
  · obtain ⟨fuel, rfl⟩ : ∃ more, fuel = more + cost + 1 := ⟨fuel - (cost + 1), by omega⟩
    rw [writeLoop_succ, Nat.sub_zero, run]
    rfl
  · rw [out, start]
    rfl

end Run

section Contents

variable {E : Type}

/-- The elements written, in their order. -/
def objects (tokens : List (Token E)) : List E :=
  tokens.filterMap fun token =>
    match token with
    | .object e _ => some e
    | _ => none

/-- Each parenthesis has its partner. -/
inductive Balanced : List (Token E) → Prop where
  | nil : Balanced []
  | other {token : Token E} : token ≠ .openParen → token ≠ .closeParen → Balanced [token]
  | append {first second : List (Token E)} :
      Balanced first → Balanced second → Balanced (first ++ second)
  | nest {inner : List (Token E)} :
      Balanced inner → Balanced ([.openParen] ++ inner ++ [.closeParen])

/-- The subscripts that the limit does not cut off, in row major order. -/
def printed (limit : Nat) : List Nat → List (List Nat)
  | [] => [[]]
  | d :: dims => (List.range (min d limit)).flatMap fun s => (printed limit dims).map (s :: ·)

theorem mem_printed {limit : Nat} {dims : List Nat} : ∀ {subs : List Nat},
    subs ∈ printed limit dims ↔ List.Forall₂ (fun s d => s < d ∧ s < limit) subs dims := by
  induction dims with
  | nil =>
    intro subs
    rw [printed, mem_singleton, forall₂_nil_right_iff]
  | cons d dims ih =>
    intro subs
    rw [printed, mem_flatMap, forall₂_cons_right_iff]
    constructor
    · rintro ⟨s, below, member⟩
      obtain ⟨rest, within, rfl⟩ := mem_map.mp member
      rw [mem_range] at below
      exact ⟨s, rest, by omega, ih.mp within, rfl⟩
    · rintro ⟨s, rest, below, within, rfl⟩
      refine ⟨s, ?_, mem_map.mpr ⟨rest, ih.mpr within, rfl⟩⟩
      rw [mem_range]
      omega

theorem printed_nodup (limit : Nat) (dims : List Nat) : (printed limit dims).Nodup := by
  induction dims with
  | nil => exact nodup_singleton _
  | cons d dims ih =>
    rw [printed, nodup_flatMap]
    refine ⟨fun s _ => ih.map fun _ _ same => (List.cons.inj same).2, ?_⟩
    apply List.Pairwise.imp _ nodup_range
    intro s t differ subs inS inT
    obtain ⟨_, _, rfl⟩ := mem_map.mp inS
    obtain ⟨_, _, same⟩ := mem_map.mp inT
    exact differ (List.cons.inj same).1.symm

theorem objects_append (first second : List (Token E)) :
    objects (first ++ second) = objects first ++ objects second :=
  filterMap_append

theorem objects_separated (parts : List (List (Token E))) :
    objects (separated parts) = parts.flatMap objects := by
  induction parts with
  | nil => rfl
  | cons part parts ih =>
    cases parts with
    | nil => rw [separated, flatMap_singleton]
    | cons next parts =>
      rw [separated_cons part (cons_ne_nil _ _), objects_append, flatMap_cons, ← ih]
      rfl

theorem objects_frame (limit d : Nat) (part : Nat → List (Token E)) :
    objects (frame limit d part) =
      (List.range (min d limit)).flatMap fun s => objects (part s) := by
  have cut : objects (separated ((List.range (min d limit)).map part ++
      if limit < d then [[.text "..."]] else [])) =
      (List.range (min d limit)).flatMap fun s => objects (part s) := by
    rw [objects_separated, flatMap_append, flatMap_map]
    split
    · exact append_nil _
    · exact append_nil _
  rw [frame, objects_append, objects_append, cut]
  exact append_nil _

theorem objects_layout (limit : Nat) (leaf : List Nat → Token E) (dims : List Nat) :
    ∀ subs : List Nat, objects (layout limit leaf dims subs) =
      (printed limit dims).flatMap fun rest => objects [leaf (subs ++ rest)] := by
  induction dims with
  | nil =>
    intro subs
    rw [layout, printed, flatMap_singleton, append_nil]
  | cons d dims ih =>
    intro subs
    rw [layout, objects_frame, printed, flatMap_assoc]
    refine congrArg (List.flatMap · _) (funext fun s => ?_)
    rw [ih, flatMap_map]
    simp only [append_assoc, singleton_append]

theorem Balanced.separated {parts : List (List (Token E))}
    (balanced : ∀ part ∈ parts, Balanced part) : Balanced (WriteArray.separated parts) := by
  induction parts with
  | nil => exact .nil
  | cons part parts ih =>
    have first := balanced part mem_cons_self
    have rest := ih fun next member => balanced next (mem_cons_of_mem _ member)
    cases parts with
    | nil => exact first
    | cons next parts =>
      rw [separated_cons part (cons_ne_nil _ _)]
      exact first.append (Balanced.append (.other (by simp) (by simp)) rest)

theorem Balanced.frame {limit d : Nat} {part : Nat → List (Token E)}
    (balanced : ∀ s, Balanced (part s)) : Balanced (WriteArray.frame limit d part) := by
  have inner : Balanced ([.setIndent] ++ WriteArray.separated
      ((List.range (min d limit)).map part ++ if limit < d then [[.text "..."]] else [])) := by
    apply Balanced.append (.other (by simp) (by simp))
    apply Balanced.separated
    intro next member
    rcases mem_append.mp member with below | cut
    · obtain ⟨s, -, rfl⟩ := mem_map.mp below
      exact balanced s
    · split at cut
      · rw [mem_singleton.mp cut]
        exact .other (by simp) (by simp)
      · cases cut
  have mark : Balanced [Token.mark (E := E)] := .other (by simp) (by simp)
  have unmark : Balanced [Token.unmark (E := E)] := .other (by simp) (by simp)
  have whole := (mark.append inner.nest).append unmark
  simpa only [WriteArray.frame, append_assoc, cons_append, nil_append] using whole

theorem Balanced.layout {limit : Nat} {leaf : List Nat → Token E}
    (balanced : ∀ subs, Balanced [leaf subs]) (dims : List Nat) :
    ∀ subs, Balanced (WriteArray.layout limit leaf dims subs) := by
  induction dims with
  | nil => exact balanced
  | cons d dims ih => exact fun subs => Balanced.frame fun s => ih (subs ++ [s])

end Contents

theorem prod_pos_of_within {subs dims : List Nat}
    (within : List.Forall₂ (fun s d => s < d) subs dims) : 0 < dims.prod := by
  induction within with
  | nil => exact Nat.one_pos
  | cons inside _ ih =>
    rw [prod_cons]
    exact Nat.mul_pos (by omega) ih

theorem subscripts_rowMajor {dims : List Nat} : ∀ {subs : List Nat} {size j : Nat},
    List.Forall₂ (fun s d => s < d) subs dims → size * dims.prod < 2 ^ 64 → j < size →
    Arrays.subscripts dims (subs.map Int.ofNat) j = some (j * dims.prod + rowMajor dims subs) := by
  induction dims with
  | nil =>
    intro subs size j within room below
    rw [forall₂_nil_right_iff.mp within, prod_nil, Nat.mul_one]
    rfl
  | cons d dims ih =>
    intro subs size j within room below
    obtain ⟨s, rest, inside, others, rfl⟩ := forall₂_cons_right_iff.mp within
    have positive := prod_pos_of_within others
    have here : Arrays.subscript d (Int.ofNat s) = some s := by
      rw [Arrays.subscript,
        if_pos ⟨Int.natCast_nonneg s, by simp only [Int.ofNat_eq_natCast]; omega⟩]
      rfl
    rw [prod_cons] at room
    rw [map_cons, Arrays.subscripts, here]
    dsimp only
    rw [Arrays.next_word positive room below inside,
      ih others (by rw [Nat.mul_assoc]; exact room) (Arrays.next_lt below inside),
      prod_cons, rowMajor, Nat.add_mul, Nat.mul_assoc, Nat.add_assoc]

namespace PrintArray

variable {E : Type} (x : PrintArray E)

def element (subs : List Nat) : E := x.data (rowMajor x.dims subs)

theorem element_aref {subs : List Nat} (within : List.Forall₂ (fun s d => s < d) subs x.dims) :
    (Arrays.subscripts x.dims (subs.map Int.ofNat) 0).map x.data = some (x.element subs) := by
  have total := x.total
  rw [@subscripts_rowMajor x.dims subs 1 0 within (by omega) Nat.one_pos, Nat.zero_mul,
    Nat.zero_add]
  rfl

/-- What stands at subscripts of the dimensions that are written. -/
def leafAt (settings : Settings) (subs : List Nat) : Token E :=
  if x.dims.length ≤ settings.printLevel then
    .object (x.element subs) (settings.printLevel - x.dims.length)
  else .text "#"

end PrintArray

section Law

variable {E : Type} (settings : Settings) (x : PrintArray E)

theorem objects_header (n : Nat) : objects (header settings x n) = [] := by
  have numbers : objects (separated (x.dims.map fun d => [Token.number (E := E) d])) = [] := by
    rw [objects_separated, flatMap_map]
    exact flatMap_eq_nil_iff.mpr fun d _ => rfl
  unfold header
  split
  · split
    · simp only [objects_append, numbers]
      rfl
    · rfl
  · split <;> rfl

theorem balanced_header (n : Nat) {contents : List (Token E)} (inner : Balanced contents) :
    Balanced (header settings x n ++ contents ++
      if settings.readably then [.closeParen] else []) := by
  have text (s : String) : Balanced [Token.text (E := E) s] := .other (by simp) (by simp)
  unfold header
  cases settings.readably with
  | true =>
    have dimensions : Balanced (separated (x.dims.map fun d => [Token.number (E := E) d])) := by
      apply Balanced.separated
      intro part member
      obtain ⟨d, -, rfl⟩ := mem_map.mp member
      exact .other (by simp) (by simp)
    have shape : Balanced (if 0 < n then
        [Token.openParen] ++ separated (x.dims.map fun d => [Token.number (E := E) d]) ++
          [.closeParen] else [.text "NIL"]) := by
      split
      · exact dimensions.nest
      · exact text "NIL"
    have indent : Balanced [Token.indent (E := E)] := .other (by simp) (by simp)
    have whole := ((text "#").append (text "A")).append
      (((((text x.elttype).append indent).append shape).append indent).append inner).nest
    simpa only [if_true, append_assoc, cons_append, nil_append] using whole
  | false =>
    have number : Balanced [Token.number (E := E) n] := .other (by simp) (by simp)
    simp only [Bool.false_eq_true, if_false, append_nil]
    split
    · exact (text "#").append inner
    · exact (((text "#").append number).append (text "A")).append inner

/-- What is written of an array whose contents are shown. -/
structure Prints (out : List (Token E)) : Prop where
  balanced : Balanced out
  nested : settings.printLevel ≠ 0 → ∃ before after, objects before = [] ∧ objects after = [] ∧
    out = before ++ layout settings.printLength (x.leafAt settings)
      (x.dims.take settings.printLevel) [] ++ after
  elements : objects out =
    if settings.printLevel ≠ 0 ∧ x.dims.length ≤ settings.printLevel then
      (printed settings.printLength x.dims).map x.element
    else []

theorem leafAt_eq (subs : List Nat) :
    x.leafAt settings subs = leaf settings x x.dims.length
      (rowMajor (x.dims.take settings.printLevel) subs) := by
  unfold PrintArray.leafAt leaf
  split
  · rename_i shown
    rw [take_of_length_le shown]
    rfl
  · rfl

/-- The parentheses are balanced and nested as the dimensions are. Each element that is not
cut off is written once, in the place of its subscripts. -/
theorem writeArray_prints (shown : settings.readably = true ∨ settings.array = true) :
    ∃ bound out, (∀ fuel, bound ≤ fuel → writeArray settings x fuel = some out) ∧
      Prints settings x out ∧ (printed settings.printLength x.dims).Nodup ∧
      ∀ subs, (subs ∈ printed settings.printLength x.dims ↔
          List.Forall₂ (fun s d => s < d ∧ s < settings.printLength) subs x.dims) ∧
        (subs ∈ printed settings.printLength x.dims →
          (Arrays.subscripts x.dims (subs.map Int.ofNat) 0).map x.data =
            some (x.element subs)) := by
  have rank : (if x.vector then 1 else x.dims.length) = x.dims.length := by
    split
    · rename_i vector
      exact (x.rank vector).symm
    · rfl
  have visible : ¬ (settings.readably = false ∧ settings.array = false) := by
    rintro ⟨notReadably, notArray⟩
    rw [notReadably, notArray] at shown
    simp at shown
  have subscripts : ∀ subs, (subs ∈ printed settings.printLength x.dims ↔
      List.Forall₂ (fun s d => s < d ∧ s < settings.printLength) subs x.dims) ∧
      (subs ∈ printed settings.printLength x.dims →
        (Arrays.subscripts x.dims (subs.map Int.ofNat) 0).map x.data = some (x.element subs)) :=
    fun subs => ⟨mem_printed, fun member =>
      x.element_aref ((mem_printed.mp member).imp fun _ _ both => both.1)⟩
  by_cases level : settings.printLevel = 0
  · refine ⟨0, [.text "#"], fun fuel _ => ?_, ⟨?_, fun other => absurd level other, ?_⟩,
      printed_nodup _ _, subscripts⟩
    · unfold writeArray
      rw [if_neg visible, if_pos level]
    · exact .other (by simp) (by simp)
    · rw [if_neg fun both => both.1 level]
      rfl
  · have leaves (subs : List Nat) : objects [x.leafAt settings subs] =
        if x.dims.length ≤ settings.printLevel then [x.element subs] else [] := by
      unfold PrintArray.leafAt
      split <;> rfl
    have leafBalanced (subs : List Nat) : Balanced [x.leafAt settings subs] := by
      unfold PrintArray.leafAt
      split <;> exact .other (by simp) (by simp)
    have balanced : Balanced (layout settings.printLength (x.leafAt settings)
        (x.dims.take settings.printLevel) []) := Balanced.layout leafBalanced _ []
    have nested : layout settings.printLength (x.leafAt settings)
        (x.dims.take settings.printLevel) [] =
        render settings.printLength (leaf settings x x.dims.length)
          (x.dims.take settings.printLevel) 0 := by
      apply layout_eq_render
      intro rest
      rw [nil_append, Nat.zero_add, leafAt_eq]
    obtain ⟨bound, last, run, out⟩ := @writeLoop_written E (x.dims.take settings.printLevel)
      settings.printLength (leaf settings x x.dims.length)
      ⟨fun _ => 0, 0, header settings x x.dims.length⟩ (fun _ _ => rfl) rfl
    rw [← nested] at out
    refine ⟨bound, last.out ++ if settings.readably then [.closeParen] else [],
      fun fuel enough => ?_, ⟨?_, fun _ => ?_, ?_⟩, printed_nodup _ _, subscripts⟩
    · unfold writeArray
      simp only [rank]
      rw [if_neg visible, if_neg level, ← take_eq_take_min, run fuel enough]
      rfl
    · rw [out]
      exact balanced_header settings x x.dims.length balanced
    · refine ⟨header settings x x.dims.length, _, objects_header settings x _, ?_, by rw [out]⟩
      split <;> rfl
    · have trailer : objects (E := E) (if settings.readably then [.closeParen] else []) = [] := by
        split <;> rfl
      rw [out, objects_append, objects_append, objects_header, trailer, objects_layout,
        nil_append, append_nil]
      simp only [nil_append, leaves]
      by_cases shown : x.dims.length ≤ settings.printLevel
      · rw [if_pos ⟨level, shown⟩, take_of_length_le shown]
        simp only [shown, if_true]
        exact flatMap_pure_eq_map _ _
      · rw [if_neg fun both => shown both.2]
        simp only [shown, if_false]
        exact flatMap_eq_nil_iff.mpr fun _ _ => rfl

end Law

def twoByThree : PrintArray Nat where
  vector := false
  dims := [2, 3]
  elttype := "T"
  data m := 10 + m
  rank vector := by cases vector
  total := by decide

theorem writeArray_prints_twoByThree :
    ∃ bound out, (∀ fuel, bound ≤ fuel →
        writeArray ⟨false, true, noLimit, 2⟩ twoByThree fuel = some out) ∧
      Prints ⟨false, true, noLimit, 2⟩ twoByThree out := by
  obtain ⟨bound, out, run, prints, -⟩ :=
    writeArray_prints ⟨false, true, noLimit, 2⟩ twoByThree (Or.inr rfl)
  exact ⟨bound, out, run, prints⟩

/-- With *PRINT-ARRAY* NIL no element is written, although no limit cuts one off. -/
theorem writeArray_prints_nothing :
    (∀ fuel, writeArray ⟨false, false, noLimit, noLimit⟩ twoByThree fuel =
        some [.text "#<array ", .address, .text ">"]) ∧
      objects (E := Nat) [.text "#<array ", .address, .text ">"] = [] ∧
      ∀ subs ∈ [[0, 0], [0, 1], [0, 2], [1, 0], [1, 1], [1, 2]],
        List.Forall₂ (fun s d => s < d ∧ s < noLimit) subs twoByThree.dims := by
  refine ⟨fun _ => rfl, rfl, ?_⟩
  simp only [twoByThree, mem_cons, not_mem_nil, or_false, forall_eq_or_imp, forall_eq,
    forall₂_cons, forall₂_nil_left_iff, noLimit]
  decide

end Ecl.Text.WriteArray
