import Mathlib.Data.List.Count
import Mathlib.Data.List.Nodup
import Mathlib.Algebra.Ring.Nat
import Ecl.Value

/- Keyword arguments. An interpreted function parses them with OP_PUSHKEYS
(interpreter.d), a compiled one with cl_parse_key (cmpaux.d). -/
namespace Ecl.Keys

/-- The program errors of the two parsers. -/
inductive KeyError where
  | oddNumber
  | unknownArgument
  | keywordExpected (found : Val)
  | oddKeys
  | unknownKeyword (found : Val)
  deriving DecidableEq

/-- The format strings given to FEprogram_error. -/
def KeyError.text : KeyError → String
  | .oddNumber => "Function ~A called with odd number of keyword arguments."
  | .unknownArgument =>
    "Unknown keyword argument passed to function ~S.~&Argument list: ~S"
  | .keywordExpected _ => "LAMBDA: Keyword expected, got ~S."
  | .oddKeys => "Odd number of keys"
  | .unknownKeyword _ => "Unknown keyword ~S"

/-- The inner loop of OP_PUSHKEYS, run once per parameter. It returns the
unclaimed words `count` and the FLAG and VALUE of this parameter. COUNT is a
cl_index, but it is only compared with zero and stays within the frame size of
zero, so an integer has the same zeros. -/
def scanKey (name : Val) : List Val → Int → Val → Val → Int × Val × Val
  | key :: value :: rest, count, flag, found =>
    if key = name then
      if flag = .nil then scanKey name rest (count - 2) .t value
      else scanKey name rest (count - 2) flag found
    else scanKey name rest count flag found
  | _, count, flag, found => (count, flag, found)

/-- The outer loop of OP_PUSHKEYS over the names of the constant KEYS_LIST. -/
def scanKeys (tail : List Val) : List Val → Int → List Val → Int × List Val
  | [], count, stack => (count, stack)
  | name :: names, count, stack =>
    let (count, flag, value) := scanKey name tail count .nil .nil
    let stack := if flag = .nil then stack else value :: stack
    scanKeys tail names count (flag :: stack)

/-- The last loop of OP_PUSHKEYS: bit i of AOK is the truth value of the i-th
:ALLOW-OTHER-KEYS argument. -/
def scanAllow : List Val → Int → BitVec 32 → BitVec 32 → Int × BitVec 32
  | key :: value :: rest, count, aok, mask =>
    if key = .sym .kAllowOtherKeys then
      scanAllow rest (count - 2) (if value = .nil then aok else aok ||| mask) (mask <<< 1)
    else scanAllow rest count aok mask
  | _, count, aok, _ => (count, aok)

/-- OP_PUSHKEYS on the argument words `tail` that no other parameter took. The
stack grows at its head. -/
def pushKeys (aok : Bool) (names tail stack : List Val) : Except KeyError (List Val) :=
  if tail.length % 2 = 1 then .error .oddNumber
  else
    let (count, stack) := scanKeys tail names tail.length stack
    if count = 0 then .ok stack
    else if aok then .ok stack
    else
      let (count, bits) := scanAllow tail count 0 1
      if count ≠ 0 ∧ bits &&& 1 = 0 then .error .unknownArgument else .ok stack

/-- The constant that ecl_make_lambda builds by consing each parameter name
onto NAMES. -/
def keysList (params : List Sym) : List Val := (params.map Val.sym).reverse

/-- What the code after OP_PUSHKEYS takes from the stack for each parameter:
OP_POP moves the flag to REG0 and, if it is true, OP_PBIND pops the value. -/
def popKeys : Nat → List Val → List (Option Val)
  | 0, _ => []
  | count + 1, flag :: stack =>
    if flag = .nil then none :: popKeys count stack
    else match stack with
      | value :: stack => some value :: popKeys count stack
      | [] => []
  | _ + 1, [] => []

/-- The keyword parameters of an interpreted function after its prologue. -/
def interpretedKeys (params : List Sym) (aok : Bool) (tail : List Val) :
    Except KeyError (List (Option Val)) :=
  match pushKeys aok (keysList params) tail [] with
  | .error reason => .error reason
  | .ok stack => .ok (popKeys params.length stack)

/-- The locals of cl_parse_key: vars[0..nkey-1], vars[nkey..2*nkey-1], the
&rest list, and the two marks that start as OBJNULL. -/
structure ParseState where
  values : List Val
  supplied : List Val
  rest : List Val
  suppliedAllowOtherKeys : Option Val
  unknownKeyword : Option Val
  deriving DecidableEq

/-- The inner loop of cl_parse_key over the parameters. -/
def keyIndex (keys : List Val) (keyword : Val) : Option Nat :=
  keys.findIdx? (fun key => key = keyword)

/-- One argument pair of cl_parse_key. -/
def parsePair (keys : List Val) (keyword value : Val) (state : ParseState) : ParseState :=
  let state := { state with rest := state.rest ++ [keyword, value] }
  match keyIndex keys keyword with
  | some i =>
    if state.supplied.getD i .nil = .nil then
      { state with values := state.values.set i value, supplied := state.supplied.set i .t }
    else state
  | none =>
    if keyword = .sym .kAllowOtherKeys then
      if state.suppliedAllowOtherKeys = none then
        { state with suppliedAllowOtherKeys := some value }
      else state
    else if state.unknownKeyword = none then { state with unknownKeyword := some keyword }
    else state

/-- The loop of cl_parse_key, entered while more than one argument is left,
and the odd-number check after it. -/
def parseLoop (keys : List Val) : List Val → ParseState → Except KeyError ParseState
  | keyword :: value :: tail, state =>
    if keyword.symbolp then parseLoop keys tail (parsePair keys keyword value state)
    else .error (.keywordExpected keyword)
  | [_], _ => .error .oddKeys
  | [], state => .ok state

/-- The locals of cl_parse_key before its loop. -/
def ParseState.start (keys : List Val) : ParseState where
  values := keys.map fun _ => .nil
  supplied := keys.map fun _ => .nil
  rest := []
  suppliedAllowOtherKeys := none
  unknownKeyword := none

def parseKey (keys tail : List Val) (allowOtherKeys : Bool) : Except KeyError ParseState :=
  match parseLoop keys tail (.start keys) with
  | .error reason => .error reason
  | .ok state =>
    match state.unknownKeyword with
    | none => .ok state
    | some keyword =>
      if allowOtherKeys = false ∧ (state.suppliedAllowOtherKeys.getD .nil = .nil) then
        .error (.unknownKeyword keyword)
      else .ok state

/-- The keyword parameters of a compiled function. -/
def compiledKeys (params : List Sym) (aok : Bool) (tail : List Val) :
    Except KeyError ParseState :=
  parseKey (params.map Val.sym) tail aok


open List Nat

/-- The keyword-value pairs of an argument tail. -/
def pairs : List Val → List (Val × Val)
  | key :: value :: tail => (key, value) :: pairs tail
  | _ => []

/-- The value of the leftmost occurrence of a keyword. -/
def leftmost (name : Val) (tail : List Val) : Option Val :=
  ((pairs tail).find? fun pair => pair.1 = name).map Prod.snd

/-- How often a keyword occurs. -/
def occurrences (name : Val) (tail : List Val) : Nat :=
  (pairs tail).countP fun pair => pair.1 = name

/-- How many pairs have a keyword that is neither a parameter nor
:ALLOW-OTHER-KEYS. -/
def strangers (params : List Sym) (tail : List Val) : Nat :=
  (pairs tail).countP fun pair =>
    pair.1 ∉ params.map Val.sym ∧ pair.1 ≠ .sym .kAllowOtherKeys

/-- The leftmost :ALLOW-OTHER-KEYS argument is true. -/
def Allows (tail : List Val) : Prop :=
  ∃ value, leftmost (.sym .kAllowOtherKeys) tail = some value ∧ value ≠ .nil

/-- The rule of the language for an acceptable argument tail. -/
def Accepts (params : List Sym) (aok : Bool) (tail : List Val) : Prop :=
  tail.length % 2 = 0 ∧
    ((∀ pair ∈ pairs tail, pair.1 ∈ params.map Val.sym ∨ pair.1 = .sym .kAllowOtherKeys) ∨
      aok = true ∨ Allows tail)

/-- A parser that returned a result. -/
def Succeeds {α : Type} (result : Except KeyError α) : Prop := ∃ value, result = .ok value

theorem leftmost_cons (name key value : Val) (tail : List Val) :
    leftmost name (key :: value :: tail) =
      if key = name then some value else leftmost name tail := by
  by_cases same : key = name <;> simp [leftmost, pairs, same]

theorem occurrences_cons (name key value : Val) (tail : List Val) :
    occurrences name (key :: value :: tail) =
      occurrences name tail + if key = name then 1 else 0 := by
  simp [occurrences, pairs, countP_cons]

theorem strangers_cons (params : List Sym) (key value : Val) (tail : List Val) :
    strangers params (key :: value :: tail) = strangers params tail +
      if key ∉ params.map Val.sym ∧ key ≠ .sym .kAllowOtherKeys then 1 else 0 := by
  simp only [strangers, pairs, countP_cons, decide_eq_true_eq]

theorem strangers_eq_zero (params : List Sym) (tail : List Val) :
    strangers params tail = 0 ↔
      ∀ pair ∈ pairs tail, pair.1 ∈ params.map Val.sym ∨ pair.1 = .sym .kAllowOtherKeys := by
  simp only [strangers, countP_eq_zero, decide_eq_true_eq, not_and_or, not_not]

theorem tail_induction {motive : List Val → Prop} (empty : motive [])
    (single : ∀ word, motive [word])
    (pair : ∀ key value tail, motive tail → motive (key :: value :: tail)) :
    ∀ tail, motive tail
  | [] => empty
  | [word] => single word
  | key :: value :: tail => pair key value tail (tail_induction empty single pair tail)

theorem scanKey_found (name : Val) (tail : List Val) :
    ∀ (count : Int) (found : Val),
      scanKey name tail count .t found = (count - 2 * occurrences name tail, .t, found) := by
  induction tail using tail_induction with
  | empty => intro count found; simp [scanKey, occurrences, pairs]
  | single word => intro count found; simp [scanKey, occurrences, pairs]
  | pair key value tail ih =>
    intro count found
    rw [scanKey, occurrences_cons]
    by_cases same : key = name
    · simp only [same, ↓reduceIte, reduceCtorEq, ih, Prod.mk.injEq, and_true]
      push_cast
      omega
    · simp only [same, ↓reduceIte, ih, add_zero]

theorem scanKey_fresh (name : Val) (tail : List Val) :
    ∀ count : Int,
      scanKey name tail count .nil .nil =
        (count - 2 * occurrences name tail,
          match leftmost name tail with
          | some value => (.t, value)
          | none => (.nil, .nil)) := by
  induction tail using tail_induction with
  | empty => intro count; simp [scanKey, occurrences, pairs, leftmost]
  | single word => intro count; simp [scanKey, occurrences, pairs, leftmost]
  | pair key value tail ih =>
    intro count
    rw [scanKey, occurrences_cons, leftmost_cons]
    by_cases same : key = name
    · simp only [same, ↓reduceIte, scanKey_found, Prod.mk.injEq, and_true]
      push_cast
      omega
    · simp only [same, ↓reduceIte, ih, add_zero]

/-- The words OP_PUSHKEYS leaves on the stack for one parameter. -/
def pushed (name : Val) (tail : List Val) : List Val :=
  match leftmost name tail with
  | some value => [.t, value]
  | none => [.nil]

variable {tail : List Val}

@[simp] theorem pushed_of_none {name : Val}
    (absent : leftmost name tail = none) : pushed name tail = [.nil] := by
  simp only [pushed, absent]

@[simp] theorem pushed_of_some {name : Val} {value : Val}
    (present : leftmost name tail = some value) : pushed name tail = [.t, value] := by
  simp only [pushed, present]

theorem scanKeys_eq (tail names : List Val) :
    ∀ (count : Int) (stack : List Val),
      scanKeys tail names count stack =
        (count - 2 * ((names.map fun name => occurrences name tail).sum : Nat),
          (names.reverse.flatMap fun name => pushed name tail) ++ stack) := by
  induction names with
  | nil => intro count stack; simp [scanKeys]
  | cons name names ih =>
    intro count stack
    rw [scanKeys, scanKey_fresh]
    simp only [ih, map_cons, sum_cons, reverse_cons, flatMap_append,
      flatMap_cons, flatMap_nil, append_nil, append_assoc, Prod.mk.injEq]
    refine ⟨by push_cast; omega, ?_⟩
    cases found : leftmost name tail <;> simp [found]

theorem popKeys_pushed (params : List Sym) (tail : List Val) :
    popKeys params.length
        ((params.map Val.sym).flatMap fun name => pushed name tail) =
      params.map fun name => leftmost (.sym name) tail := by
  induction params with
  | nil => rfl
  | cons name params ih =>
    rw [length_cons, map_cons, flatMap_cons, map_cons]
    cases found : leftmost (.sym name) tail with
    | none => simp [found, popKeys, ih]
    | some value => simp [found, popKeys, ih]

theorem sum_occurrences (names : List Val) (distinct : names.Nodup) (tail : List Val) :
    (names.map fun name => occurrences name tail).sum =
      (pairs tail).countP fun pair => pair.1 ∈ names := by
  induction names with
  | nil => simp
  | cons name names ih =>
    obtain ⟨absent, distinct⟩ := nodup_cons.mp distinct
    rw [map_cons, sum_cons, ih distinct, occurrences]
    induction pairs tail with
    | nil => simp
    | cons pair rest ihPairs =>
      simp only [countP_cons, mem_cons, decide_eq_true_eq]
      by_cases same : pair.1 = name
      · have other : pair.1 ∉ names := by rwa [same]
        simp only [same, true_or, ↓reduceIte, absent] at ihPairs ⊢
        simp only [mem_cons] at ihPairs
        omega
      · simp only [same, false_or, ↓reduceIte, mem_cons] at ihPairs ⊢
        split <;> omega

theorem low_bit_clear (bits : BitVec 32) : bits &&& 1 = 0 ↔ bits.getLsbD 0 = false := by
  have one : bits &&& 1 = BitVec.setWidth 32 (BitVec.ofBool (bits.getLsbD 0)) :=
    BitVec.and_one_eq_setWidth_ofBool_getLsbD
  rw [one]
  cases bits.getLsbD 0 <;> decide

theorem scanAllow_count (tail : List Val) :
    ∀ (count : Int) (aok mask : BitVec 32),
      (scanAllow tail count aok mask).1 =
        count - 2 * occurrences (.sym .kAllowOtherKeys) tail := by
  induction tail using tail_induction with
  | empty => intro count aok mask; simp [scanAllow, occurrences, pairs]
  | single word => intro count aok mask; simp [scanAllow, occurrences, pairs]
  | pair key value tail ih =>
    intro count aok mask
    rw [scanAllow, occurrences_cons]
    by_cases same : key = .sym .kAllowOtherKeys
    · simp only [same, ↓reduceIte, ih]
      push_cast
      omega
    · simp only [same, ↓reduceIte, ih, add_zero]

theorem scanAllow_settled (tail : List Val) :
    ∀ (count : Int) (aok mask : BitVec 32), mask.getLsbD 0 = false →
      (scanAllow tail count aok mask).2.getLsbD 0 = aok.getLsbD 0 := by
  induction tail using tail_induction with
  | empty => intro count aok mask shifted; simp [scanAllow]
  | single word => intro count aok mask shifted; simp [scanAllow]
  | pair key value tail ih =>
    intro count aok mask shifted
    rw [scanAllow]
    by_cases same : key = .sym .kAllowOtherKeys
    · rw [if_pos same, ih _ _ _ (by simp)]
      split
      · rfl
      · rw [BitVec.getLsbD_or, shifted, Bool.or_false]
    · rw [if_neg same, ih _ _ _ shifted]

theorem scanAllow_allows (tail : List Val) :
    ∀ count : Int, (scanAllow tail count 0 1).2 &&& 1 = 0 ↔ ¬ Allows tail := by
  induction tail using tail_induction with
  | empty => intro count; simp [scanAllow, Allows, leftmost, pairs]
  | single word => intro count; simp [scanAllow, Allows, leftmost, pairs]
  | pair key value tail ih =>
    intro count
    rw [scanAllow, Allows, leftmost_cons]
    by_cases same : key = .sym .kAllowOtherKeys
    · simp only [same, ↓reduceIte, Option.some.injEq, exists_eq_left']
      rw [low_bit_clear, scanAllow_settled _ _ _ _ (by decide)]
      by_cases null : value = .nil <;> simp [null]
    · simp only [same, ↓reduceIte]
      exact ih count

/-- How many pairs no parameter claims. -/
def unclaimed (params : List Sym) (tail : List Val) : Nat :=
  (pairs tail).countP fun pair => pair.1 ∉ params.map Val.sym

/-- The pairs that belong to no parameter are the strangers and, when it is
not a parameter itself, the :ALLOW-OTHER-KEYS pairs. -/
theorem unclaimed_eq (params : List Sym) (tail : List Val) :
    unclaimed params tail = strangers params tail +
        if .kAllowOtherKeys ∈ params then 0 else occurrences (.sym .kAllowOtherKeys) tail := by
  unfold unclaimed strangers occurrences
  have listed : Val.sym .kAllowOtherKeys ∈ params.map Val.sym ↔ .kAllowOtherKeys ∈ params := by
    simp
  induction pairs tail with
  | nil => simp
  | cons pair rest ih =>
    simp only [countP_cons, decide_eq_true_eq]
    by_cases allow : pair.1 = .sym .kAllowOtherKeys
    · by_cases member : .kAllowOtherKeys ∈ params
      · simp only [allow, listed, member, not_true_eq_false, ↓reduceIte, false_and] at ih ⊢
        exact ih
      · simp only [allow, listed, member, not_false_eq_true, ↓reduceIte, ne_eq,
          not_true_eq_false, and_false] at ih ⊢
        omega
    · simp only [allow, ne_eq, not_false_eq_true, and_true, ↓reduceIte] at ih ⊢
      split <;> split at ih <;> simp_all; omega

theorem pairs_length (tail : List Val) (even : tail.length % 2 = 0) :
    2 * (pairs tail).length = tail.length := by
  induction tail using tail_induction with
  | empty => rfl
  | single word => simp at even
  | pair key value tail ih =>
    simp only [length_cons, pairs] at even ⊢
    have := ih (by omega)
    omega

theorem unclaimed_words (params : List Sym) (distinct : params.Nodup) (tail : List Val)
    (even : tail.length % 2 = 0) :
    (tail.length : Int) -
        2 * (((keysList params).map fun name => occurrences name tail).sum : Nat) =
      2 * unclaimed params tail := by
  have names : (keysList params).Nodup :=
    nodup_reverse.mpr (distinct.map fun _ _ same => Val.sym.inj same)
  have claimed : (pairs tail).countP (fun pair => pair.1 ∈ keysList params) =
      (pairs tail).countP fun pair => pair.1 ∈ params.map Val.sym := by
    simp only [keysList, mem_reverse]
  have total := length_eq_countP_add_countP (l := pairs tail)
    (fun pair => decide (pair.1 ∈ params.map Val.sym))
  have length := pairs_length tail even
  rw [sum_occurrences _ names, claimed, unclaimed]
  simp only [decide_eq_true_eq] at total
  omega

/-- OP_PUSHKEYS in closed form. Its last test compares the unclaimed pairs
with the :ALLOW-OTHER-KEYS pairs, whether or not these were claimed before. -/
theorem pushKeys_eq (params : List Sym) (distinct : params.Nodup) (aok : Bool)
    (tail : List Val) [Decidable (Allows tail)] :
    pushKeys aok (keysList params) tail [] =
      if tail.length % 2 = 1 then .error .oddNumber
      else if unclaimed params tail = 0 ∨ aok = true ∨ Allows tail ∨
          unclaimed params tail = occurrences (.sym .kAllowOtherKeys) tail then
        .ok ((params.map Val.sym).flatMap fun name => pushed name tail)
      else .error .unknownArgument := by
  unfold pushKeys
  by_cases odd : tail.length % 2 = 1
  · simp only [odd, ↓reduceIte]
  · have words := unclaimed_words params distinct tail (by omega)
    have names : (keysList params).reverse = params.map Val.sym := reverse_reverse _
    simp only [odd, ↓reduceIte, scanKeys_eq, words, names, append_nil, scanAllow_count,
      scanAllow_allows]
    by_cases none : unclaimed params tail = 0
    · rw [if_pos (by omega), if_pos (Or.inl none)]
    · rw [if_neg (by omega)]
      by_cases given : aok = true
      · rw [if_pos given, if_pos (by tauto)]
      · rw [if_neg given]
        by_cases allow : Allows tail
        · rw [if_neg (by tauto), if_pos (by tauto)]
        · by_cases same : unclaimed params tail = occurrences (.sym .kAllowOtherKeys) tail
          · rw [if_neg (by omega), if_pos (by tauto)]
          · rw [if_pos ⟨by omega, allow⟩, if_neg (by tauto)]

/-- An interpreted function accepts what the language accepts, and also the
tails in which :ALLOW-OTHER-KEYS, itself a parameter, occurs as often as
strangers do. -/
theorem interpretedKeys_eq (params : List Sym) (distinct : params.Nodup) (aok : Bool)
    (tail : List Val) [Decidable (Allows tail)] :
    interpretedKeys params aok tail =
      if tail.length % 2 = 1 then .error .oddNumber
      else if strangers params tail = 0 ∨ aok = true ∨ Allows tail ∨
          (.kAllowOtherKeys ∈ params ∧
            strangers params tail = occurrences (.sym .kAllowOtherKeys) tail) then
        .ok (params.map fun name => leftmost (.sym name) tail)
      else .error .unknownArgument := by
  have accepted : (unclaimed params tail = 0 ∨ aok = true ∨ Allows tail ∨
      unclaimed params tail = occurrences (.sym .kAllowOtherKeys) tail) ↔
        (strangers params tail = 0 ∨ aok = true ∨ Allows tail ∨
          (.kAllowOtherKeys ∈ params ∧
            strangers params tail = occurrences (.sym .kAllowOtherKeys) tail)) := by
    rw [unclaimed_eq]
    by_cases member : .kAllowOtherKeys ∈ params
    · simp only [member, ↓reduceIte, add_zero, true_and]
    · have one : strangers params tail + occurrences (.sym .kAllowOtherKeys) tail =
          occurrences (.sym .kAllowOtherKeys) tail ↔ strangers params tail = 0 := by omega
      simp only [member, ↓reduceIte, one, false_and, or_false, Nat.add_eq_zero_iff]
      tauto
  rw [interpretedKeys, pushKeys_eq params distinct aok tail]
  simp only [accepted]
  by_cases odd : tail.length % 2 = 1
  · simp only [odd, ↓reduceIte]
  · rw [if_neg odd, if_neg odd]
    by_cases good : strangers params tail = 0 ∨ aok = true ∨ Allows tail ∨
        (.kAllowOtherKeys ∈ params ∧
          strangers params tail = occurrences (.sym .kAllowOtherKeys) tail)
    · rw [if_pos good, if_pos good]
      simp only [popKeys_pushed]
    · rw [if_neg good, if_neg good]

/-- `state` holds the parameters found so far, as given by `seen`. -/
structure Holds (keys : List Val) (seen : Val → Option Val) (strange : Prop)
    (state : ParseState) : Prop where
  values : state.values = keys.map fun key => (seen key).getD .nil
  supplied : state.supplied = keys.map fun key => if (seen key).isSome then .t else .nil
  allow : .sym .kAllowOtherKeys ∉ keys →
    state.suppliedAllowOtherKeys = seen (.sym .kAllowOtherKeys)
  ignored : .sym .kAllowOtherKeys ∈ keys → state.suppliedAllowOtherKeys = none
  unknown : state.unknownKeyword.isSome = true ↔ strange

variable {keys : List Val}

theorem keyIndex_of_mem {keyword : Val} (member : keyword ∈ keys) :
    ∃ i, ∃ inside : i < keys.length, keyIndex keys keyword = some i ∧ keys[i] = keyword := by
  cases found : keyIndex keys keyword with
  | none =>
    rw [keyIndex, List.findIdx?_eq_none_iff] at found
    exact absurd (found keyword member) (by simp)
  | some i =>
    rw [keyIndex, List.findIdx?_eq_some_iff_getElem] at found
    obtain ⟨inside, same, _⟩ := found
    exact ⟨i, inside, rfl, by simpa using same⟩

theorem keyIndex_of_not_mem {keyword : Val} (absent : keyword ∉ keys) :
    keyIndex keys keyword = none := by
  rw [keyIndex, List.findIdx?_eq_none_iff]
  intro key member
  simp only [decide_eq_false_iff_not]
  rintro rfl
  exact absent member

theorem map_set_eq (distinct : keys.Nodup) (entry : Val → Val) (i : Nat)
    (inside : i < keys.length) (value : Val) :
    (keys.map entry).set i value =
      keys.map fun key => if key = keys[i] then value else entry key := by
  apply ext_getElem
  · simp
  · intro j left right
    rw [getElem_set, getElem_map]
    have bound : j < keys.length := by simpa using right
    by_cases same : i = j
    · simp [same]
    · have other : keys[j] ≠ keys[i] := fun equal =>
        same ((List.Nodup.getElem_inj_iff distinct).mp equal.symm)
      simp [same, other]

theorem Holds.start (keys : List Val) : Holds keys (fun _ => none) False (.start keys) := by
  refine ⟨?_, ?_, fun _ => rfl, fun _ => rfl, ?_⟩ <;> simp [ParseState.start]

theorem parsePair_holds (distinct : keys.Nodup) {seen : Val → Option Val}
    {strange : Prop} {state : ParseState} (holds : Holds keys seen strange state)
    (keyword value : Val) :
    Holds keys (fun key => (seen key).or (if keyword = key then some value else none))
      (strange ∨ (keyword ∉ keys ∧ keyword ≠ .sym .kAllowOtherKeys))
      (parsePair keys keyword value state) := by
  unfold parsePair
  by_cases member : keyword ∈ keys
  · obtain ⟨i, inside, index, same⟩ := keyIndex_of_mem member
    have flag : state.supplied.getD i .nil =
        if (seen keyword).isSome then Val.t else .nil := by
      rw [holds.supplied, getD_eq_getElem?_getD, List.getElem?_map,
        List.getElem?_eq_getElem inside, same]
      rfl
    simp only [index]
    cases found : seen keyword with
    | none =>
      simp only [found, Option.isSome_none, Bool.false_eq_true, ↓reduceIte] at flag
      simp only [flag, ↓reduceIte]
      constructor
      · rw [holds.values, map_set_eq distinct _ i inside, same]
        apply map_congr_left
        intro key _
        by_cases here : key = keyword
        · simp [here, found]
        · simp [here, Ne.symm here]
      · rw [holds.supplied, map_set_eq distinct _ i inside, same]
        apply map_congr_left
        intro key _
        by_cases here : key = keyword
        · simp [here, found]
        · simp [here, Ne.symm here]
      · intro absent
        have other : keyword ≠ .sym .kAllowOtherKeys := fun equal => absent (equal ▸ member)
        simp [other, holds.allow absent]
      · exact holds.ignored
      · simpa [member] using holds.unknown
    | some old =>
      simp only [found, Option.isSome_some, ↓reduceIte] at flag
      simp only [flag, reduceCtorEq, ↓reduceIte]
      have unchanged : ∀ key, (seen key).or (if keyword = key then some value else none) =
          seen key := by
        intro key
        by_cases here : keyword = key
        · simp [← here, found]
        · simp [here]
      simp only [unchanged, member, not_true_eq_false, false_and, or_false]
      exact ⟨holds.values, holds.supplied, holds.allow, holds.ignored, holds.unknown⟩
  · have unchanged : ∀ key ∈ keys,
        (seen key).or (if keyword = key then some value else none) = seen key := by
      intro key inside
      have other : keyword ≠ key := fun equal => member (equal ▸ inside)
      simp [other]
    have values : state.values = keys.map fun key =>
        ((seen key).or (if keyword = key then some value else none)).getD .nil := by
      rw [holds.values]
      exact map_congr_left fun key inside => by rw [unchanged key inside]
    have supplied : state.supplied = keys.map fun key =>
        if ((seen key).or (if keyword = key then some value else none)).isSome then
          Val.t else .nil := by
      rw [holds.supplied]
      exact map_congr_left fun key inside => by rw [unchanged key inside]
    simp only [keyIndex_of_not_mem member]
    by_cases allow : keyword = .sym .kAllowOtherKeys
    · have absent : .sym .kAllowOtherKeys ∉ keys := allow ▸ member
      have current := holds.allow absent
      simp only [allow, ↓reduceIte]
      rw [allow] at values supplied
      cases found : seen (.sym .kAllowOtherKeys) with
      | none =>
        rw [current, found]
        exact ⟨values, supplied, fun _ => by simp [found], fun inside => absurd inside absent,
          by simpa using holds.unknown⟩
      | some old =>
        rw [current, found]
        exact ⟨values, supplied, fun _ => by simp [found],
          fun inside => absurd inside absent, by simpa using holds.unknown⟩
    · have allowed : .sym .kAllowOtherKeys ∉ keys → state.suppliedAllowOtherKeys =
          (seen (.sym .kAllowOtherKeys)).or
            (if keyword = .sym .kAllowOtherKeys then some value else none) := by
        intro absent
        simp [allow, holds.allow absent]
      simp only [allow, ↓reduceIte]
      have unknown := holds.unknown
      cases found : state.unknownKeyword with
      | none =>
        exact ⟨values, supplied, allowed, holds.ignored, by simp [member, allow]⟩
      | some old =>
        rw [found] at unknown
        exact ⟨values, supplied, allowed, holds.ignored, by simp [← unknown]⟩

theorem parseLoop_holds {params : List Sym} (distinct : params.Nodup) (tail : List Val)
    (even : tail.length % 2 = 0) (symbols : ∀ pair ∈ pairs tail, pair.1.symbolp = true) :
    ∀ (seen : Val → Option Val) (strange : Prop) (state : ParseState),
      Holds (params.map Val.sym) seen strange state →
      ∃ final, parseLoop (params.map Val.sym) tail state = .ok final ∧
        Holds (params.map Val.sym) (fun key => (seen key).or (leftmost key tail))
          (strange ∨ strangers params tail ≠ 0) final := by
  induction tail using tail_induction with
  | empty =>
    intro seen strange state holds
    refine ⟨state, rfl, ?_⟩
    simpa [leftmost, pairs, strangers] using holds
  | single word => simp at even
  | pair key value tail ih =>
    intro seen strange state holds
    have isSymbol : key.symbolp = true := symbols (key, value) (by simp [pairs])
    have next := parsePair_holds
      (distinct.map fun _ _ same => Val.sym.inj same) holds key value
    obtain ⟨final, run, done⟩ := ih (by simp at even; omega)
      (fun pair member => symbols pair (by simp [pairs, member])) _ _ _ next
    refine ⟨final, by rw [parseLoop, if_pos isSymbol, run], ?_⟩
    have merged : (fun name => ((seen name).or (if key = name then some value else none)).or
        (leftmost name tail)) =
          fun name => (seen name).or (leftmost name (key :: value :: tail)) := by
      funext name
      rw [leftmost_cons, Option.or_assoc]
      by_cases same : key = name <;> simp [same]
    have counted : (strange ∨ (key ∉ params.map Val.sym ∧ key ≠ .sym .kAllowOtherKeys)) ∨
        strangers params tail ≠ 0 ↔
          strange ∨ strangers params (key :: value :: tail) ≠ 0 := by
      rw [strangers_cons, or_assoc]
      apply or_congr_right
      split
      · rename_i stranger
        simp only [stranger, not_false_eq_true, ne_eq, and_self, true_or, true_iff]
        omega
      · rename_i known
        simp only [known, false_or, add_zero]
    rw [merged] at done
    exact ⟨done.values, done.supplied, done.allow, done.ignored, done.unknown.trans counted⟩

theorem parseLoop_symbols : ∀ {state final : ParseState}, parseLoop keys tail state = .ok final →
      tail.length % 2 = 0 ∧ ∀ pair ∈ pairs tail, pair.1.symbolp = true := by
  induction tail using tail_induction with
  | empty => intro state final run; simp [pairs]
  | single word => intro state final run; simp [parseLoop] at run
  | pair key value tail ih =>
    intro state final run
    rw [parseLoop] at run
    split at run
    · rename_i isSymbol
      obtain ⟨even, symbols⟩ := ih run
      refine ⟨by simp only [length_cons]; omega, ?_⟩
      intro pair member
      rcases mem_cons.mp member with rfl | member
      · exact isSymbol
      · exact symbols pair member
    · cases run

/-- A compiled function demands symbols as keywords and does not look at an
:ALLOW-OTHER-KEYS argument that one of its parameters takes. -/
theorem compiledKeys_succeeds (params : List Sym) (distinct : params.Nodup) (aok : Bool)
    (tail : List Val) :
    Succeeds (compiledKeys params aok tail) ↔
      tail.length % 2 = 0 ∧ (∀ pair ∈ pairs tail, pair.1.symbolp = true) ∧
        (strangers params tail = 0 ∨ aok = true ∨
          (.kAllowOtherKeys ∉ params ∧ Allows tail)) := by
  unfold compiledKeys parseKey
  have listed : Val.sym .kAllowOtherKeys ∈ params.map Val.sym ↔ .kAllowOtherKeys ∈ params := by
    simp
  by_cases shape : tail.length % 2 = 0 ∧ ∀ pair ∈ pairs tail, pair.1.symbolp = true
  · obtain ⟨even, symbols⟩ := shape
    obtain ⟨final, run, holds⟩ := parseLoop_holds distinct tail even symbols
      (fun _ => none) False _ (Holds.start _)
    have unknown := holds.unknown
    simp only [false_or] at unknown
    have allow : final.suppliedAllowOtherKeys.getD .nil = .nil ↔
        ¬ (.kAllowOtherKeys ∉ params ∧ Allows tail) := by
      by_cases member : .kAllowOtherKeys ∈ params
      · simp [holds.ignored (listed.mpr member), member]
      · rw [holds.allow (fun inside => member (listed.mp inside)), Option.none_or, Allows]
        cases leftmost (.sym .kAllowOtherKeys) tail <;> simp [member]
    simp only [run, even, true_and]
    rw [and_iff_right symbols]
    cases found : final.unknownKeyword with
    | none =>
      rw [found] at unknown
      have none : strangers params tail = 0 := by simpa using unknown
      simp only [none, true_or, iff_true]
      exact ⟨final, rfl⟩
    | some keyword =>
      rw [found] at unknown
      have strange : strangers params tail ≠ 0 := by simpa using unknown
      simp only [strange, false_or]
      by_cases refused : aok = false ∧ final.suppliedAllowOtherKeys.getD .nil = .nil
      · rw [if_pos refused]
        have closed := allow.mp refused.2
        simp [Succeeds, refused.1, closed]
      · rw [if_neg refused, ← not_not (a := .kAllowOtherKeys ∉ params ∧ Allows tail), ← allow]
        refine iff_of_true ⟨final, rfl⟩ ?_
        cases aok <;> simp_all
  · constructor
    · rintro ⟨state, success⟩
      cases run : parseLoop (params.map Val.sym) tail (.start (params.map Val.sym)) with
      | error reason => rw [run] at success; cases success
      | ok final => exact absurd (parseLoop_symbols run) shape
    · rintro ⟨even, symbols, _⟩
      exact absurd ⟨even, symbols⟩ shape

theorem compiledKeys_values (params : List Sym) (distinct : params.Nodup) (aok : Bool)
    (tail : List Val) (state : ParseState) (success : compiledKeys params aok tail = .ok state) :
    state.values = (params.map fun name => (leftmost (.sym name) tail).getD .nil) ∧
      state.supplied =
        params.map fun name => if (leftmost (.sym name) tail).isSome then Val.t else .nil := by
  unfold compiledKeys parseKey at success
  split at success
  · cases success
  · rename_i final run
    obtain ⟨even, symbols⟩ := parseLoop_symbols run
    obtain ⟨last, again, holds⟩ := parseLoop_holds distinct tail even symbols
      (fun _ => none) False
      _ (Holds.start _)
    have same : final = last := Except.ok.inj (run.symm.trans again)
    have result : state = final := by
      split at success
      · exact (Except.ok.inj success).symm
      · split at success
        · cases success
        · exact (Except.ok.inj success).symm
    rw [result, same, holds.values, holds.supplied]
    simp only [Option.none_or, map_map]
    exact ⟨rfl, rfl⟩

/-- The two parsers agree with each other and with the rule of the language on
these parameters and arguments. -/
structure Agreement (params : List Sym) (aok : Bool) (tail : List Val) : Prop where
  together : Succeeds (interpretedKeys params aok tail) ↔ Succeeds (compiledKeys params aok tail)
  rule : Succeeds (interpretedKeys params aok tail) ↔ Accepts params aok tail
  interpreted : ∀ found, interpretedKeys params aok tail = .ok found →
    found = params.map fun name => leftmost (.sym name) tail
  compiled : ∀ state, compiledKeys params aok tail = .ok state →
    state.values = (params.map fun name => (leftmost (.sym name) tail).getD .nil) ∧
      state.supplied =
        params.map fun name => if (leftmost (.sym name) tail).isSome then Val.t else .nil

/-- What an argument tail of even length must satisfy for the parsers to agree:
an object that is no symbol stands as a keyword only where strangers are
rejected anyway, and strangers passed to a function with a parameter
:ALLOW-OTHER-KEYS meet no true :ALLOW-OTHER-KEYS and do not occur exactly as
often as it does. -/
def Regular (params : List Sym) (aok : Bool) (tail : List Val) : Prop :=
  tail.length % 2 = 0 →
    ((∃ pair ∈ pairs tail, pair.1.symbolp = false) → aok = false ∧ ¬ Allows tail) ∧
    (.kAllowOtherKeys ∈ params → aok = false → strangers params tail ≠ 0 →
      ¬ Allows tail ∧
        strangers params tail ≠ occurrences (.sym .kAllowOtherKeys) tail)

theorem interpretedKeys_succeeds (params : List Sym) (distinct : params.Nodup) (aok : Bool)
    (tail : List Val) :
    Succeeds (interpretedKeys params aok tail) ↔
      tail.length % 2 = 0 ∧
        (strangers params tail = 0 ∨ aok = true ∨ Allows tail ∨
          (.kAllowOtherKeys ∈ params ∧
            strangers params tail = occurrences (.sym .kAllowOtherKeys) tail)) := by
  classical
  rw [interpretedKeys_eq params distinct aok tail, Succeeds]
  by_cases odd : tail.length % 2 = 1
  · simp [odd]
  · have even : tail.length % 2 = 0 := by omega
    rw [if_neg odd]
    split
    · rename_i good
      simp only [even, good, and_self, iff_true]
      exact ⟨_, rfl⟩
    · rename_i bad
      simp [even, bad]

theorem interpretedKeys_values (params : List Sym) (distinct : params.Nodup) (aok : Bool)
    (tail : List Val) (found : List (Option Val))
    (success : interpretedKeys params aok tail = .ok found) :
    found = params.map fun name => leftmost (.sym name) tail := by
  classical
  rw [interpretedKeys_eq params distinct aok tail] at success
  split at success
  · cases success
  · split at success
    · exact (Except.ok.inj success).symm
    · cases success

theorem strangers_of_not_symbol (params : List Sym) (tail : List Val)
    (strange : ∃ pair ∈ pairs tail, pair.1.symbolp = false) : strangers params tail ≠ 0 := by
  obtain ⟨pair, member, notSymbol⟩ := strange
  intro none
  rcases (strangers_eq_zero params tail).mp none pair member with known | allow
  · obtain ⟨name, _, same⟩ := mem_map.mp known
    rw [← same] at notSymbol
    cases notSymbol
  · rw [allow] at notSymbol
    cases notSymbol

/-- The case analysis behind the agreement: E even length, S no strangers, A
&ALLOW-OTHER-KEYS, L a true leftmost :ALLOW-OTHER-KEYS, M a parameter of that
name, K as many strangers as such arguments, N a keyword that is no symbol. -/
theorem agreement_cases (E S A L M K N : Prop) (strange : N → ¬ S) :
    ((E ∧ (S ∨ A ∨ L ∨ (M ∧ K)) ↔ E ∧ ¬ N ∧ (S ∨ A ∨ (¬ M ∧ L))) ∧
      (E ∧ (S ∨ A ∨ L ∨ (M ∧ K)) ↔ E ∧ (S ∨ A ∨ L))) ↔
        (E → (N → ¬ A ∧ ¬ L) ∧ (M → ¬ A → ¬ S → ¬ L ∧ ¬ K)) := by
  by_cases e : E
  · by_cases s : S
    · have n : ¬ N := fun n => strange n s
      simp [e, s, n]
    · by_cases a : A
      · simp [e, s, a]
      · by_cases l : L <;> by_cases m : M <;> simp [e, s, a, l, m]
  · simp [e]

/-- Keyword parsing, both ways: the interpreter and cl_parse_key agree with
each other and with the language exactly on the regular argument tails. -/
theorem keyword_parsing_agrees (params : List Sym) (distinct : params.Nodup) (aok : Bool)
    (tail : List Val) : Agreement params aok tail ↔ Regular params aok tail := by
  have interpreted := interpretedKeys_succeeds params distinct aok tail
  have compiled := compiledKeys_succeeds params distinct aok tail
  have accepts : Accepts params aok tail ↔ tail.length % 2 = 0 ∧
      (strangers params tail = 0 ∨ aok = true ∨ Allows tail) := by
    rw [Accepts, strangers_eq_zero]
  have symbols : (∀ pair ∈ pairs tail, pair.1.symbolp = true) ↔
      ¬ ∃ pair ∈ pairs tail, pair.1.symbolp = false := by
    simp only [not_exists, not_and, Bool.not_eq_false]
  have refused : aok = false ↔ ¬ aok = true := by cases aok <;> simp
  have cases := agreement_cases (tail.length % 2 = 0) (strangers params tail = 0) (aok = true)
    (Allows tail) (.kAllowOtherKeys ∈ params)
    (strangers params tail = occurrences (.sym .kAllowOtherKeys) tail)
    (∃ pair ∈ pairs tail, pair.1.symbolp = false) (strangers_of_not_symbol params tail)
  rw [Regular, refused, ← cases, ← symbols, ← interpreted, ← compiled, ← accepts]
  constructor
  · intro agreement
    exact ⟨agreement.together, agreement.rule⟩
  · rintro ⟨together, rule⟩
    exact ⟨together, rule, interpretedKeys_values params distinct aok tail,
      compiledKeys_values params distinct aok tail⟩

theorem keyword_parsing_agrees_two_keys :
    Agreement [.keyword 0, .keyword 1] false
      [.sym (.keyword 1), .fixnum 5, .sym .kAllowOtherKeys, .nil] :=
  (keyword_parsing_agrees [.keyword 0, .keyword 1] (by decide) false
    [.sym (.keyword 1), .fixnum 5, .sym .kAllowOtherKeys, .nil]).mpr
    (fun _ => ⟨by simp [pairs, Val.symbolp], by simp⟩)

/-- With :ALLOW-OTHER-KEYS as a parameter, one false :ALLOW-OTHER-KEYS argument
pays for one unknown keyword in OP_PUSHKEYS. -/
theorem keyword_parsing_disagrees :
    ¬ Agreement [.kAllowOtherKeys] false
      [.sym .kAllowOtherKeys, .nil, .sym (.keyword 0), .fixnum 1] := by
  intro agreement
  have success : Succeeds (interpretedKeys [.kAllowOtherKeys] false
      [.sym .kAllowOtherKeys, .nil, .sym (.keyword 0), .fixnum 1]) := ⟨[some .nil], by decide⟩
  obtain ⟨state, parsed⟩ := agreement.together.mp success
  have failed : compiledKeys [.kAllowOtherKeys] false
      [.sym .kAllowOtherKeys, .nil, .sym (.keyword 0), .fixnum 1] =
        .error (.unknownKeyword (.sym (.keyword 0))) := by decide
  rw [failed] at parsed
  cases parsed

end Ecl.Keys
