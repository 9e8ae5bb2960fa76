import Mathlib.Data.BitVec

/- The reader of block comments in read.d, against the digraphs of the text. -/
namespace Ecl.Reader

open List

/-- The two characters that block comments are made of. -/
def numberSign : Nat := '#'.toNat

def verticalBar : Nat := '|'.toNat

inductive CommentError where
  | extraArgument
  | endOfFile
  deriving DecidableEq

/-- The text of extra_argument. -/
def CommentError.text : CommentError → String
  | .extraArgument => "~S is an extra argument for the #~C readmacro."
  | .endOfFile => "end of file"

/-- The loop of sharp_vertical_bar_reader. `level` is an int. A jump to the label L with
a character in hand is a step of the loop that reads this character again. -/
def commentLoop : List Nat → BitVec 32 → Except CommentError (List Nat)
  | [], _ => .error .endOfFile
  | c :: input, level =>
    if c = numberSign then
      match input with
      | [] => .error .endOfFile
      | c :: input => commentLoop input (if c = verticalBar then level + 1 else level)
    else if c = verticalBar then
      match input with
      | [] => .error .endOfFile
      | c :: rest =>
        if c = numberSign then
          if level = 0 then .ok rest else commentLoop rest (level - 1)
        else commentLoop (c :: rest) level
    else commentLoop input level

theorem commentLoop_cons (c : Nat) (input : List Nat) (level : BitVec 32) :
    commentLoop (c :: input) level =
      if c = numberSign then
        match input with
        | [] => .error .endOfFile
        | c :: input => commentLoop input (if c = verticalBar then level + 1 else level)
      else if c = verticalBar then
        match input with
        | [] => .error .endOfFile
        | c :: rest =>
          if c = numberSign then
            if level = 0 then .ok rest else commentLoop rest (level - 1)
          else commentLoop (c :: rest) level
      else commentLoop input level := by
  rw [commentLoop.eq_def]

/-- The function sharp_vertical_bar_reader, with what it leaves of the input. `d` is the
number between the characters of the dispatching macro. -/
def sharpVerticalBarReader (d : Option Nat) (readSuppress : Bool) (input : List Nat) :
    Except CommentError (List Nat) :=
  if d.isSome ∧ !readSuppress then .error .extraArgument else commentLoop input 0

inductive Digraph where
  | opening
  | closing
  deriving DecidableEq

/-- The digraphs of a text, read from the left without overlap. -/
def digraphs : List Nat → List Digraph
  | c :: d :: rest =>
    if c = numberSign ∧ d = verticalBar then .opening :: digraphs rest
    else if c = verticalBar ∧ d = numberSign then .closing :: digraphs rest
    else digraphs (d :: rest)
  | _ => []

/-- The openings that are not closed. -/
def excess (text : List Nat) : Int :=
  ((digraphs text).count .opening : Int) - (digraphs text).count .closing

/-- The shortest text that closes as many openings as were open. -/
structure Closes (depth : Nat) (text : List Nat) : Prop where
  balanced : depth + excess text = 0
  shortest : ∀ shorter, shorter <+: text → shorter ≠ text → depth + excess shorter ≠ 0

/-- What block comments are: the text after #| up to the end that balances it. -/
def CommentLaw (input : List Nat) : Except CommentError (List Nat) → Prop
  | .ok rest => ∃ text, input = text ++ rest ∧ Closes 1 text
  | .error .endOfFile => ∀ text, text <+: input → (1 : Int) + excess text ≠ 0
  | .error .extraArgument => False

/-- The text ends, when an opening that stands behind a skipped number sign is taken for
no opening; and `hidden` tells whether there is one before the end, or one closing more than
an int can count. -/
def endsMisread : List Nat → Nat → Bool → Bool
  | c :: d :: rest, depth, hidden =>
    if c = numberSign then
      if d = verticalBar then endsMisread rest (depth + 1) hidden
      else endsMisread rest depth (hidden || (d = numberSign && rest.head? = some verticalBar))
    else if c = verticalBar ∧ d = numberSign then
      if depth % 2 ^ 32 = 0 then hidden || depth ≠ 0 else endsMisread rest (depth - 1) hidden
    else endsMisread (d :: rest) depth hidden
  | _, _, _ => false

theorem numberSign_ne_verticalBar : numberSign ≠ verticalBar := by decide

/-- The loop at a depth that is counted without overflow. -/
def scan (input : List Nat) (depth : Nat) : Except CommentError (List Nat) :=
  commentLoop input (BitVec.ofNat 32 depth)

@[simp] theorem scan_nil (depth : Nat) : scan [] depth = .error .endOfFile := rfl

theorem scan_singleton (c depth : Nat) : scan [c] depth = .error .endOfFile := by
  rw [scan, commentLoop_cons]
  split
  · rfl
  · split <;> rfl

theorem scan_open (rest : List Nat) (depth : Nat) :
    scan (numberSign :: verticalBar :: rest) depth = scan rest (depth + 1) := by
  have next : BitVec.ofNat 32 (depth + 1) = BitVec.ofNat 32 depth + 1 := BitVec.ofNat_add depth 1
  rw [scan, commentLoop_cons, if_pos rfl, scan, next]
  simp only [if_true]

variable {d : Nat}

theorem scan_pair (other : d ≠ verticalBar) (rest : List Nat) (depth : Nat) :
    scan (numberSign :: d :: rest) depth = scan rest depth := by
  rw [scan, commentLoop_cons, if_pos rfl]
  simp only [other, if_false]
  rfl

theorem scan_close (rest : List Nat) (depth : Nat) :
    scan (verticalBar :: numberSign :: rest) depth =
      if depth % 2 ^ 32 = 0 then .ok rest else scan rest (depth - 1) := by
  have zero : BitVec.ofNat 32 depth = 0 ↔ depth % 2 ^ 32 = 0 := by
    rw [← BitVec.toNat_inj]
    simp
  have differ := numberSign_ne_verticalBar.symm
  rw [scan, commentLoop_cons, if_neg differ, if_pos rfl]
  simp only [if_true, zero]
  split
  · rfl
  · rename_i counted
    have previous : BitVec.ofNat 32 depth - 1 = BitVec.ofNat 32 (depth - 1) := by
      obtain ⟨lower, rfl⟩ : ∃ n, depth = n + 1 := ⟨depth - 1, by omega⟩
      rw [BitVec.ofNat_add]
      simp
    rw [previous, scan]

theorem scan_bar (other : d ≠ numberSign) (rest : List Nat) (depth : Nat) :
    scan (verticalBar :: d :: rest) depth = scan (d :: rest) depth := by
  rw [scan, commentLoop_cons, if_neg numberSign_ne_verticalBar.symm, if_pos rfl]
  simp only [other, if_false]
  rfl

variable {c : Nat}

theorem scan_other (sign : c ≠ numberSign) (bar : c ≠ verticalBar) (rest : List Nat)
    (depth : Nat) : scan (c :: rest) depth = scan rest depth := by
  rw [scan, commentLoop_cons, if_neg sign, if_neg bar]
  rfl

/-- The text after the digraph that closes one opening more than `depth`. -/
def afterComment : List Nat → Nat → Option (List Nat)
  | c :: d :: rest, depth =>
    if c = numberSign ∧ d = verticalBar then afterComment rest (depth + 1)
    else if c = verticalBar ∧ d = numberSign then
      if depth = 0 then some rest else afterComment rest (depth - 1)
    else afterComment (d :: rest) depth
  | _, _ => none

theorem afterComment_cons (c d : Nat) (rest : List Nat) (depth : Nat) :
    afterComment (c :: d :: rest) depth =
      if c = numberSign ∧ d = verticalBar then afterComment rest (depth + 1)
      else if c = verticalBar ∧ d = numberSign then
        if depth = 0 then some rest else afterComment rest (depth - 1)
      else afterComment (d :: rest) depth := rfl

theorem afterComment_open (rest : List Nat) (depth : Nat) :
    afterComment (numberSign :: verticalBar :: rest) depth = afterComment rest (depth + 1) := by
  simp only [afterComment_cons, and_self, if_true]

theorem afterComment_close (rest : List Nat) (depth : Nat) :
    afterComment (verticalBar :: numberSign :: rest) depth =
      if depth = 0 then some rest else afterComment rest (depth - 1) := by
  simp only [afterComment_cons, numberSign_ne_verticalBar.symm, false_and, if_false,
    and_self, if_true]

theorem afterComment_skip (opening : ¬(c = numberSign ∧ d = verticalBar))
    (closing : ¬(c = verticalBar ∧ d = numberSign)) (rest : List Nat) (depth : Nat) :
    afterComment (c :: d :: rest) depth = afterComment (d :: rest) depth := by
  simp only [afterComment_cons, opening, closing, if_false]

theorem afterComment_other (sign : c ≠ numberSign) (bar : c ≠ verticalBar)
    (rest : List Nat) (depth : Nat) : afterComment (c :: rest) depth = afterComment rest depth := by
  cases rest with
  | nil => rfl
  | cons d rest => exact afterComment_skip (by simp [sign]) (by simp [bar]) rest depth

variable {input rest : List Nat} {depth : Nat}

theorem afterComment_length
    (ends : afterComment input depth = some rest) : rest.length + 2 ≤ input.length := by
  fun_induction afterComment input depth with
  | case1 c d text depth opening ih =>
    have := ih ends
    simp only [length_cons]
    omega
  | case2 c d text =>
    cases ends
    simp
  | case3 c d text depth opening closing positive ih =>
    have := ih ends
    simp only [length_cons]
    omega
  | case4 c d text depth opening closing ih =>
    have := ih ends
    simp only [length_cons] at this ⊢
    omega
  | case5 => cases ends

theorem afterComment_sign (other : rest.head? ≠ some verticalBar) (depth : Nat) :
    afterComment (numberSign :: rest) depth = afterComment rest depth := by
  cases rest with
  | nil => rfl
  | cons d rest =>
    refine afterComment_skip (fun opening => other ?_)
      (fun closing => numberSign_ne_verticalBar closing.1) rest depth
    rw [List.head?_cons, opening.2]

/-- The reader has stopped, with more of the input left than there is at the end. -/
def StopsBefore (result : Except CommentError (List Nat)) (ends : Option (List Nat)) : Prop :=
  ∀ rest, ends = some rest → ∃ more, result = .ok more ∧ rest.length < more.length

theorem StopsBefore.none {result : Except CommentError (List Nat)} : StopsBefore result none := by
  intro rest ends
  cases ends

/-- A reader that has counted too few openings stops too early. So it does when it
takes the bar of such an opening for the next character. -/
theorem scan_early (input : List Nat) : ∀ {counted depth : Nat}, counted < depth →
    StopsBefore (scan input counted) (afterComment input depth) ∧
      StopsBefore (scan (verticalBar :: input) counted) (afterComment input depth) := by
  induction length : input.length using Nat.strong_induction_on generalizing input with
  | _ n ih =>
    subst length
    intro counted depth less
    match input with
    | [] => exact ⟨.none, .none⟩
    | [c] => exact ⟨.none, .none⟩
    | c :: d :: rest =>
      have tail : ∀ {counted depth : Nat}, counted < depth →
          StopsBefore (scan (d :: rest) counted) (afterComment (d :: rest) depth) :=
        fun less => (ih _ (by simp) (d :: rest) rfl less).1
      have after : ∀ {counted depth : Nat}, counted < depth →
          StopsBefore (scan rest counted) (afterComment rest depth) ∧
            StopsBefore (scan (verticalBar :: rest) counted) (afterComment rest depth) :=
        fun less => ih _ (by simp only [length_cons]; omega) rest rfl less
      have first : StopsBefore (scan (c :: d :: rest) counted)
          (afterComment (c :: d :: rest) depth) := by
        by_cases sign : c = numberSign
        · subst sign
          by_cases bar : d = verticalBar
          · subst bar
            rw [scan_open, afterComment_open]
            exact (after (by omega)).1
          · rw [scan_pair bar, afterComment_sign (by simpa using bar)]
            by_cases again : d = numberSign
            · subst again
              by_cases hidden : rest.head? = some verticalBar
              · obtain ⟨text, rfl⟩ : ∃ text, rest = verticalBar :: text :=
                  List.head?_eq_some_iff.mp hidden
                rw [afterComment_open]
                exact (ih _ (by simp only [length_cons]; omega) text rfl (by omega)).2
              · rw [afterComment_sign hidden]
                exact (after less).1
            · rw [afterComment_other again bar]
              exact (after less).1
        · by_cases bar : c = verticalBar
          · subst bar
            by_cases closing : d = numberSign
            · subst closing
              rw [scan_close, afterComment_close, if_neg (show depth ≠ 0 by omega)]
              split
              · intro text ends
                exact ⟨rest, rfl, by have := afterComment_length ends; omega⟩
              · exact (after (by omega)).1
            · rw [scan_bar closing, afterComment_skip (by simp [sign]) (by simp [closing])]
              exact tail less
          · rw [scan_other sign bar, afterComment_other sign bar]
            exact tail less
      refine ⟨first, ?_⟩
      by_cases sign : c = numberSign
      · subst sign
        rw [scan_close]
        split
        · intro text ends
          refine ⟨d :: rest, rfl, ?_⟩
          have := afterComment_length ends
          simp only [length_cons] at this ⊢
          omega
        · by_cases bar : d = verticalBar
          · subst bar
            rw [afterComment_open]
            exact (after (by omega)).2
          · rw [afterComment_sign (by simpa using bar)]
            exact tail (by omega)
      · rw [scan_bar sign]
        exact first

theorem endsMisread_sign (d : Nat) (rest : List Nat) (depth : Nat) (hidden : Bool) :
    endsMisread (numberSign :: d :: rest) depth hidden =
      if d = verticalBar then endsMisread rest (depth + 1) hidden
      else endsMisread rest depth
        (hidden || (d = numberSign && rest.head? = some verticalBar)) := by
  simp only [endsMisread, if_true]

theorem endsMisread_close (rest : List Nat) (depth : Nat) (hidden : Bool) :
    endsMisread (verticalBar :: numberSign :: rest) depth hidden =
      if depth % 2 ^ 32 = 0 then hidden || depth ≠ 0 else endsMisread rest (depth - 1) hidden := by
  simp only [endsMisread, numberSign_ne_verticalBar.symm, and_self, if_true, if_false]

theorem endsMisread_other (sign : c ≠ numberSign)
    (closing : ¬(c = verticalBar ∧ d = numberSign)) (rest : List Nat) (depth : Nat)
    (hidden : Bool) :
    endsMisread (c :: d :: rest) depth hidden = endsMisread (d :: rest) depth hidden := by
  simp only [endsMisread, sign, closing, if_false]

theorem scan_skip (sign : c ≠ numberSign)
    (closing : ¬(c = verticalBar ∧ d = numberSign)) (rest : List Nat) (depth : Nat) :
    scan (c :: d :: rest) depth = scan (d :: rest) depth := by
  by_cases bar : c = verticalBar
  · subst bar
    exact scan_bar (fun same => closing ⟨rfl, same⟩) rest depth
  · exact scan_other sign bar _ depth

theorem endsMisread_hidden (input : List Nat) (depth : Nat) :
    endsMisread input depth true = true ↔ ∃ rest, scan input depth = .ok rest := by
  induction length : input.length using Nat.strong_induction_on generalizing input depth with
  | _ n ih =>
    subst length
    match input with
    | [] => simp [endsMisread]
    | [c] => simp [endsMisread, scan_singleton]
    | c :: d :: rest =>
      have after : ∀ depth, endsMisread rest depth true = true ↔
          ∃ text, scan rest depth = .ok text :=
        fun depth => ih _ (by simp only [length_cons]; omega) rest depth rfl
      by_cases sign : c = numberSign
      · subst sign
        rw [endsMisread_sign]
        split
        · rename_i bar
          rw [bar, scan_open]
          exact after (depth + 1)
        · rename_i bar
          rw [scan_pair bar, Bool.true_or]
          exact after depth
      · by_cases closing : c = verticalBar ∧ d = numberSign
        · obtain ⟨rfl, rfl⟩ := closing
          rw [endsMisread_close, scan_close]
          split
          · simp
          · exact after (depth - 1)
        · rw [endsMisread_other sign closing, scan_skip sign closing]
          exact ih _ (by simp) (d :: rest) depth rfl

/-- How a reader ends that finds the end of the comment or none. -/
def commentResult : Option (List Nat) → Except CommentError (List Nat)
  | some rest => .ok rest
  | none => .error .endOfFile

theorem commentLoop_error {level : BitVec 32} {fault : CommentError}
    (failed : commentLoop input level = .error fault) : fault = .endOfFile := by
  fun_induction commentLoop input level <;> grind

theorem StopsBefore.eq_iff {ends : Option (List Nat)}
    (early : StopsBefore (scan input depth) ends) :
    scan input depth = commentResult ends ↔ endsMisread input depth true = false := by
  rw [← Bool.not_eq_true, endsMisread_hidden]
  constructor
  · rintro same ⟨more, stops⟩
    rw [stops] at same
    cases ends with
    | none => cases same
    | some rest =>
      obtain ⟨other, stops', less⟩ := early rest rfl
      rw [stops] at stops'
      cases same
      cases stops'
      exact Nat.lt_irrefl _ less
  · intro never
    cases ends with
    | none =>
      cases result : scan input depth with
      | ok more => exact absurd ⟨more, result⟩ never
      | error fault => rw [commentLoop_error result, commentResult]
    | some rest =>
      obtain ⟨more, stops, -⟩ := early rest rfl
      exact absurd ⟨more, stops⟩ never

/-- The reader of comments finds the right end, unless it comes to an end after a
hidden opening. -/
theorem scan_eq_iff (input : List Nat) (depth : Nat) :
    scan input depth = commentResult (afterComment input depth) ↔
      endsMisread input depth false = false := by
  induction length : input.length using Nat.strong_induction_on generalizing input depth with
  | _ n ih =>
    subst length
    match input with
    | [] => simp [endsMisread, afterComment, commentResult]
    | [c] => simp [endsMisread, afterComment, commentResult, scan_singleton]
    | c :: d :: rest =>
      have after : ∀ depth, scan rest depth = commentResult (afterComment rest depth) ↔
          endsMisread rest depth false = false :=
        fun depth => ih _ (by simp only [length_cons]; omega) rest depth rfl
      by_cases sign : c = numberSign
      · subst sign
        rw [endsMisread_sign]
        by_cases bar : d = verticalBar
        · rw [if_pos bar, bar, scan_open, afterComment_open]
          exact after (depth + 1)
        · rw [if_neg bar, scan_pair bar, afterComment_sign (by simpa using bar), Bool.false_or]
          by_cases again : d = numberSign
          · subst again
            by_cases hidden : rest.head? = some verticalBar
            · obtain ⟨text, rfl⟩ : ∃ text, rest = verticalBar :: text :=
                List.head?_eq_some_iff.mp hidden
              rw [afterComment_open, hidden]
              exact (scan_early text (Nat.lt_succ_self depth)).2.eq_iff
            · rw [afterComment_sign hidden]
              simpa [hidden] using after depth
          · rw [afterComment_other again bar]
            simpa [again] using after depth
      · by_cases closing : c = verticalBar ∧ d = numberSign
        · obtain ⟨rfl, rfl⟩ := closing
          rw [endsMisread_close, scan_close, afterComment_close]
          by_cases full : depth % 2 ^ 32 = 0
          · rw [if_pos full, if_pos full]
            by_cases zero : depth = 0
            · simp [zero, commentResult]
            · rw [if_neg zero]
              simp only [Bool.false_or, zero, not_false_eq_true, decide_true, reduceCtorEq,
                iff_false, ne_eq]
              intro same
              cases ends : afterComment rest (depth - 1) with
              | none =>
                rw [ends] at same
                cases same
              | some text =>
                rw [ends] at same
                cases same
                have := afterComment_length ends
                omega
          · rw [if_neg full, if_neg full, if_neg (fun zero => full (by simp [zero]))]
            exact after (depth - 1)
        · rw [endsMisread_other sign closing, scan_skip sign closing,
            afterComment_skip (fun opening => sign opening.1) closing]
          exact ih _ (by simp) (d :: rest) depth rfl

@[simp] theorem excess_nil : excess [] = 0 := rfl

@[simp] theorem excess_singleton (c : Nat) : excess [c] = 0 := rfl

theorem excess_open (rest : List Nat) :
    excess (numberSign :: verticalBar :: rest) = excess rest + 1 := by
  simp only [excess, digraphs, and_self, if_true, count_cons_self]
  rw [count_cons_of_ne (by decide)]
  omega

theorem excess_close (rest : List Nat) :
    excess (verticalBar :: numberSign :: rest) = excess rest - 1 := by
  simp only [excess, digraphs, numberSign_ne_verticalBar, numberSign_ne_verticalBar.symm, and_self,
    if_true, if_false, count_cons_self]
  rw [count_cons_of_ne (by decide)]
  omega

theorem excess_skip (opening : ¬(c = numberSign ∧ d = verticalBar))
    (closing : ¬(c = verticalBar ∧ d = numberSign)) {text : List Nat}
    (inside : text <+: d :: rest) : excess (c :: text) = excess text := by
  cases text with
  | nil => rfl
  | cons e text =>
    obtain ⟨rfl, -⟩ := cons_prefix_cons.mp inside
    simp only [excess, digraphs, opening, closing, if_false]

theorem prefix_two {text : List Nat} (inside : text <+: c :: d :: rest) :
    text = [] ∨ text = [c] ∨ ∃ more, text = c :: d :: more ∧ more <+: rest := by
  rcases prefix_cons_iff.mp inside with rfl | ⟨tail, rfl, after⟩
  · exact .inl rfl
  · rcases prefix_cons_iff.mp after with rfl | ⟨more, rfl, last⟩
    · exact .inr (.inl rfl)
    · exact .inr (.inr ⟨more, rfl, last⟩)

variable {depth' : Nat}

theorem Closes.digraph {text : List Nat} {change : Int}
    (closes : Closes depth' text) (counts : (depth : Int) + change = depth') (open' : depth ≠ 0)
    (excess_eq : ∀ text, excess (c :: d :: text) = excess text + change) :
    Closes depth (c :: d :: text) := by
  constructor
  · have := closes.balanced
    rw [excess_eq]
    omega
  · intro shorter inside differ
    rcases prefix_two inside with rfl | rfl | ⟨more, rfl, after⟩
    · rw [excess_nil]
      omega
    · rw [excess_singleton]
      omega
    · have := closes.shortest more after (fun same => differ (by rw [same]))
      rw [excess_eq]
      omega

theorem unbalanced_digraph {change : Int}
    (never : ∀ text, text <+: input → (depth' : Int) + excess text ≠ 0)
    (counts : (depth : Int) + change = depth') (open' : depth ≠ 0)
    (excess_eq : ∀ text, excess (c :: d :: text) = excess text + change) :
    ∀ text, text <+: c :: d :: input → (depth : Int) + excess text ≠ 0 := by
  intro text inside
  rcases prefix_two inside with rfl | rfl | ⟨more, rfl, after⟩
  · rw [excess_nil]
    omega
  · rw [excess_singleton]
    omega
  · have := never more after
    rw [excess_eq]
    omega

/-- What is left after a comment, by the digraphs. -/
def Ends (depth : Nat) (input : List Nat) : Option (List Nat) → Prop
  | some rest => ∃ text, input = text ++ rest ∧ Closes depth text
  | none => ∀ text, text <+: input → (depth : Int) + excess text ≠ 0

theorem Ends.digraph {result : Option (List Nat)}
    (depth : Nat) (change : Int) (ends : Ends depth' input result)
    (counts : (depth : Int) + change = depth')
    (open' : depth ≠ 0) (excess_eq : ∀ text, excess (c :: d :: text) = excess text + change) :
    Ends depth (c :: d :: input) result := by
  cases result with
  | none => exact unbalanced_digraph ends counts open' excess_eq
  | some rest =>
    obtain ⟨text, rfl, closes⟩ := ends
    exact ⟨c :: d :: text, rfl, closes.digraph counts open' excess_eq⟩

theorem Ends.skip {result : Option (List Nat)} (ends : Ends depth (d :: rest) result)
    (open' : depth ≠ 0)
    (opening : ¬(c = numberSign ∧ d = verticalBar))
    (closing : ¬(c = verticalBar ∧ d = numberSign)) : Ends depth (c :: d :: rest) result := by
  cases result with
  | none =>
    intro text inside
    rcases prefix_cons_iff.mp inside with rfl | ⟨more, rfl, after⟩
    · rw [excess_nil]
      omega
    · rw [excess_skip opening closing after]
      exact ends more after
  | some after =>
    obtain ⟨text, same, closes⟩ := ends
    have inside : text <+: d :: rest := ⟨after, same.symm⟩
    refine ⟨c :: text, by rw [same]; rfl, ?_, ?_⟩
    · rw [excess_skip opening closing inside]
      exact closes.balanced
    · intro shorter shorterInside differ
      rcases prefix_cons_iff.mp shorterInside with rfl | ⟨more, rfl, moreInside⟩
      · rw [excess_nil]
        omega
      · rw [excess_skip opening closing (moreInside.trans inside)]
        exact closes.shortest more moreInside fun same => differ (by rw [same])

theorem afterComment_ends (input : List Nat) (depth : Nat) :
    Ends (depth + 1) input (afterComment input depth) := by
  fun_induction afterComment input depth with
  | case1 c d rest depth opening ih =>
    obtain ⟨rfl, rfl⟩ := opening
    exact ih.digraph (depth + 1) 1 (by omega) (by omega) excess_open
  | case2 c d rest opening closing =>
    obtain ⟨rfl, rfl⟩ := closing
    refine ⟨[verticalBar, numberSign], rfl, by decide, fun shorter inside differ => ?_⟩
    rcases prefix_two inside with rfl | rfl | ⟨more, rfl, after⟩
    · decide
    · decide
    · exact absurd (by rw [prefix_nil.mp after]) differ
  | case3 c d rest depth opening closing positive ih =>
    obtain ⟨rfl, rfl⟩ := closing
    exact ih.digraph (depth + 1) (-1) (by omega) (by omega) excess_close
  | case4 c d rest depth opening closing ih => exact ih.skip (by omega) opening closing
  | case5 text depth short =>
    intro shorter inside
    match text, short with
    | [], _ =>
      rw [prefix_nil.mp inside, excess_nil]
      omega
    | [c], _ =>
      rcases prefix_cons_iff.mp inside with rfl | ⟨more, rfl, after⟩
      · rw [excess_nil]
        omega
      · rw [prefix_nil.mp after, excess_singleton]
        omega
    | c :: d :: rest, short => exact (short c d rest rfl).elim

theorem Closes.unique {first second rest' : List Nat}
    (closes : Closes depth first) (closes' : Closes depth second) (split : input = first ++ rest)
    (split' : input = second ++ rest') : first = second := by
  have inside : first <+: input := ⟨rest, split.symm⟩
  have inside' : second <+: input := ⟨rest', split'.symm⟩
  by_contra differ
  rcases prefix_or_prefix_of_prefix inside inside' with shorter | shorter
  · exact closes'.shortest first shorter differ closes.balanced
  · exact closes.shortest second shorter (Ne.symm differ) closes'.balanced

theorem Ends.unique {first second : Option (List Nat)}
    (ends : Ends depth input first) (ends' : Ends depth input second) : first = second := by
  cases first with
  | none =>
    cases second with
    | none => rfl
    | some rest =>
      obtain ⟨text, rfl, closes⟩ := ends'
      exact absurd closes.balanced (ends text (prefix_append text rest))
  | some rest =>
    obtain ⟨text, split, closes⟩ := ends
    cases second with
    | none => exact absurd closes.balanced (ends' text ⟨rest, split.symm⟩)
    | some rest' =>
      obtain ⟨text', split', closes'⟩ := ends'
      have same := closes.unique closes' split split'
      subst same
      rw [split, append_cancel_left_eq] at split'
      rw [split']

theorem commentLaw_iff_ends {result : Except CommentError (List Nat)} :
    CommentLaw input result ↔ ∃ ends, result = commentResult ends ∧ Ends 1 input ends := by
  constructor
  · intro law
    match result, law with
    | .ok rest, law => exact ⟨some rest, rfl, law⟩
    | .error .endOfFile, law => exact ⟨none, rfl, law⟩
  · rintro ⟨ends, rfl, holds⟩
    cases ends with
    | none => exact holds
    | some rest => exact holds

/-- A comment ends where its digraphs balance, unless its reader comes to an end and has
skipped the number sign of an opening before. -/
theorem commentLaw_iff (readSuppress : Bool) (input : List Nat) :
    CommentLaw input (sharpVerticalBarReader none readSuppress input) ↔
      endsMisread input 0 false = false := by
  have reads : sharpVerticalBarReader none readSuppress input = scan input 0 := rfl
  rw [reads, ← scan_eq_iff, commentLaw_iff_ends]
  constructor
  · rintro ⟨ends, same, holds⟩
    rw [same, holds.unique (afterComment_ends input 0)]
  · intro same
    exact ⟨_, same, afterComment_ends input 0⟩

/-- The text ##| |# |# is a comment within a comment, but the first end is taken for the
last. -/
theorem commentLaw_counterexample :
    let input := [numberSign, numberSign, verticalBar, 0x20, verticalBar, numberSign, 0x20,
      verticalBar, numberSign]
    ¬CommentLaw input (sharpVerticalBarReader none false input) := by
  intro input law
  have reads : sharpVerticalBarReader none false input =
      .ok [0x20, verticalBar, numberSign] := by decide
  rw [reads] at law
  obtain ⟨text, split, closes⟩ := law
  have whole : [numberSign, numberSign, verticalBar, 0x20, verticalBar, numberSign] = text :=
    append_cancel_right split
  rw [← whole] at closes
  exact absurd closes.balanced (by decide)

end Ecl.Reader
