import Ecl.Lib.Pushback
import Ecl.Streams.Stream

/- Concatenated streams whose components are string input streams. -/
namespace Ecl.Streams

open List

open Ecl.Lib (Pushback Request Reply ok_bind error_bind bind_eq_ok)

def charCodeLimit : Nat := 1114112

abbrev Code : Type := { c : Character // c.toNat < charCodeLimit }

structure StringInput where
  string : List Code
  /-- STRING_INPUT_POSITION, a cl_fixnum. -/
  position : Int
  deriving DecidableEq

namespace StringInput

/-- STRING_INPUT_LIMIT. -/
def limit (strm : StringInput) : Int := strm.string.length

/-- ecl_make_string_input_stream from the beginning of the string to its end. -/
def make (string : List Code) : StringInput := ⟨string, 0⟩

def pending (strm : StringInput) : List Code := strm.string.drop strm.position.toNat

end StringInput

def eclChar (object : List Code) : Int → Except Fault Character
  | .ofNat index =>
    match object[index]? with
    | some c => .ok c.val
    | none => .error .illegalIndex
  -- As a cl_index it is above every dimension.
  | .negSucc _ => .error .illegalIndex

def strInReadChar (strm : StringInput) : Except Fault (Character × StringInput) := do
  let currPos := strm.position
  if strm.limit ≤ currPos then .ok (eof, strm)
  else
    let c ← eclChar strm.string currPos
    .ok (c, { strm with position := currPos + 1 })

def strInUnreadChar (strm : StringInput) (c : Character) : Except Fault StringInput :=
  let currPos := strm.position
  if c.toInt ≤ 0 then .error .unreadError
  else .ok { strm with position := currPos - 1 }

/-- ECL_LISTEN_EOF and ECL_LISTEN_AVAILABLE. -/
inductive Listen where
  | eof | available
  deriving DecidableEq

def strInListen (strm : StringInput) : Listen :=
  if strm.position < strm.limit then .available else .eof

/-- concatenated_read_char, on the CONCATENATED_STREAM_LIST. -/
def concatenatedReadChar : List StringInput → Except Fault (Character × List StringInput)
  | [] => .ok (eof, [])
  | strm :: l => do
      let (c, strm) ← strInReadChar strm
      if c ≠ eof then .ok (c, strm :: l) else concatenatedReadChar l

def concatenatedUnreadChar (l : List StringInput) (c : Character) :
    Except Fault (List StringInput) :=
  match l with
  | [] => .error .unreadError
  | strm :: l => do
      let strm ← strInUnreadChar strm c
      .ok (strm :: l)

def concatenatedListen : List StringInput → Listen × List StringInput
  | [] => (.eof, [])
  | strm :: l =>
    match strInListen strm with
    | .eof => concatenatedListen l
    | f => (f, strm :: l)

/-- generic_peek_char, as concatenated streams use it. -/
def genericPeekChar (l : List StringInput) : Except Fault (Character × List StringInput) := do
  let (out, l) ← concatenatedReadChar l
  if out ≠ eof then
    let l ← concatenatedUnreadChar l out
    .ok (out, l)
  else .ok (out, l)

/-- What the Lisp functions make of a character code or EOF. -/
def charReply (c : Character) : Reply Character := if c ≠ eof then .item c else .atEnd

/-- read-char, peek-char, listen and unread-char on a concatenated stream. -/
def perform (l : List StringInput) :
    Request Character → Except Fault (Reply Character × List StringInput)
  | .read => do
      let (c, l) ← concatenatedReadChar l
      .ok (charReply c, l)
  | .peek => do
      let (c, l) ← genericPeekChar l
      .ok (charReply c, l)
  | .listen =>
    match concatenatedListen l with
    | (.eof, l) => .ok (.atEnd, l)
    | (.available, l) => .ok (.available, l)
  | .unread c => do
      let l ← concatenatedUnreadChar l c
      .ok (.done, l)

def performAll (l : List StringInput) :
    List (Request Character) → Except Fault (List (Reply Character) × List StringInput)
  | [] => .ok ([], l)
  | request :: requests => do
      let (reply, l) ← perform l request
      let (replies, l) ← performAll l requests
      .ok (reply :: replies, l)

def makeConcatenatedStream (strings : List (List Code)) : List StringInput :=
  strings.map .make

def pendingAll (l : List StringInput) : List Code := l.flatMap StringInput.pending

/-- The characters as reading gives them. -/
def characterCodes (string : List Code) : List Character := string.map Subtype.val

theorem Code.ne_eof (c : Code) : c.val ≠ eof := by
  have bound := c.property
  intro same
  rw [same] at bound
  exact absurd bound (by decide)

@[simp] theorem charReply_code (c : Code) : charReply c.val = .item c.val :=
  if_pos (Code.ne_eof c)

@[simp] theorem charReply_eof : charReply eof = .atEnd := rfl

/-- The characters of a component on both sides of its position, those before it the last one
first. -/
structure StringInput.At (strm : StringInput) (before after : List Code) : Prop where
  string : strm.string = before.reverse ++ after
  position : strm.position = before.length

namespace StringInput.At

variable {strm : StringInput} {before after : List Code} {c : Code}

theorem pending (place : strm.At before after) : strm.pending = after := by
  rw [StringInput.pending, place.string, place.position, Int.toNat_natCast,
    ← length_reverse, drop_left]

theorem limit (place : strm.At before after) : strm.limit = before.length + after.length := by
  rw [StringInput.limit, place.string]
  simp

theorem make (string : List Code) : (StringInput.make string).At [] string := ⟨rfl, rfl⟩

theorem read_end (place : strm.At before []) : strInReadChar strm = .ok (eof, strm) := by
  have limit := place.limit
  have position := place.position
  rw [length_nil] at limit
  exact if_pos (by omega)

theorem read (place : strm.At before (c :: after)) :
    ∃ next, strInReadChar strm = .ok (c.val, next) ∧ next.At (c :: before) after := by
  have limit := place.limit
  have position := place.position
  rw [length_cons] at limit
  have char : eclChar strm.string strm.position = .ok c.val := by
    rw [position, place.string]
    simp [eclChar]
  have same : strInReadChar strm = .ok (c.val, { strm with position := strm.position + 1 }) := by
    unfold strInReadChar
    rw [if_neg (by omega), char, ok_bind]
  have string : strm.string = (c :: before).reverse ++ after := by
    rw [place.string, reverse_cons, append_assoc, singleton_append]
  have moved : strm.position + 1 = (c :: before).length := by
    rw [position, length_cons]
    omega
  exact ⟨_, same, string, moved⟩

theorem listen (place : strm.At before after) :
    strInListen strm = if after = [] then .eof else .available := by
  have limit := place.limit
  have position := place.position
  unfold strInListen
  cases after with
  | nil =>
    rw [length_nil] at limit
    rw [if_pos rfl, if_neg (by omega)]
  | cons c after =>
    rw [length_cons] at limit
    rw [if_neg (cons_ne_nil c after), if_pos (by omega)]

theorem unread (place : strm.At (c :: before) after) (code : 0 < c.val.toInt) :
    ∃ next, strInUnreadChar strm c.val = .ok next ∧ next.At before (c :: after) := by
  have same : strInUnreadChar strm c.val = .ok { strm with position := strm.position - 1 } :=
    if_neg (by omega)
  have string : strm.string = before.reverse ++ c :: after := by
    rw [place.string, reverse_cons, append_assoc, singleton_append]
  have moved : strm.position - 1 = before.length := by
    rw [place.position, length_cons]
    omega
  exact ⟨_, same, string, moved⟩

end StringInput.At

/-- The characters of the first component before its position, and those of the whole list
that are still to be read. The components behind the first one are not begun. -/
inductive Holds : List StringInput → List Code → List Code → Prop where
  | empty : Holds [] [] []
  | begun {strm : StringInput} {l : List StringInput} {before after : List Code}
      (place : strm.At before after) (fresh : ∀ other ∈ l, other.At [] other.string) :
      Holds (strm :: l) before (after ++ pendingAll l)

theorem Holds.of_fresh {l : List StringInput} (fresh : ∀ other ∈ l, other.At [] other.string) :
    Holds l [] (pendingAll l) := by
  cases l with
  | nil => exact .empty
  | cons strm l =>
    have place := fresh strm (by simp)
    rw [pendingAll, flatMap_cons, place.pending]
    exact .begun place fun other member => fresh other (by simp [member])

theorem pendingAll_make (strings : List (List Code)) :
    pendingAll (makeConcatenatedStream strings) = strings.flatten := by
  induction strings with
  | nil => rfl
  | cons string strings ih =>
    have pending := (StringInput.At.make string).pending
    rw [pendingAll, makeConcatenatedStream] at ih
    rw [pendingAll, makeConcatenatedStream, map_cons, flatMap_cons, pending, ih,
      flatten_cons]

theorem holds_make (strings : List (List Code)) :
    Holds (makeConcatenatedStream strings) [] strings.flatten := by
  rw [← pendingAll_make]
  apply Holds.of_fresh
  intro other member
  obtain ⟨string, _, rfl⟩ := mem_map.mp member
  exact .make string

namespace Holds

variable {l : List StringInput}

theorem pendingAll_eq {before after : List Code} (holds : Holds l before after) :
    pendingAll l = after := by
  cases holds with
  | empty => rfl
  | begun place fresh => rw [pendingAll, flatMap_cons, place.pending]; rfl

theorem read_end :
    ∀ {before : List Code}, Holds l before [] → concatenatedReadChar l = .ok (eof, []) := by
  induction l with
  | nil => exact fun _ => rfl
  | cons strm l ih =>
    intro before holds
    generalize empty : ([] : List Code) = all at holds
    cases holds with
    | @begun _ _ _ after place fresh =>
      have ⟨noAfter, noOther⟩ := append_eq_nil_iff.mp empty.symm
      rw [noAfter] at place
      rw [concatenatedReadChar, place.read_end, ok_bind]
      have others := Holds.of_fresh fresh
      rw [noOther] at others
      exact ih others

/-- What is before the position of the new first component is what was there, or nothing. -/
theorem read : ∀ {before after : List Code} {c : Code},
    Holds l before (c :: after) → ∃ l' kept, concatenatedReadChar l = .ok (c.val, l') ∧
      Holds l' (c :: kept) after ∧ (kept = [] ∨ kept = before) := by
  induction l with
  | nil =>
    intro before after c holds
    cases holds
  | cons strm l ih =>
    intro before after c holds
    generalize whole : c :: after = all at holds
    cases holds with
    | @begun _ _ _ own place fresh =>
      cases own with
      | nil =>
        have others := Holds.of_fresh fresh
        rw [nil_append] at whole
        rw [← whole] at others
        obtain ⟨l', kept, found, holds', shorter⟩ := ih others
        have same : concatenatedReadChar (strm :: l) = .ok (c.val, l') := by
          rw [concatenatedReadChar, place.read_end, ok_bind]
          exact found
        have nothing : kept = [] := by
          cases shorter with
          | inl nothing => exact nothing
          | inr nothing => exact nothing
        exact ⟨l', kept, same, holds', .inl nothing⟩
      | cons d own =>
        rw [cons_append] at whole
        cases whole
        obtain ⟨next, found, place'⟩ := place.read
        have same : concatenatedReadChar (strm :: l) = .ok (c.val, next :: l) := by
          rw [concatenatedReadChar, found, ok_bind]
          exact if_pos (Code.ne_eof c)
        exact ⟨next :: l, before, same, .begun place' fresh, .inr rfl⟩

theorem listen : ∀ {before after : List Code}, Holds l before after →
    ∃ l' kept, concatenatedListen l = (if after = [] then .eof else .available, l') ∧
      Holds l' kept after ∧ (kept = [] ∨ kept = before) := by
  induction l with
  | nil =>
    intro before after holds
    cases holds
    exact ⟨[], [], rfl, .empty, .inl rfl⟩
  | cons strm l ih =>
    intro before after holds
    cases holds with
    | @begun _ _ _ own place fresh =>
      have listens := place.listen
      cases own with
      | nil =>
        rw [if_pos rfl] at listens
        obtain ⟨l', kept, found, holds', shorter⟩ := ih (Holds.of_fresh fresh)
        have same : concatenatedListen (strm :: l) = concatenatedListen l := by
          rw [concatenatedListen, listens]
        rw [same, found]
        have nothing : kept = [] := by
          cases shorter with
          | inl nothing => exact nothing
          | inr nothing => exact nothing
        exact ⟨l', kept, rfl, holds', .inl nothing⟩
      | cons d own =>
        rw [if_neg (cons_ne_nil d own)] at listens
        have same : concatenatedListen (strm :: l) = (.available, strm :: l) := by
          rw [concatenatedListen, listens]
        rw [same]
        exact ⟨strm :: l, before, rfl, .begun place fresh, .inr rfl⟩

theorem unread {before after : List Code} {c : Code}
    (holds : Holds l (c :: before) after) (code : 0 < c.val.toInt) :
    ∃ l', concatenatedUnreadChar l c.val = .ok l' ∧ Holds l' before (c :: after) := by
  cases holds with
  | @begun strm l _ own place fresh =>
    obtain ⟨next, found, place'⟩ := place.unread code
    have same : concatenatedUnreadChar (strm :: l) c.val = .ok (next :: l) := by
      rw [concatenatedUnreadChar, found, ok_bind]
    exact ⟨next :: l, same, .begun place' fresh⟩

end Holds

end Ecl.Streams
