import Ecl.Streams.ConcatenatedLaw

/- Echo streams, on any input stream that delivers a sequence of characters and any output stream
that keeps what is written to it. -/
namespace Ecl.Streams

open List Option

open Ecl.Lib (Pushback Request Reply ok_bind error_bind)

/-- The functions of the dispatch table that an echo stream calls on its input. The relation tells
which characters are still to be read in a state. String streams keep the laws. A utf-8 file does
not: generic_peek_char reads and unreads, and a character of several bytes comes back as others. -/
structure InputStream (State : Type) where
  readChar : State → Except Fault (Character × State)
  peekChar : State → Except Fault (Character × State)
  listen : State → Listen × State
  Delivers : State → List Code → Prop
  read : ∀ {s : State} {c : Code} {rest : List Code}, Delivers s (c :: rest) →
    ∃ s', readChar s = .ok (c.val, s') ∧ Delivers s' rest
  read_end : ∀ {s : State}, Delivers s [] → ∃ s', readChar s = .ok (eof, s') ∧ Delivers s' []
  peek : ∀ {s : State} {c : Code} {rest : List Code}, Delivers s (c :: rest) →
    ∃ s', peekChar s = .ok (c.val, s') ∧ Delivers s' (c :: rest)
  peek_end : ∀ {s : State}, Delivers s [] → ∃ s', peekChar s = .ok (eof, s') ∧ Delivers s' []

/-- The function of the dispatch table that an echo stream calls on its output, and what the
output holds. -/
structure OutputStream (State : Type) where
  writeChar : State → Character → Except Fault State
  Holds : State → List Character → Prop
  write : ∀ {s : State} {written : List Character} (c : Character), Holds s written →
    ∃ s', writeChar s c = .ok s' ∧ Holds s' (written ++ [c])

def strInPeekChar (strm : StringInput) : Except Fault (Character × StringInput) := do
  let pos := strm.position
  if strm.limit ≤ pos then .ok (eof, strm)
  else
    let c ← eclChar strm.string pos
    .ok (c, strm)

theorem StringInput.At.peek {strm : StringInput} {before after : List Code} {c : Code}
    (place : strm.At before (c :: after)) : strInPeekChar strm = .ok (c.val, strm) := by
  have limit := place.limit
  have position := place.position
  rw [length_cons] at limit
  have char : eclChar strm.string strm.position = .ok c.val := by
    rw [position, place.string]
    simp [eclChar]
  unfold strInPeekChar
  rw [if_neg (by omega), char, ok_bind]

theorem StringInput.At.peek_end {strm : StringInput} {before : List Code}
    (place : strm.At before []) : strInPeekChar strm = .ok (eof, strm) := by
  have limit := place.limit
  have position := place.position
  rw [length_nil] at limit
  exact if_pos (by omega)

def stringInput : InputStream StringInput where
  readChar := strInReadChar
  peekChar := strInPeekChar
  listen strm := (strInListen strm, strm)
  Delivers strm rest := ∃ before, strm.At before rest
  read := fun ⟨_, place⟩ =>
    let ⟨next, found, place'⟩ := place.read
    ⟨next, found, _, place'⟩
  read_end := fun ⟨before, place⟩ => ⟨_, place.read_end, before, place⟩
  peek := fun ⟨before, place⟩ => ⟨_, place.peek, before, place⟩
  peek_end := fun ⟨before, place⟩ => ⟨_, place.peek_end, before, place⟩

structure StringOutput where
  string : List Character
  /-- STRING_OUTPUT_COLUMN. -/
  column : Int

def strOutWriteChar (strm : StringOutput) (c : Character) : StringOutput where
  string := strm.string ++ [c]
  column :=
    if c = newline then 0
    else if c = 9 then strm.column / 8 * 8 + 8
    else strm.column + 1

def stringOutput : OutputStream StringOutput where
  writeChar strm c := .ok (strOutWriteChar strm c)
  Holds strm written := strm.string = written
  write c holds := ⟨_, rfl, congrArg (· ++ [c]) holds⟩

section

variable {I O : Type}

/-- The fields of an echo stream; `lastCode` is last_code[0]. -/
structure EchoStream (I O : Type) where
  input : I
  output : O
  lastCode : Character

def makeEchoStream (strm1 : I) (strm2 : O) : EchoStream I O where
  input := strm1
  output := strm2
  lastCode := eof

variable (input : InputStream I) (output : OutputStream O)

def echoReadChar (strm : EchoStream I O) : Except Fault (Character × EchoStream I O) :=
  let c := strm.lastCode
  if c = eof then do
    let (c, input) ← input.readChar strm.input
    let strm := { strm with input := input }
    if c ≠ eof then do
      let output ← output.writeChar strm.output c
      .ok (c, { strm with output := output })
    else .ok (c, strm)
  else .ok (c, { strm with lastCode := eof })

def echoUnreadChar (strm : EchoStream I O) (c : Character) : Except Fault (EchoStream I O) :=
  if strm.lastCode ≠ eof then .error .unreadTwice else .ok { strm with lastCode := c }

def echoPeekChar (strm : EchoStream I O) : Except Fault (Character × EchoStream I O) :=
  let c := strm.lastCode
  if c = eof then do
    let (c, input) ← input.peekChar strm.input
    .ok (c, { strm with input := input })
  else .ok (c, strm)

/-- echo_listen, that only asks the input. -/
def echoListen (strm : EchoStream I O) : Listen × EchoStream I O :=
  let (f, input) := input.listen strm.input
  (f, { strm with input := input })

/-- read-char, peek-char, listen and unread-char on an echo stream. -/
def echoPerform (strm : EchoStream I O) :
    Request Character → Except Fault (Reply Character × EchoStream I O)
  | .read => do
      let (c, strm) ← echoReadChar input output strm
      .ok (charReply c, strm)
  | .peek => do
      let (c, strm) ← echoPeekChar input strm
      .ok (charReply c, strm)
  | .listen =>
    match echoListen input strm with
    | (.eof, strm) => .ok (.atEnd, strm)
    | (.available, strm) => .ok (.available, strm)
  | .unread c => do
      let strm ← echoUnreadChar strm c
      .ok (.done, strm)

def echoPerformAll (strm : EchoStream I O) :
    List (Request Character) → Except Fault (List (Reply Character) × EchoStream I O)
  | [] => .ok ([], strm)
  | request :: requests => do
      let (reply, strm) ← echoPerform input output strm request
      let (replies, strm) ← echoPerformAll strm requests
      .ok (reply :: replies, strm)

/-- The characters that were taken from the input, those still in it, and the one that was put
back, if any. The output holds what it held and the characters that were taken. -/
structure Echoes (held : List Character) (content consumed rest : List Code) (back : Option Code)
    (strm : EchoStream I O) (q : Pushback Character) : Prop where
  split : content = consumed ++ rest
  delivers : input.Delivers strm.input rest
  holds : output.Holds strm.output (held ++ characterCodes consumed)
  lastCode : strm.lastCode = back.elim eof Subtype.val
  taken : characterCodes consumed = q.taken.reverse ++ characterCodes back.toList
  remaining : q.remaining = characterCodes (back.toList ++ rest)
  stale : back ≠ none → q.fresh = false

variable {input : InputStream I} {output : OutputStream O} {held : List Character}
variable {content consumed rest : List Code} {back : Option Code} {strm : EchoStream I O}
variable {q q' : Pushback Character} {reply : Reply Character} {request : Request Character}

theorem characterCodes_none : characterCodes (none : Option Code).toList = [] := rfl

theorem echoes_make {strm1 : I} {strm2 : O} (delivers : input.Delivers strm1 content)
    (holds : output.Holds strm2 held) :
    Echoes input output held content [] content none (makeEchoStream strm1 strm2)
      (.start (characterCodes content)) where
  split := rfl
  delivers := delivers
  holds := by rw [characterCodes, map_nil, append_nil]; exact holds
  lastCode := rfl
  taken := rfl
  remaining := rfl
  stale := fun some => absurd rfl some

theorem Echoes.read_back {c : Code}
    (echoes : Echoes input output held content consumed rest (some c) strm q)
    (stepped : q.stepKeeping .read = some (reply, q')) :
    echoPerform input output strm .read = .ok (reply, { strm with lastCode := eof }) ∧
      Echoes input output held content consumed rest none { strm with lastCode := eof } q' := by
  have lastCode : strm.lastCode = c.val := echoes.lastCode
  have remaining : q.remaining = c.val :: characterCodes rest := echoes.remaining
  simp only [Pushback.stepKeeping, Pushback.step, remaining] at stepped
  cases stepped
  constructor
  · rw [echoPerform, echoReadChar]
    simp only [lastCode, if_neg (Code.ne_eof c), ok_bind, charReply_code]
  · have taken : characterCodes consumed = q.taken.reverse ++ [c.val] := echoes.taken
    refine ⟨echoes.split, echoes.delivers, echoes.holds, rfl, ?_, rfl, fun some => absurd rfl some⟩
    rw [taken, reverse_cons, characterCodes_none, append_nil]

theorem Echoes.read_end
    (echoes : Echoes input output held content consumed [] none strm q)
    (stepped : q.stepKeeping .read = some (reply, q')) :
    ∃ strm', echoPerform input output strm .read = .ok (reply, strm') ∧
      Echoes input output held content consumed [] none strm' q' := by
  have lastCode : strm.lastCode = eof := echoes.lastCode
  have remaining : q.remaining = [] := echoes.remaining
  simp only [Pushback.stepKeeping, remaining] at stepped
  cases stepped
  obtain ⟨next, found, delivers⟩ := input.read_end echoes.delivers
  refine ⟨{ strm with input := next }, ?_, ?_⟩
  · rw [echoPerform, echoReadChar]
    simp only [lastCode, if_true, found, ok_bind, ne_eq, not_true_eq_false, if_false, charReply_eof]
  · exact ⟨echoes.split, delivers, echoes.holds, echoes.lastCode, echoes.taken, echoes.remaining,
      echoes.stale⟩

theorem Echoes.read_next {c : Code}
    (echoes : Echoes input output held content consumed (c :: rest) none strm q)
    (stepped : q.stepKeeping .read = some (reply, q')) :
    ∃ strm', echoPerform input output strm .read = .ok (reply, strm') ∧
      Echoes input output held content (consumed ++ [c]) rest none strm' q' := by
  have lastCode : strm.lastCode = eof := echoes.lastCode
  have remaining : q.remaining = c.val :: characterCodes rest := echoes.remaining
  simp only [Pushback.stepKeeping, Pushback.step, remaining] at stepped
  cases stepped
  obtain ⟨next, found, delivers⟩ := input.read echoes.delivers
  obtain ⟨after, wrote, holds⟩ := output.write c.val echoes.holds
  refine ⟨{ strm with input := next, output := after }, ?_, ?_⟩
  · rw [echoPerform, echoReadChar]
    simp only [lastCode, if_true, found, ok_bind, ne_eq, Code.ne_eof c, not_false_eq_true, wrote,
      charReply_code]
  · have codes : characterCodes (consumed ++ [c]) = characterCodes consumed ++ [c.val] :=
      map_append
    have taken : characterCodes consumed = q.taken.reverse := by
      rw [echoes.taken, characterCodes_none, append_nil]
    refine ⟨?_, delivers, ?_, echoes.lastCode, ?_, rfl, fun some => absurd rfl some⟩
    · rw [echoes.split, append_assoc, singleton_append]
    · rw [codes, ← append_assoc]
      exact holds
    · rw [codes, taken, reverse_cons, characterCodes_none, append_nil]

theorem Echoes.peek (echoes : Echoes input output held content consumed rest back strm q)
    (stepped : q.stepKeeping .peek = some (reply, q')) :
    ∃ strm', echoPerform input output strm .peek = .ok (reply, strm') ∧
      Echoes input output held content consumed rest back strm' q' := by
  rw [q.stepKeeping_eq (by simp)] at stepped
  cases stepped
  cases back with
  | some c =>
    have lastCode : strm.lastCode = c.val := echoes.lastCode
    have remaining : q.remaining = c.val :: characterCodes rest := echoes.remaining
    refine ⟨strm, ?_, echoes⟩
    rw [echoPerform, echoPeekChar]
    simp only [lastCode, if_neg (Code.ne_eof c), ok_bind, charReply_code, Pushback.first,
      remaining, List.head?_cons, elim_some]
  | none =>
    have lastCode : strm.lastCode = eof := echoes.lastCode
    have remaining : q.remaining = characterCodes rest := echoes.remaining
    have moved {next : I} (delivers : input.Delivers next rest) :
        Echoes input output held content consumed rest none { strm with input := next } q :=
      ⟨echoes.split, delivers, echoes.holds, echoes.lastCode, echoes.taken, echoes.remaining,
        echoes.stale⟩
    cases rest with
    | nil =>
      obtain ⟨next, found, delivers⟩ := input.peek_end echoes.delivers
      refine ⟨_, ?_, moved delivers⟩
      rw [echoPerform, echoPeekChar]
      simp only [lastCode, if_true, found, ok_bind, charReply_eof, Pushback.first, remaining,
        characterCodes, map_nil, List.head?_nil, elim_none]
    | cons c rest =>
      obtain ⟨next, found, delivers⟩ := input.peek echoes.delivers
      refine ⟨_, ?_, moved delivers⟩
      rw [echoPerform, echoPeekChar]
      simp only [lastCode, if_true, found, ok_bind, charReply_code, Pushback.first, remaining,
        characterCodes, map_cons, List.head?_cons, elim_some]

/-- The last character that was read is kept in the echo stream, and the streams below see
nothing. -/
theorem Echoes.unread {c : Character}
    (echoes : Echoes input output held content consumed rest back strm q)
    (stepped : q.stepKeeping (.unread c) = some (reply, q')) :
    ∃ d :
      Code, echoPerform input output strm (.unread c) = .ok (reply, { strm with lastCode := c }) ∧
      Echoes input output held content consumed rest (some d) { strm with lastCode := c } q' := by
  rw [q.stepKeeping_eq (by simp)] at stepped
  obtain ⟨fresh, last, rfl, rfl⟩ := Pushback.step_unread stepped
  have nothing : back = none := by
    by_contra some
    rw [echoes.stale some] at fresh
    cases fresh
  subst nothing
  have lastCode : strm.lastCode = eof := echoes.lastCode
  obtain ⟨taken, cons⟩ : ∃ taken, q.taken = c :: taken := by
    cases taken : q.taken with
    | nil => simp [taken] at last
    | cons d taken' =>
      rw [taken, List.head?_cons, some.injEq] at last
      exact ⟨taken', by rw [last]⟩
  have codes := echoes.taken
  rw [cons, reverse_cons, characterCodes_none, append_nil] at codes
  have isCode : c ∈ characterCodes consumed := by
    rw [codes]
    simp
  obtain ⟨d, _, rfl⟩ := mem_map.mp isCode
  refine ⟨d, ?_, ?_⟩
  · rw [echoPerform, echoUnreadChar]
    simp only [lastCode, ne_eq, not_true_eq_false, if_false, ok_bind]
  · refine ⟨echoes.split, echoes.delivers, echoes.holds, rfl, ?_, ?_, fun _ => rfl⟩
    · rw [cons]
      exact codes
    · rw [echoes.remaining]
      rfl

theorem echoPerform_echoes (echoes : Echoes input output held content consumed rest back strm q)
    (stepped : q.stepKeeping request = some (reply, q')) (asks : request ≠ .listen) :
    ∃ strm' consumed' rest' back', echoPerform input output strm request = .ok (reply, strm') ∧
      Echoes input output held content consumed' rest' back' strm' q' := by
  cases request with
  | read =>
    cases back with
    | some c => exact ⟨_, _, _, _, echoes.read_back stepped⟩
    | none =>
      cases rest with
      | nil =>
        obtain ⟨strm', performed, echoes'⟩ := echoes.read_end stepped
        exact ⟨strm', _, _, _, performed, echoes'⟩
      | cons c rest =>
        obtain ⟨strm', performed, echoes'⟩ := echoes.read_next stepped
        exact ⟨strm', _, _, _, performed, echoes'⟩
  | peek =>
    obtain ⟨strm', performed, echoes'⟩ := echoes.peek stepped
    exact ⟨strm', _, _, _, performed, echoes'⟩
  | listen => exact absurd rfl asks
  | unread c =>
    obtain ⟨d, performed, echoes'⟩ := echoes.unread stepped
    exact ⟨_, _, _, _, performed, echoes'⟩

theorem echoPerformAll_echoes {requests : List (Request Character)}
    (asks : Request.listen ∉ requests) :
    ∀ {consumed rest : List Code} {back : Option Code} {strm : EchoStream I O}
      {q q' : Pushback Character} {replies : List (Reply Character)},
      Echoes input output held content consumed rest back strm q →
      q.runKeeping requests = some (replies, q') →
      ∃ strm' consumed' rest' back',
        echoPerformAll input output strm requests = .ok (replies, strm') ∧
        Echoes input output held content consumed' rest' back' strm' q' := by
  induction requests with
  | nil =>
    intro consumed rest back strm q q' replies echoes ran
    cases ran
    exact ⟨strm, consumed, rest, back, rfl, echoes⟩
  | cons request requests ih =>
    intro consumed rest back strm q q' replies echoes ran
    rw [mem_cons, not_or] at asks
    obtain ⟨reply, s, others, stepped, later, same⟩ := Pushback.runKeeping_cons ran
    obtain ⟨next, _, _, _, performed, echoes'⟩ :=
      echoPerform_echoes echoes stepped (Ne.symm asks.1)
    obtain ⟨last, consumed', rest', back', all, echoes''⟩ := ih asks.2 echoes' later
    refine ⟨last, consumed', rest', back', ?_, echoes''⟩
    rw [echoPerformAll, performed, ok_bind]
    dsimp only
    rw [all, ok_bind, same]

/-- After any requests for characters the output holds each character that was taken from the input
once and in order, and the replies are those of the sequence with the last character put back. -/
theorem echo_once (input : InputStream I) (output : OutputStream O) {strm1 : I} {strm2 : O}
    (content : List Code) (held : List Character) (delivers : input.Delivers strm1 content)
    (holds : output.Holds strm2 held) (requests : List (Request Character))
    (asks : Request.listen ∉ requests) (replies : List (Reply Character)) (q : Pushback Character)
    (asked : (Pushback.start (characterCodes content)).runKeeping requests = some (replies, q)) :
    ∃ strm consumed rest,
      echoPerformAll input output (makeEchoStream strm1 strm2) requests = .ok (replies, strm) ∧
      content = consumed ++ rest ∧ input.Delivers strm.input rest ∧
      output.Holds strm.output (held ++ characterCodes consumed) := by
  obtain ⟨strm, consumed, rest, _, performed, echoes⟩ :=
    echoPerformAll_echoes asks (echoes_make delivers holds) asked
  exact ⟨strm, consumed, rest, performed, echoes.split, echoes.delivers, echoes.holds⟩

end

/-- Peeking, putting a character back, and putting one back after the end was read. -/
theorem echo_once_letters :
    ∃ strm consumed rest,
      echoPerformAll stringInput stringOutput
          (makeEchoStream (.make [letterA, letterB]) ⟨[], 0⟩)
          [.read, .unread 0x61, .peek, .read, .read, .read, .unread 0x62, .read] =
        .ok ([.item 0x61, .done, .item 0x61, .item 0x61, .item 0x62, .atEnd, .done, .item 0x62],
          strm) ∧
      [letterA, letterB] = consumed ++ rest ∧ stringInput.Delivers strm.input rest ∧
      stringOutput.Holds strm.output ([] ++ characterCodes consumed) :=
  echo_once stringInput stringOutput [letterA, letterB] [] ⟨[], .make _⟩
    (show stringOutput.Holds ⟨[], 0⟩ [] from rfl)
    [.read, .unread 0x61, .peek, .read, .read, .read, .unread 0x62, .read] (by simp)
    [.item 0x61, .done, .item 0x61, .item 0x61, .item 0x62, .atEnd, .done, .item 0x62]
    ⟨[0x62, 0x61], [], true⟩ rfl

end Ecl.Streams
