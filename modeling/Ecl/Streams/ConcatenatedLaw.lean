import Ecl.Streams.Concatenated

/- A concatenated stream against the sequence of all its characters. -/
namespace Ecl.Streams

open List Option

open Ecl.Lib (Pushback Request Reply ok_bind error_bind bind_eq_ok)

/-- The request finds no character with code 0 that it has to unread, and a character that is
unread came from the component that is still the first one. -/
def Meets (l : List StringInput) : Request Character → Prop
  | .read => True
  | .peek => ∀ c ∈ (pendingAll l).head?, 0 < c.val.toInt
  | .listen => True
  | .unread c => 0 < c.toInt ∧ ∃ strm ∈ l.head?, 0 < strm.position

/-- Every request meets its condition in the state in which it is made. -/
def MeetsAll (l : List StringInput) : List (Request Character) → Prop
  | [] => True
  | request :: requests =>
    Meets l request ∧
      ∀ reply l', perform l request = .ok (reply, l') → MeetsAll l' requests

/-- The list of components stands for the sequence. What was read last is in front of the position
of the first component, when it came from there. -/
def Follows (l : List StringInput) (q : Pushback Character) : Prop :=
  ∃ before after, Holds l before after ∧ q.remaining = characterCodes after ∧
    (q.fresh = true → ∀ c ∈ before.head?, q.taken.head? = some c.val)

theorem follows_make (strings : List (List Code)) :
    Follows (makeConcatenatedStream strings) (.start (characterCodes strings.flatten)) :=
  ⟨[], strings.flatten, holds_make strings, rfl, fun _ c member => by cases member⟩

variable {l l' : List StringInput} {q q' : Pushback Character} {reply : Reply Character}
variable {request : Request Character}

theorem read_follows (follows : Follows l q) (stepped : q.step .read = some (reply, q')) :
    ∃ l', perform l .read = .ok (reply, l') ∧ Follows l' q' := by
  obtain ⟨before, after, holds, remaining, last⟩ := follows
  cases after with
  | nil =>
    have stepped' : q.step .read = some (.atEnd, { q with fresh := false }) := by
      rw [Pushback.step, remaining]
      rfl
    rw [stepped'] at stepped
    cases stepped
    have performed : perform l .read = .ok (.atEnd, []) := by
      rw [perform, holds.read_end, ok_bind]
      rfl
    have follows : Follows [] { q with fresh := false } :=
      ⟨[], [], .empty, remaining, fun impossible => by cases impossible⟩
    exact ⟨[], performed, follows⟩
  | cons c after =>
    have stepped' : q.step .read =
        some (.item c.val, ⟨c.val :: q.taken, characterCodes after, true⟩) := by
      rw [Pushback.step, remaining]
      rfl
    rw [stepped'] at stepped
    cases stepped
    obtain ⟨next, kept, found, holds', _⟩ := holds.read
    have performed : perform l .read = .ok (.item c.val, next) := by
      rw [perform, found, ok_bind]
      simp only [charReply_code]
    have same : ∀ d ∈ (c :: kept).head?, some c.val = some d.val := by
      intro d member
      cases member
      rfl
    exact ⟨next, performed, c :: kept, after, holds', rfl, fun _ => same⟩

theorem listen_follows (follows : Follows l q) (stepped : q.step .listen = some (reply, q')) :
    ∃ l', perform l .listen = .ok (reply, l') ∧ Follows l' q' := by
  obtain ⟨before, after, holds, remaining, last⟩ := follows
  cases stepped
  obtain ⟨next, kept, found, holds', shorter⟩ := holds.listen
  have last' : q.fresh = true → ∀ c ∈ kept.head?, q.taken.head? = some c.val := by
    cases shorter with
    | inl nothing =>
      intro _ c member
      rw [nothing] at member
      cases member
    | inr same => rwa [same]
  have performed : perform l .listen =
      .ok (if q.remaining = [] then .atEnd else .available, next) := by
    rw [perform, found, remaining]
    cases after with
    | nil => rfl
    | cons c after => rfl
  exact ⟨next, performed, kept, after, holds', remaining, last'⟩

theorem peek_follows (follows : Follows l q) (stepped : q.step .peek = some (reply, q'))
    (meets : Meets l .peek) : ∃ l', perform l .peek = .ok (reply, l') ∧ Follows l' q' := by
  obtain ⟨before, after, holds, remaining, last⟩ := follows
  cases stepped
  have pending := holds.pendingAll_eq
  cases after with
  | nil =>
    have performed : perform l .peek = .ok (q.first, []) := by
      rw [perform, genericPeekChar, holds.read_end, ok_bind, Pushback.first, remaining]
      rfl
    have follows : Follows [] q :=
      ⟨[], [], .empty, remaining, fun _ c member => by cases member⟩
    exact ⟨[], performed, follows⟩
  | cons c after =>
    have code : 0 < c.val.toInt := meets c (by rw [pending]; rfl)
    obtain ⟨mid, kept, found, holds', shorter⟩ := holds.read
    obtain ⟨next, back, holds''⟩ := holds'.unread code
    have peeked : genericPeekChar l = .ok (c.val, next) := by
      rw [genericPeekChar, found, ok_bind]
      simp only [ne_eq, Code.ne_eof c, not_false_eq_true, ↓reduceIte, back, ok_bind]
    have performed : perform l .peek = .ok (q.first, next) := by
      rw [perform, peeked, ok_bind, Pushback.first, remaining]
      simp only [charReply_code]
      rfl
    have last' : q.fresh = true → ∀ d ∈ kept.head?, q.taken.head? = some d.val := by
      cases shorter with
      | inl nothing =>
        intro _ d member
        rw [nothing] at member
        cases member
      | inr same => rwa [same]
    exact ⟨next, performed, kept, c :: after, holds'', remaining, last'⟩

/-- The first component has characters in front of its position when that is above 0. -/
theorem Holds.before_ne_nil {before after : List Code} (holds : Holds l before after) :
    before ≠ [] ↔ ∃ strm ∈ l.head?, 0 < strm.position := by
  cases holds with
  | empty => simp
  | begun place fresh =>
    have position := place.position
    have length : before ≠ [] ↔ 0 < before.length := length_pos_iff.symm
    rw [length]
    simp only [List.head?_cons, mem_def, some.injEq, exists_eq_left']
    omega

theorem unread_follows {c : Character} (follows : Follows l q)
    (stepped : q.step (.unread c) = some (reply, q')) (meets : Meets l (.unread c)) :
    ∃ l', perform l (.unread c) = .ok (reply, l') ∧ Follows l' q' := by
  obtain ⟨before, after, holds, remaining, last⟩ := follows
  have ⟨fresh, head, done, same⟩ := Pushback.step_unread stepped
  have ⟨code, component⟩ := meets
  cases before with
  | nil => exact absurd rfl (holds.before_ne_nil.mpr component)
  | cons d before =>
    have own : d.val = c := by
      have taken := last fresh d rfl
      rw [head] at taken
      cases taken
      rfl
    rw [← own] at code
    obtain ⟨next, found, holds'⟩ := holds.unread code
    rw [own] at found
    have performed : perform l (.unread c) = .ok (reply, next) := by
      rw [perform, found, ok_bind, done]
    have follows : Follows next q' := by
      rw [same]
      refine ⟨before, d :: after, holds', ?_, fun impossible => by cases impossible⟩
      rw [characterCodes, map_cons, own, remaining]
      rfl
    exact ⟨next, performed, follows⟩

theorem perform_follows (follows : Follows l q) (stepped : q.step request = some (reply, q'))
    (meets : Meets l request) : ∃ l', perform l request = .ok (reply, l') ∧ Follows l' q' := by
  cases request with
  | read => exact read_follows follows stepped
  | peek => exact peek_follows follows stepped meets
  | listen => exact listen_follows follows stepped
  | unread c => exact unread_follows follows stepped meets

/-- A first component whose position is in front of its string. -/
def Broken (l : List StringInput) : Prop :=
  ∃ first rest, l = first :: rest ∧ first.position < 0

theorem Broken.read (broken : Broken l) : concatenatedReadChar l = .error .illegalIndex := by
  obtain ⟨first, rest, rfl, negative⟩ := broken
  have char : eclChar first.string first.position = .error .illegalIndex := by
    cases found : first.position with
    | ofNat n =>
      rw [found] at negative
      exact absurd negative (Int.not_lt.mpr (Int.natCast_nonneg n))
    | negSucc n => rfl
  have limit : 0 ≤ first.limit := Int.natCast_nonneg _
  have read : strInReadChar first = .error .illegalIndex := by
    unfold strInReadChar
    rw [if_neg (by omega), char, error_bind]
  rw [concatenatedReadChar, read, error_bind]

theorem Broken.listen (broken : Broken l) : concatenatedListen l = (.available, l) := by
  obtain ⟨first, rest, rfl, negative⟩ := broken
  have limit : 0 ≤ first.limit := Int.natCast_nonneg _
  have listens : strInListen first = .available := if_pos (by omega)
  rw [concatenatedListen, listens]

variable {requests : List (Request Character)}

theorem Broken.fails :
    ∀ {l : List StringInput} {q q' : Pushback Character} {replies : List (Reply Character)},
      Broken l → q.fresh = false → q.run (requests ++ [.read]) = some (replies, q') →
      ∀ l', performAll l (requests ++ [.read]) ≠ .ok (replies, l') := by
  induction requests with
  | nil =>
    intro l q q' replies broken _ _ l' performed
    rw [nil_append, performAll, perform, broken.read] at performed
    cases performed
  | cons request requests ih =>
    intro l q q' replies broken stale ran l' performed
    obtain ⟨reply, s, others, stepped, rest, same⟩ := Pushback.run_cons ran
    cases request with
    | read =>
      rw [cons_append, performAll, perform, broken.read] at performed
      cases performed
    | peek =>
      rw [cons_append, performAll, perform, genericPeekChar, broken.read] at performed
      cases performed
    | listen =>
      cases stepped
      have available : perform l .listen = .ok (.available, l) := by
        rw [perform, broken.listen]
      rw [cons_append, performAll, available, ok_bind] at performed
      obtain ⟨⟨found, next⟩, performed, last⟩ := bind_eq_ok.mp performed
      rw [same, Except.ok.injEq, Prod.mk.injEq, List.cons.injEq] at last
      rw [last.1.2] at performed
      exact ih broken stale rest _ performed
    | unread c =>
      have ⟨fresh, _⟩ := Pushback.step_unread stepped
      rw [stale] at fresh
      cases fresh

/-- A request that does not meet its condition is an error, or leaves a position in front of the
string. -/
theorem perform_breaks (follows : Follows l q) (stepped : q.step request = some (reply, q'))
    (other : ¬ Meets l request) :
    (∃ fault, perform l request = .error fault) ∨
      ∃ l', perform l request = .ok (.done, l') ∧ Broken l' ∧ q'.fresh = false := by
  obtain ⟨before, after, holds, remaining, last⟩ := follows
  cases request with
  | read => exact absurd trivial other
  | listen => exact absurd trivial other
  | peek =>
    left
    have pending := holds.pendingAll_eq
    cases after with
    | nil =>
      have meets : Meets l .peek := by
        intro c member
        rw [pending] at member
        cases member
      exact absurd meets other
    | cons c after =>
      have code : c.val.toInt ≤ 0 := by
        by_contra positive
        apply other
        intro d member
        rw [pending] at member
        cases member
        omega
      obtain ⟨mid, kept, found, holds', _⟩ := holds.read
      have back : concatenatedUnreadChar mid c.val = .error .unreadError := by
        cases holds' with
        | @begun first rest _ own place fresh =>
          have signals : strInUnreadChar first c.val = .error .unreadError := if_pos code
          rw [concatenatedUnreadChar, signals, error_bind]
      refine ⟨.unreadError, ?_⟩
      rw [perform, genericPeekChar, found, ok_bind]
      simp only [ne_eq, Code.ne_eof c, not_false_eq_true, ↓reduceIte, back, error_bind]
  | unread c =>
    obtain ⟨_, _, _, same⟩ := Pushback.step_unread stepped
    cases l with
    | nil =>
      left
      exact ⟨.unreadError, rfl⟩
    | cons first rest =>
      by_cases code : c.toInt ≤ 0
      · left
        have signals : strInUnreadChar first c = .error .unreadError := if_pos code
        refine ⟨.unreadError, ?_⟩
        rw [perform, concatenatedUnreadChar, signals, error_bind, error_bind]
      · right
        have position : first.position ≤ 0 := by
          by_contra positive
          exact other ⟨by omega, first, rfl, by omega⟩
        have moved : strInUnreadChar first c =
            .ok { first with position := first.position - 1 } := if_neg code
        refine ⟨{ first with position := first.position - 1 } :: rest, ?_, ?_, ?_⟩
        · rw [perform, concatenatedUnreadChar, moved, ok_bind, ok_bind]
        · refine ⟨_, rest, rfl, ?_⟩
          show first.position - 1 < 0
          omega
        · rw [same]

theorem performAll_follows :
    ∀ {l : List StringInput} {q q' : Pushback Character} {replies : List (Reply Character)},
      Follows l q → q.run requests = some (replies, q') → MeetsAll l requests →
      ∃ l', performAll l requests = .ok (replies, l') ∧ Follows l' q' := by
  induction requests with
  | nil =>
    intro l q q' replies follows ran _
    cases ran
    exact ⟨l, rfl, follows⟩
  | cons request requests ih =>
    intro l q q' replies follows ran meets
    obtain ⟨reply, s, others, stepped, rest, same⟩ := Pushback.run_cons ran
    obtain ⟨next, performed, follows'⟩ := perform_follows follows stepped meets.1
    obtain ⟨last, all, follows''⟩ := ih follows' rest (meets.2 reply next performed)
    refine ⟨last, ?_, follows''⟩
    rw [performAll, performed, ok_bind]
    dsimp only
    rw [all, ok_bind, same]

theorem meetsAll_of_performAll :
    ∀ {l : List StringInput} {q q' : Pushback Character} {replies : List (Reply Character)},
      Follows l q → q.run (requests ++ [.read]) = some (replies, q') →
      (∃ l', performAll l (requests ++ [.read]) = .ok (replies, l')) → MeetsAll l requests := by
  induction requests with
  | nil => exact fun _ _ _ => trivial
  | cons request requests ih =>
    intro l q q' replies follows ran ⟨l', performed⟩
    obtain ⟨reply, s, others, stepped, rest, same⟩ := Pushback.run_cons ran
    obtain ⟨⟨reply', next⟩, first, performed⟩ := bind_eq_ok.mp performed
    obtain ⟨⟨found, last⟩, all, performed⟩ := bind_eq_ok.mp performed
    rw [same] at performed
    cases performed
    by_cases meets : Meets l request
    · obtain ⟨next', performed', follows'⟩ := perform_follows follows stepped meets
      refine ⟨meets, ?_⟩
      intro reply'' l'' again
      rw [again] at performed'
      rw [again] at first
      cases performed'
      cases first
      exact ih follows' rest ⟨_, all⟩
    · cases perform_breaks follows stepped meets with
      | inl signals =>
        obtain ⟨fault, signals⟩ := signals
        rw [signals] at first
        cases first
      | inr breaks =>
        obtain ⟨l'', moved, broken, stale⟩ := breaks
        rw [moved] at first
        cases first
        exact absurd all (broken.fails stale rest _)

theorem MeetsAll.then_read :
    ∀ {l : List StringInput}, MeetsAll l requests → MeetsAll l (requests ++ [.read]) := by
  induction requests with
  | nil => exact fun _ => ⟨trivial, fun _ _ _ => trivial⟩
  | cons request requests ih =>
    intro l meets
    exact ⟨meets.1, fun reply l' performed => ih (meets.2 reply l' performed)⟩

/-- The replies of a concatenated stream, those to one more read included, are the ones of the
sequence of all characters exactly when every request meets its condition. -/
theorem concatenated_refines_iff (strings : List (List Code)) (requests : List (Request Character))
    (replies : List (Reply Character)) (q : Pushback Character)
    (asked : (Pushback.start (characterCodes strings.flatten)).run (requests ++ [.read]) =
      some (replies, q)) :
    (∃ l, performAll (makeConcatenatedStream strings) (requests ++ [.read]) = .ok (replies, l) ∧
      q.taken.reverse ++ characterCodes (pendingAll l) = characterCodes strings.flatten) ↔
      MeetsAll (makeConcatenatedStream strings) requests := by
  have follows := follows_make strings
  constructor
  · intro ⟨l, performed, _⟩
    exact meetsAll_of_performAll follows asked ⟨l, performed⟩
  · intro meets
    obtain ⟨l, performed, before, after, holds, remaining, _⟩ :=
      performAll_follows follows asked meets.then_read
    refine ⟨l, performed, ?_⟩
    rw [holds.pendingAll_eq, ← remaining]
    exact Pushback.run_content asked

def letterA : Code := ⟨0x61, by decide⟩
def letterB : Code := ⟨0x62, by decide⟩

/-- Peeking across the end of a component, and putting the last character back. -/
theorem concatenated_refines_iff_letters :
    (∃ l, performAll (makeConcatenatedStream [[letterA], [letterB]])
        ([.read, .unread 0x61, .read, .peek, .listen] ++ [.read]) =
          .ok ([.item 0x61, .done, .item 0x61, .item 0x62, .available, .item 0x62], l) ∧
      (Pushback.mk [0x62, 0x61] [] true).taken.reverse ++ characterCodes (pendingAll l) =
        characterCodes [[letterA], [letterB]].flatten) ↔
      MeetsAll (makeConcatenatedStream [[letterA], [letterB]])
        [.read, .unread 0x61, .read, .peek, .listen] :=
  concatenated_refines_iff [[letterA], [letterB]] [.read, .unread 0x61, .read, .peek, .listen]
    [.item 0x61, .done, .item 0x61, .item 0x62, .available, .item 0x62] ⟨[0x62, 0x61], [], true⟩
    rfl

/-- After a listen at the end of a component its last character is put back into the next one. -/
theorem unread_after_listen_fails :
    ¬ ∀ (strings : List (List Code)) (requests : List (Request Character))
      (replies : List (Reply Character)) (q : Pushback Character),
      (Pushback.start (characterCodes strings.flatten)).run requests = some (replies, q) →
      ∃ l, performAll (makeConcatenatedStream strings) requests = .ok (replies, l) := by
  intro claim
  have ⟨l, performed⟩ := claim [[letterA], [letterB]] [.read, .listen, .unread 0x61, .read]
    [.item 0x61, .available, .done, .item 0x61] ⟨[0x61], [0x62], true⟩ rfl
  have signals : performAll (makeConcatenatedStream [[letterA], [letterB]])
      [.read, .listen, .unread 0x61, .read] = .error .illegalIndex := rfl
  rw [signals] at performed
  cases performed

end Ecl.Streams
