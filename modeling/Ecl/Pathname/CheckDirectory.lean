import Ecl.Pathname.Match

/- destructively_check_directory: "." and :BACK are taken out of a directory in place. -/
namespace Ecl.Pathname

open List

/-- What becomes of the list. -/
inductive Verdict where
  /-- Cnil: not a list that starts with :ABSOLUTE or :RELATIVE. -/
  | invalid
  /-- Ct: the empty list. -/
  | empty
  | error
  | directory (l : List Component)
  /-- A cell became its own CDR, and the loop does not end. -/
  | circular
  /-- The CDR of NIL was written. -/
  | nilWritten
  /-- The bound on restarts was too small. -/
  | restarts
  deriving DecidableEq

/-- What one pass over the list ends with. -/
inductive Pass where
  | finished (l : List Component)
  | error
  /-- goto BEGIN; there may be a last cell that is its own CDR. -/
  | restart (l : List Component) (loop : Option Component)
  | circular
  | nilWritten
  deriving DecidableEq

def dot : Component := .string ['.']

def dotDot : Component := .string ['.', '.']

/-- What nothing can be cancelled with. -/
def isBarrier (c : Option Component) : Bool := c = some .absolute || c = some .wildInferiors

/-- ecl_nth, where the last cell may be its own CDR. -/
def nth (directory : List Component) (loop : Option Component) (k : Nat) : Option Component :=
  directory[k]?.or loop

/-- The loop at a cell that is its own CDR. All rounds but the first find its item before it. -/
def checkLoop (logical : Bool) (done : List Component) (item : Component) (i : Nat) : Pass :=
  if item = .back ∨ item = .up then
    if i = 0 then .error
    else if isBarrier (nth done (some item) (i - 1)) then .error
    else .circular
  else if item = .relative ∨ item = .absolute then .error
  else if item.isString then
    if logical then .circular
    else if item = dot then
      if i = 0 then .error else .circular
    else if item = dotDot then .restart done (some .back)
    else .circular
  else if item ≠ .wild ∧ item ≠ .wildInferiors then .error
  else .circular

/-- The loop behind an item, after the next cell has become its own CDR. -/
def closeLoop (logical : Bool) (done rest : List Component) (loop : Option Component) (i : Nat) :
    Pass :=
  match rest, loop with
  | next :: _, _ => checkLoop logical done next i
  | [], some next => checkLoop logical done next i
  | [], none => .nilWritten

/-- The loop at the item after `done` of the list, which it counts as number `i`. -/
def checkFrom (logical : Bool) (loop : Option Component) (done : List Component) :
    List Component → Nat → Pass
  | [], i =>
    match loop with
    | none => .finished done
    | some item => checkLoop logical done item i
  | item :: rest, i =>
    let directory := done ++ item :: rest
    -- ECL_RPLACD of the cell number k with what comes after the item; i is never more than two
    -- ahead of the cells, so that k is at most the number of the next cell
    let splice (k : Nat) : Pass :=
      if k < done.length then checkFrom logical loop (done.take (k + 1)) rest (i + 1)
      else if k = done.length then checkFrom logical loop (done ++ [item]) rest (i + 1)
      else closeLoop logical (done ++ [item]) rest loop (i + 1)
    if item = .back then
      if i = 0 then .error
      else if isBarrier (nth directory loop (i - 1)) then .error
      else if 2 ≤ i then splice (i - 2)
      else checkFrom logical loop (done ++ [item]) rest (i + 1)
    else if item = .up then
      if i = 0 then .error
      else if isBarrier (nth directory loop (i - 1)) then .error
      else checkFrom logical loop (done ++ [item]) rest (i + 1)
    else if item = .relative ∨ item = .absolute then
      if i > 0 then .error else checkFrom logical loop (done ++ [item]) rest (i + 1)
    else if item.isString then
      if logical then checkFrom logical loop (done ++ [item]) rest (i + 1)
      else if item = dot then
        if i = 0 then .error else splice (i - 1)
      else if item = dotDot then .restart (done ++ .back :: rest) loop
      else checkFrom logical loop (done ++ [item]) rest (i + 1)
    else if item ≠ .wild ∧ item ≠ .wildInferiors then .error
    else checkFrom logical loop (done ++ [item]) rest (i + 1)

/-- The passes, of which there is one more than strings "..". -/
def passes (logical : Bool) : Nat → List Component → Option Component → Verdict
  | 0, _, _ => .restarts
  | n + 1, directory, loop =>
    match checkFrom logical loop [] directory 0 with
    | .finished l => .directory l
    | .error => .error
    | .restart l loop => passes logical n l loop
    | .circular => .circular
    | .nilWritten => .nilWritten

/-- destructively_check_directory of a list. -/
def destructivelyCheckDirectory (directory : List Component) (logical : Bool) : Verdict :=
  match directory with
  | [] => .empty
  | front :: _ =>
    if front ≠ .absolute ∧ front ≠ .relative then .invalid
    else passes logical (directory.count dotDot + 1) directory none

/-- A step upwards: what stands last is cancelled, or the step stays at the front of a relative
directory. -/
def cancel (done : List Component) : Option (List Component) :=
  if isBarrier done.getLast? then none
  else if done.length = 1 then some (done ++ [.back])
  else some done.dropLast

/-- One more item of a directory. -/
def normaliseStep (done : List Component) (item : Component) : Option (List Component) :=
  if item = dot then some done
  else if item = .back ∨ item = dotDot then cancel done
  else if item = .up then
    if isBarrier done.getLast? then none else some (done ++ [.up])
  else some (done ++ [item])

/-- The directory with every "." dropped and everything before a step upwards cancelled. -/
def normalise (front : Component) (items : List Component) : Verdict :=
  match items.foldlM normaliseStep [front] with
  | some l => .directory l
  | none => .error

/-- Behind cells that were taken out, up to the next "..", there is no ".", :BACK or :UP. -/
def aligned (spliced : Bool) (done : List Component) : List Component → Bool
  | [] => true
  | item :: rest =>
    if item = dot then !spliced && aligned true done rest
    else if item = .back ∨ item = dotDot then
      (item = dotDot || !spliced) &&
        match cancel done with
        | none => true
        | some done' => aligned (done'.length < done.length) done' rest
    else if item = .up then
      !spliced && (isBarrier done.getLast? || aligned false (done ++ [.up]) rest)
    else aligned spliced (done ++ [item]) rest

section Items

variable {done rest : List Component} {item : Component} {i : Nat}

theorem nth_before (filled : done ≠ []) (item : Component) (rest : List Component)
    (loop : Option Component) :
    nth (done ++ item :: rest) loop (done.length - 1) = done.getLast? := by
  have bound := length_pos_iff.mpr filled
  rw [nth, List.getElem?_append_left (by omega), ← List.getLast?_eq_getElem?,
    List.getLast?_eq_some_getLast filled]
  rfl

/-- An item that is kept as it is. -/
def Component.isPlain (item : Component) : Bool :=
  item.isString && item ≠ dot && item ≠ dotDot || item = .wild || item = .wildInferiors

theorem checkFrom_plain (plain : item.isPlain = true) :
    checkFrom false none done (item :: rest) i =
      checkFrom false none (done ++ [item]) rest (i + 1) := by
  simp only [Component.isPlain, Bool.or_eq_true, Bool.and_eq_true, decide_eq_true_eq] at plain
  rw [checkFrom]
  obtain (⟨⟨string, notDot⟩, notDotDot⟩ | rfl) | rfl := plain
  · have named := Component.isString_iff.mp string
    rw [if_neg (by rw [named]; exact nofun), if_neg (by rw [named]; exact nofun),
      if_neg (by rw [named]; exact nofun), if_pos string, if_neg Bool.false_ne_true, if_neg notDot,
      if_neg notDotDot]
  · rfl
  · rfl

theorem checkFrom_dot (filled : done ≠ []) :
    checkFrom false none done (dot :: rest) done.length =
      checkFrom false none done rest (done.length + 1) := by
  have bound := length_pos_iff.mpr filled
  have whole : done.take (done.length - 1 + 1) = done := by
    rw [Nat.sub_add_cancel bound, take_length]
  rw [checkFrom]
  simp only [dot, reduceCtorEq, if_false, Component.isString, if_true, or_self, Bool.false_eq_true]
  rw [if_neg (by omega), if_pos (by omega), whole]

theorem checkFrom_dotDot {loop : Option Component} :
    checkFrom false loop done (dotDot :: rest) i = .restart (done ++ .back :: rest) loop := by
  rw [checkFrom]
  simp [dotDot, dot, Component.isString]

theorem checkFrom_up (filled : done ≠ []) :
    checkFrom false none done (.up :: rest) done.length =
      if isBarrier done.getLast? then .error
      else checkFrom false none (done ++ [.up]) rest (done.length + 1) := by
  have bound := length_pos_iff.mpr filled
  rw [checkFrom, nth_before filled]
  rw [if_neg nofun, if_pos rfl, if_neg (by omega)]

theorem checkFrom_back (filled : done ≠ []) :
    checkFrom false none done (.back :: rest) done.length =
      match cancel done with
      | none => .error
      | some done' => checkFrom false none done' rest (done.length + 1) := by
  have bound := length_pos_iff.mpr filled
  rw [checkFrom, nth_before filled, if_pos rfl, if_neg (by omega), cancel]
  by_cases barrier : isBarrier done.getLast? = true
  · rw [if_pos barrier, if_pos barrier]
  rw [if_neg barrier, if_neg barrier]
  by_cases alone : done.length = 1
  · rw [if_neg (by omega), if_pos alone]
  · have shorter : done.take (done.length - 2 + 1) = done.dropLast := by
      rw [dropLast_eq_take]
      congr 1
      omega
    rw [if_pos (by omega), if_neg alone]
    dsimp only
    rw [if_pos (by omega), shorter]

end Items

/-- A pass goes over these items without a change, whatever follows. -/
structure Settled (done : List Component) : Prop where
  front : ∃ front tail, done = front :: tail ∧ (front = .absolute ∨ front = .relative)
  kept : ∀ k, k < done.length → ∀ rest,
    checkFrom false none [] (done.take (k + 1) ++ rest) 0 =
      checkFrom false none (done.take (k + 1)) rest (k + 1)

variable {done done' : List Component} {item : Component}

theorem Settled.filled (settled : Settled done) : done ≠ [] := by
  obtain ⟨front, tail, rfl, -⟩ := settled.front
  exact nofun

theorem Settled.pass (settled : Settled done) (rest : List Component) :
    checkFrom false none [] (done ++ rest) 0 = checkFrom false none done rest done.length := by
  have bound := length_pos_iff.mpr settled.filled
  have whole := settled.kept (done.length - 1) (by omega) rest
  rw [Nat.sub_add_cancel bound, take_length] at whole
  exact whole

theorem Settled.dropLast (settled : Settled done) (long : done.length ≠ 1) :
    Settled done.dropLast := by
  refine ⟨?_, fun k inside rest => ?_⟩
  · obtain ⟨front, tail, rfl, isFront⟩ := settled.front
    cases tail with
    | nil => exact absurd rfl long
    | cons c tail => exact ⟨front, (c :: tail).dropLast, rfl, isFront⟩
  · rw [length_dropLast] at inside
    have same : done.dropLast.take (k + 1) = done.take (k + 1) := by
      rw [dropLast_eq_take, take_take, Nat.min_eq_left (by omega)]
    rw [same]
    exact settled.kept k (by omega) rest

theorem Settled.snoc (settled : Settled done)
    (kept : ∀ rest, checkFrom false none done (item :: rest) done.length =
      checkFrom false none (done ++ [item]) rest (done.length + 1)) : Settled (done ++ [item]) := by
  obtain ⟨front, tail, whole, isFront⟩ := settled.front
  refine ⟨⟨front, tail ++ [item], by rw [whole, cons_append], isFront⟩, fun k inside rest => ?_⟩
  rw [length_append, length_singleton] at inside
  by_cases last : k = done.length
  · subst last
    rw [take_of_length_le (by simp), append_assoc, singleton_append, settled.pass, kept]
  · rw [take_append_of_le_length (by omega)]
    exact settled.kept k (by omega) rest

theorem Settled.cancel (settled : Settled done) (cancelled : cancel done = some done') :
    Settled done' := by
  rw [Pathname.cancel] at cancelled
  by_cases barrier : isBarrier done.getLast? = true
  · rw [if_pos barrier] at cancelled
    cases cancelled
  rw [if_neg barrier] at cancelled
  by_cases alone : done.length = 1
  · rw [if_pos alone] at cancelled
    cases cancelled
    refine settled.snoc fun rest => ?_
    rw [checkFrom_back settled.filled, Pathname.cancel, if_neg barrier, if_pos alone]
  · rw [if_neg alone] at cancelled
    cases cancelled
    exact settled.dropLast alone

theorem Settled.up (settled : Settled done) (open' : ¬isBarrier done.getLast? = true) :
    Settled (done ++ [.up]) := by
  refine settled.snoc fun rest => ?_
  rw [checkFrom_up settled.filled, if_neg open']

theorem Settled.plain (settled : Settled done) (plain : item.isPlain = true) :
    Settled (done ++ [item]) :=
  settled.snoc fun _ => checkFrom_plain plain

theorem settled_front {front : Component} (isFront : front = .absolute ∨ front = .relative) :
    Settled [front] := by
  refine ⟨⟨front, [], rfl, isFront⟩, fun k inside rest => ?_⟩
  obtain rfl : k = 0 := by simpa using inside
  obtain rfl | rfl := isFront <;> rfl

theorem step_cases (step : item.isStep = true) :
    item = dot ∨ item = dotDot ∨ item = .back ∨ item = .up ∨ item.isPlain = true := by
  simp only [Component.isStep, Bool.or_eq_true, decide_eq_true_eq] at step
  obtain (((string | rfl) | rfl) | rfl) | rfl := step
  · by_cases isDot : item = dot
    · exact .inl isDot
    · by_cases isDotDot : item = dotDot
      · exact .inr (.inl isDotDot)
      · refine .inr (.inr (.inr (.inr ?_)))
        simp [Component.isPlain, string, isDot, isDotDot]
  · exact .inr (.inr (.inr (.inr rfl)))
  · exact .inr (.inr (.inr (.inr rfl)))
  · exact .inr (.inr (.inr (.inl rfl)))
  · exact .inr (.inr (.inl rfl))

theorem isPlain_ne (plain : item.isPlain = true) :
    item ≠ dot ∧ item ≠ dotDot ∧ item ≠ .back ∧ item ≠ .up := by
  simp only [Component.isPlain, Bool.or_eq_true, Bool.and_eq_true, decide_eq_true_eq] at plain
  obtain (⟨⟨string, notDot⟩, notDotDot⟩ | rfl) | rfl := plain
  · refine ⟨notDot, notDotDot, ?_, ?_⟩
    · intro same
      rw [same] at string
      cases string
    · intro same
      rw [same] at string
      cases string
  · decide
  · decide

/-- What is left to do after a pass. -/
def resolve (n : Nat) : Pass → Verdict
  | .finished l => .directory l
  | .error => .error
  | .restart l loop => passes false n l loop
  | .circular => .circular
  | .nilWritten => .nilWritten

theorem passes_succ (n : Nat) (directory : List Component) :
    passes false (n + 1) directory none = resolve n (checkFrom false none [] directory 0) := by
  rw [passes]
  cases checkFrom false none [] directory 0 <;> rfl

/-- The outcome of the reference from a point on. -/
def outcome : Option (List Component) → Verdict
  | some l => .directory l
  | none => .error

theorem resolve_back {n : Nat} {rest : List Component} (settled : Settled done)
    (next : ∀ done', cancel done = some done' →
      resolve n (checkFrom false none done' rest (done.length + 1)) =
        outcome (rest.foldlM normaliseStep done')) :
    resolve n (checkFrom false none done (.back :: rest) done.length) =
      outcome ((cancel done).bind fun done' => rest.foldlM normaliseStep done') := by
  rw [checkFrom_back settled.filled]
  cases cancelled : cancel done with
  | none => rfl
  | some done' => exact next done' cancelled

theorem cancel_length (cancelled : cancel done = some done') (filled : done ≠ []) :
    (done'.length < done.length ∨ done'.length = done.length + 1) := by
  have bound := length_pos_iff.mpr filled
  rw [cancel] at cancelled
  by_cases barrier : isBarrier done.getLast? = true
  · rw [if_pos barrier] at cancelled
    cases cancelled
  rw [if_neg barrier] at cancelled
  by_cases alone : done.length = 1
  · rw [if_pos alone] at cancelled
    cases cancelled
    simp
  · rw [if_neg alone] at cancelled
    cases cancelled
    rw [length_dropLast]
    omega

theorem aligned_cancel {rest : List Component} (cancelled : cancel done = some done')
    (filled : done ≠ [])
    (aligned' : aligned (done'.length < done.length) done' rest = true) :
    done'.length ≤ done.length + 1 ∧
      aligned (done'.length < done.length + 1) done' rest = true := by
  have lengths := cancel_length cancelled filled
  have same : (done'.length < done.length) ↔ done'.length < done.length + 1 := by omega
  rw [decide_eq_decide.mpr same] at aligned'
  exact ⟨by omega, aligned'⟩

theorem resolve_normalise (n : Nat) : ∀ (rest done : List Component) (i : Nat), Settled done →
    (∀ c ∈ rest, c.isStep = true) → done.length ≤ i → aligned (done.length < i) done rest = true →
      rest.count dotDot ≤ n →
      resolve n (checkFrom false none done rest i) = outcome (rest.foldlM normaliseStep done) := by
  induction n using Nat.strongRecOn with
  | ind n restart =>
    intro rest
    induction rest with
    | nil => exact fun done i _ _ _ _ _ => rfl
    | cons item rest next =>
      intro done i settled steps behind straight count
      have below : ∀ c ∈ rest, c.isStep = true := fun c member =>
        steps c (mem_cons_of_mem _ member)
      rw [foldlM_cons, normaliseStep]
      rw [aligned] at straight
      obtain rfl | rfl | rfl | rfl | plain := step_cases (steps item mem_cons_self)
      · -- "." is met with the count right
        rw [if_pos rfl, Bool.and_eq_true, Bool.not_eq_true', decide_eq_false_iff_not] at straight
        obtain rfl : i = done.length := by omega
        rw [if_pos rfl, checkFrom_dot settled.filled]
        have ahead : decide (done.length < done.length + 1) = true := by simp
        refine next done _ settled below (Nat.le_succ _) (by rw [ahead]; exact straight.2) ?_
        rw [count_cons_of_ne (by decide)] at count
        exact count
      · -- ".." starts another pass, which comes back here
        rw [if_neg (by decide), if_pos (.inr rfl)] at straight
        rw [count_cons_self] at count
        obtain ⟨m, rfl⟩ : ∃ m, n = m + 1 := ⟨n - 1, by omega⟩
        rw [if_neg (by decide), if_pos (.inr rfl), checkFrom_dotDot, resolve,
          passes_succ, settled.pass]
        refine resolve_back settled fun done' cancelled => ?_
        rw [cancelled] at straight
        obtain ⟨bound, straight⟩ :=
          aligned_cancel cancelled settled.filled (by simpa using straight)
        exact restart m (Nat.lt_succ_self m) rest done' _ (settled.cancel cancelled) below
          bound straight
          (by omega)
      · -- :BACK is met with the count right
        rw [if_neg (by decide), if_pos (.inl rfl)] at straight
        simp only [reduceCtorEq, dotDot, decide_false, Bool.false_or, Bool.and_eq_true,
          Bool.not_eq_true', decide_eq_false_iff_not] at straight
        obtain rfl : i = done.length := by omega
        rw [if_neg (by decide), if_pos (.inl rfl)]
        refine resolve_back settled fun done' cancelled => ?_
        rw [cancelled] at straight
        obtain ⟨bound, straight⟩ := aligned_cancel cancelled settled.filled straight.2
        refine next done' _ (settled.cancel cancelled) below bound straight ?_
        rw [count_cons_of_ne (by decide)] at count
        exact count
      · -- :UP
        rw [if_neg (by decide), if_neg (by decide), if_pos rfl] at straight
        simp only [Bool.and_eq_true, Bool.not_eq_true', decide_eq_false_iff_not,
          Bool.or_eq_true] at straight
        obtain rfl : i = done.length := by omega
        rw [if_neg (by decide), if_neg (by decide), if_pos rfl, checkFrom_up settled.filled]
        by_cases barrier : isBarrier done.getLast? = true
        · rw [if_pos barrier, if_pos barrier]
          rfl
        · rw [if_neg barrier, if_neg barrier]
          have level : decide ((done ++ [Component.up]).length < done.length + 1) = false := by simp
          refine next (done ++ [.up]) (done.length + 1) (settled.up barrier) below (by simp)
            (by rw [level]; exact straight.2.resolve_left barrier) ?_
          rw [count_cons_of_ne (by decide)] at count
          exact count
      · -- everything else is kept
        obtain ⟨notDot, notDotDot, notBack, notUp⟩ := isPlain_ne plain
        rw [if_neg notDot, if_neg (not_or.mpr ⟨notBack, notDotDot⟩), if_neg notUp] at straight
        rw [if_neg notDot, if_neg (not_or.mpr ⟨notBack, notDotDot⟩), if_neg notUp,
          checkFrom_plain plain]
        have level : decide ((done ++ [item]).length < i + 1) = decide (done.length < i) := by simp
        refine next (done ++ [item]) (i + 1) (settled.plain plain) below (by simpa using behind)
          (by rw [level]; exact straight) ?_
        rw [count_cons_of_ne notDotDot] at count
        exact count

theorem normalise_settled : ∀ {rest done l : List Component}, Settled done →
    (∀ c ∈ rest, c.isStep = true) → rest.foldlM normaliseStep done = some l → Settled l := by
  intro rest
  induction rest with
  | nil =>
    intro done l settled _ normal
    cases normal
    exact settled
  | cons item rest next =>
    intro done l settled steps normal
    have below : ∀ c ∈ rest, c.isStep = true := fun c member =>
      steps c (mem_cons_of_mem _ member)
    rw [foldlM_cons] at normal
    cases one : normaliseStep done item with
    | none =>
      rw [one] at normal
      cases normal
    | some done' =>
      rw [one] at normal
      refine next ?_ below normal
      rw [normaliseStep] at one
      obtain rfl | rfl | rfl | rfl | plain := step_cases (steps item mem_cons_self)
      · rw [if_pos rfl] at one
        cases one
        exact settled
      · rw [if_neg (by decide), if_pos (.inr rfl)] at one
        exact settled.cancel one
      · rw [if_neg (by decide), if_pos (.inl rfl)] at one
        exact settled.cancel one
      · rw [if_neg (by decide), if_neg (by decide), if_pos rfl] at one
        by_cases barrier : isBarrier done.getLast? = true
        · rw [if_pos barrier] at one
          cases one
        · rw [if_neg barrier] at one
          cases one
          exact settled.up barrier
      · obtain ⟨notDot, notDotDot, notBack, notUp⟩ := isPlain_ne plain
        rw [if_neg notDot, if_neg (not_or.mpr ⟨notBack, notDotDot⟩), if_neg notUp] at one
        cases one
        exact settled.plain plain

section Passes

variable {logical : Bool} {loop : Option Component}

theorem checkLoop_end (logical : Bool) (done : List Component) (item : Component) (i : Nat) :
    checkLoop logical done item i = .error ∨ checkLoop logical done item i = .circular ∨
      logical = false ∧ item = dotDot ∧
        checkLoop logical done item i = .restart done (some .back) := by
  unfold checkLoop
  cases logical <;> split_ifs <;> simp_all

/-- A loop that is closed goes on to no directory; it starts again at a string "..". -/
theorem closeLoop_end (logical : Bool) (done rest : List Component) (loop : Option Component)
    (i : Nat) :
    (closeLoop logical done rest loop i = .error ∨ closeLoop logical done rest loop i = .circular ∨
      closeLoop logical done rest loop i = .nilWritten) ∨
    logical = false ∧ (dotDot ∈ rest ∨ rest = [] ∧ loop = some dotDot) ∧
      closeLoop logical done rest loop i = .restart done (some .back) := by
  rw [closeLoop.eq_def]
  split
  · obtain ended | ended | ⟨physical, rfl, again⟩ := checkLoop_end logical done ‹_› i
    · exact .inl (.inl ended)
    · exact .inl (.inr (.inl ended))
    · exact .inr ⟨physical, .inl mem_cons_self, again⟩
  · obtain ended | ended | ⟨physical, rfl, again⟩ := checkLoop_end logical done ‹_› i
    · exact .inl (.inl ended)
    · exact .inl (.inr (.inl ended))
    · exact .inr ⟨physical, .inr ⟨rfl, rfl⟩, again⟩
  · exact .inl (.inr (.inr rfl))

/-- A pass ends without a directory, or starts again in a loop that was closed, or goes on with the
same front and no other items than it had. -/
def Onward (logical : Bool) (loop : Option Component) (done rest : List Component)
    (item : Component) (pass : Pass) : Prop :=
  (pass = .error ∨ pass = .circular ∨ pass = .nilWritten) ∨
    (logical = false ∧ (dotDot ∈ rest ∨ rest = [] ∧ loop = some dotDot) ∧
      pass = .restart (done ++ [item]) (some .back)) ∨
    ∃ done' i, (∀ c ∈ done', c ∈ done ∨ c = item) ∧ (done ≠ [] → done'.head? = done.head?) ∧
      pass = checkFrom logical loop done' rest i

theorem Onward.ite {rest : List Component} {c : Prop} [Decidable c] {a b : Pass}
    (first : Onward logical loop done rest item a)
    (second : Onward logical loop done rest item b) :
    Onward logical loop done rest item (if c then a else b) := by
  by_cases holds : c
  · rw [if_pos holds]
    exact first
  · rw [if_neg holds]
    exact second

theorem checkFrom_onward {rest : List Component} {i : Nat}
    (other : logical = true ∨ item ≠ dotDot) :
    Onward logical loop done rest item (checkFrom logical loop done (item :: rest) i) := by
  have error : Onward logical loop done rest item .error := .inl (.inl rfl)
  have push : Onward logical loop done rest item
      (checkFrom logical loop (done ++ [item]) rest (i + 1)) :=
    .inr (.inr ⟨_, _, fun c member => by simpa using member, List.head?_append_of_ne_nil _, rfl⟩)
  have close : Onward logical loop done rest item
      (closeLoop logical (done ++ [item]) rest loop (i + 1)) := by
    obtain ended | again := closeLoop_end logical (done ++ [item]) rest loop (i + 1)
    · exact .inl ended
    · exact .inr (.inl again)
  have splice : ∀ k, Onward logical loop done rest item
      (if k < done.length then checkFrom logical loop (done.take (k + 1)) rest (i + 1)
      else if k = done.length then checkFrom logical loop (done ++ [item]) rest (i + 1)
      else closeLoop logical (done ++ [item]) rest loop (i + 1)) := fun k =>
    .ite (.inr (.inr ⟨_, _, fun c member => .inl (mem_of_mem_take member),
        fun _ => by cases done <;> rfl, rfl⟩))
      (.ite push close)
  have string : Onward logical loop done rest item
      (if logical then checkFrom logical loop (done ++ [item]) rest (i + 1)
      else if item = dotDot then .restart (done ++ .back :: rest) loop
      else checkFrom logical loop (done ++ [item]) rest (i + 1)) := by
    obtain isLogical | other := other
    · rw [if_pos isLogical]
      exact push
    · rw [if_neg other]
      exact .ite push push
  rw [checkFrom]
  refine .ite (.ite error (.ite error (.ite (splice _) push))) (.ite (.ite error (.ite error push))
    (.ite (.ite error push) (.ite ?_ (.ite error push))))
  by_cases isLogical : logical = true
  · rw [if_pos isLogical]
    exact push
  · rw [if_neg isLogical] at string ⊢
    exact .ite (.ite error (splice _)) string

/-- What a pass leaves or starts again with: the front stays, and the items are those of the list
or :BACK. -/
theorem checkFrom_items (rest : List Component) : ∀ {done l : List Component} {i : Nat}, done ≠ [] →
    (checkFrom logical loop done rest i = .finished l ∨
      ∃ loop', checkFrom logical loop done rest i = .restart l loop') →
      l.head? = done.head? ∧ ∀ c ∈ l, c ∈ done ∨ c ∈ rest ∨ c = .back := by
  induction rest with
  | nil =>
    intro done l i _ pass
    rw [checkFrom.eq_def] at pass
    cases loop with
    | none =>
      obtain pass | ⟨_, pass⟩ := pass <;> cases pass
      exact ⟨rfl, fun c member => .inl member⟩
    | some item =>
      dsimp only at pass
      obtain ended | ended | ⟨-, -, ended⟩ := checkLoop_end logical done item i <;>
        rw [ended] at pass <;> obtain pass | ⟨_, pass⟩ := pass <;> cases pass
      exact ⟨rfl, fun c member => .inl member⟩
  | cons item rest next =>
    intro done l i filled pass
    by_cases other : logical = true ∨ item ≠ dotDot
    · obtain ended | ⟨-, -, again⟩ | ⟨done', i', items, front, onward⟩ :=
        @checkFrom_onward done item logical loop rest i other
      · grind
      · rw [again] at pass
        obtain pass | ⟨_, pass⟩ := pass <;> cases pass
        refine ⟨List.head?_append_of_ne_nil _ filled, fun c member => ?_⟩
        obtain before | same := mem_append.mp member
        · exact .inl before
        · exact .inr (.inl (mem_singleton.mp same ▸ mem_cons_self))
      · rw [onward] at pass
        have filled' : done' ≠ [] := by
          intro none
          rw [none] at front
          exact filled (List.head?_eq_none_iff.mp (front filled).symm)
        obtain ⟨front', items'⟩ := next filled' pass
        refine ⟨front'.trans (front filled), fun c member => ?_⟩
        obtain before | later | back := items' c member
        · obtain old | same := items c before
          · exact .inl old
          · exact .inr (.inl (same ▸ mem_cons_self))
        · exact .inr (.inl (mem_cons_of_mem _ later))
        · exact .inr (.inr back)
    · obtain ⟨physical, upwards⟩ := not_or.mp other
      rw [Bool.not_eq_true] at physical
      rw [not_not] at upwards
      subst physical upwards
      rw [checkFrom_dotDot] at pass
      obtain pass | ⟨_, pass⟩ := pass <;> cases pass
      refine ⟨List.head?_append_of_ne_nil _ filled, fun c member => ?_⟩
      rw [mem_append, mem_cons] at member
      obtain before | back | later := member
      · exact .inl before
      · exact .inr (.inr back)
      · exact .inr (.inl (mem_cons_of_mem _ later))

/-- A restart has one string ".." less, in the list as in the cell that is its own CDR. -/
theorem checkFrom_restart (rest : List Component) : ∀ {done l : List Component}
    {loop' : Option Component} {i : Nat},
    checkFrom logical loop done rest i = .restart l loop' → loop ≠ some dotDot →
      (logical = false → dotDot ∉ done) →
      l.count dotDot < rest.count dotDot ∧ loop' ≠ some dotDot := by
  induction rest with
  | nil =>
    intro done l loop' i again apart fresh
    rw [checkFrom.eq_def] at again
    cases loop with
    | none => cases again
    | some item =>
      dsimp only at again
      obtain ended | ended | ⟨-, rfl, -⟩ := checkLoop_end logical done item i
      · exact nomatch ended.symm.trans again
      · exact nomatch ended.symm.trans again
      · exact absurd rfl apart
  | cons item rest next =>
    intro done l loop' i again apart fresh
    by_cases upwards : logical = false ∧ item = dotDot
    · obtain ⟨rfl, rfl⟩ := upwards
      rw [checkFrom_dotDot] at again
      cases again
      rw [count_append, count_eq_zero.mpr (fresh rfl), count_cons_of_ne (by decide),
        count_cons_self]
      exact ⟨by omega, apart⟩
    · obtain ended | ⟨physical, inside, restarts⟩ | ⟨done', i', items, -, onward⟩ :=
        checkFrom_onward (by simpa [imp_iff_not_or] using upwards)
      · obtain ended | ended | ended := ended <;>
          exact nomatch ended.symm.trans again
      · have inside := inside.resolve_right fun closed => apart closed.2
        have differ : item ≠ dotDot := fun same => upwards ⟨physical, same⟩
        cases restarts.symm.trans again
        rw [count_append, count_eq_zero.mpr (fresh physical), count_singleton,
          if_neg (by simpa using differ), count_cons_of_ne differ]
        exact ⟨count_pos_iff.mpr inside, by decide⟩
      · rw [onward] at again
        obtain ⟨fewer, apart'⟩ := next again apart fun physical member => by
          obtain before | same := items dotDot member
          · exact fresh physical before
          · exact upwards ⟨physical, same.symm⟩
        exact ⟨Nat.lt_of_lt_of_le fewer count_le_count_cons, apart'⟩

theorem passes_end (n : Nat) : ∀ (directory : List Component) (loop : Option Component),
    directory.count dotDot < n → loop ≠ some dotDot →
      passes logical n directory loop ≠ .restarts := by
  induction n with
  | zero => exact fun directory _ never => absurd never (Nat.not_lt_zero _)
  | succ n next =>
    intro directory loop enough apart
    rw [passes]
    cases pass : checkFrom logical loop [] directory 0 with
    | restart l loop' =>
      obtain ⟨fewer, apart'⟩ := checkFrom_restart directory pass apart fun _ => not_mem_nil
      exact next l loop' (by omega) apart'
    | _ => exact nofun

theorem passes_items (n : Nat) : ∀ {front : Component} {items l : List Component}
    {loop : Option Component}, front = .absolute ∨ front = .relative →
      passes logical n (front :: items) loop = .directory l →
      l.head? = some front ∧ ∀ c ∈ l, c = front ∨ c ∈ items ∨ c = .back := by
  induction n with
  | zero => exact fun _ never => by cases never
  | succ n next =>
    intro front items l loop isFront ended
    have first : checkFrom logical loop [] (front :: items) 0 =
        checkFrom logical loop [front] items 1 := by
      obtain rfl | rfl := isFront <;> rfl
    rw [passes, first] at ended
    cases pass : checkFrom logical loop [front] items 1 with
    | finished l' =>
      rw [pass] at ended
      cases ended
      obtain ⟨head, inside⟩ := checkFrom_items items (cons_ne_nil front []) (.inl pass)
      exact ⟨head, by simpa using inside⟩
    | restart l' loop' =>
      rw [pass] at ended
      obtain ⟨head, inside⟩ := checkFrom_items items (cons_ne_nil front []) (.inr ⟨_, pass⟩)
      obtain ⟨again, rfl⟩ := List.head?_eq_some_iff.mp head
      obtain ⟨head', inside'⟩ := next isFront ended
      refine ⟨head', fun c member => ?_⟩
      obtain same | later | back := inside' c member
      · exact .inl same
      · simpa using inside c (mem_cons_of_mem _ later)
      · exact .inr (.inr back)
    | _ =>
      rw [pass] at ended
      cases ended

end Passes

/-- There are no more restarts than strings "..", whatever the cells have become. -/
theorem destructivelyCheckDirectory_end (directory : List Component) (logical : Bool) :
    destructivelyCheckDirectory directory logical ≠ .restarts := by
  cases directory with
  | nil => exact nofun
  | cons front items =>
    rw [destructivelyCheckDirectory]
    split
    · exact nofun
    · exact passes_end _ _ _ (Nat.lt_succ_self _) nofun

-- The cell of ".." becomes its own CDR, is read and made :BACK; the next pass ends in front.
example : destructivelyCheckDirectory
    [.absolute, .string ['a'], .back, .back, dot, dotDot] false = .error := by
  decide

/-- A directory comes out normalised and stays so, where behind cells that were taken out there is
no ".", :BACK or :UP up to the next "..". -/
theorem destructivelyCheckDirectory_normalise {front : Component} {items : List Component}
    (directory : isDirectory (front :: items) = true)
    (straight : aligned false [front] items = true) :
    destructivelyCheckDirectory (front :: items) false = normalise front items ∧
      ∀ l, normalise front items = .directory l →
        destructivelyCheckDirectory l false = .directory l := by
  obtain ⟨isFront, -, steps⟩ := isDirectory_cons directory
  have settled := settled_front isFront
  have same : normalise front items = outcome (items.foldlM normaliseStep [front]) := by
    rw [normalise]
    cases items.foldlM normaliseStep [front] <;> rfl
  have isDirectory : ¬(front ≠ .absolute ∧ front ≠ .relative) := fun neither =>
    isFront.elim neither.1 neither.2
  constructor
  · rw [destructivelyCheckDirectory, if_neg isDirectory, passes_succ, same]
    have pass := settled.pass items
    rw [singleton_append] at pass
    rw [pass]
    exact resolve_normalise _ items [front] 1 settled steps (Nat.le_refl _) straight
      count_le_count_cons
  · intro l normal
    rw [same] at normal
    cases result : items.foldlM normaliseStep [front] with
    | none =>
      rw [result] at normal
      cases normal
    | some done =>
      rw [result] at normal
      cases normal
      have kept := normalise_settled settled steps result
      have pass := kept.pass []
      obtain ⟨front', tail, rfl, isFront'⟩ := kept.front
      rw [append_nil] at pass
      rw [destructivelyCheckDirectory, if_neg (fun neither => isFront'.elim neither.1 neither.2),
        passes_succ, pass]
      rfl

/-- /a/../b/../c -/
theorem destructivelyCheckDirectory_normalise_twice :
    destructivelyCheckDirectory
        [.absolute, .string ['a'], dotDot, .string ['b'], dotDot, .string ['c']] false =
      .directory [.absolute, .string ['c']] ∧
    destructivelyCheckDirectory [.absolute, .string ['c']] false =
      .directory [.absolute, .string ['c']] := by
  have law := @destructivelyCheckDirectory_normalise .absolute
    [.string ['a'], dotDot, .string ['b'], dotDot, .string ['c']] (by decide) (by decide)
  exact ⟨law.1.trans (by decide), law.2 _ (by decide)⟩

/-- (:absolute "a" "." "." "b") keeps a ".". -/
theorem destructivelyCheckDirectory_keeps_dot :
    isDirectory [.absolute, .string ['a'], dot, dot, .string ['b']] = true ∧
      destructivelyCheckDirectory [.absolute, .string ['a'], dot, dot, .string ['b']] false =
        .directory [.absolute, .string ['a'], dot, .string ['b']] ∧
      normalise .absolute [.string ['a'], dot, dot, .string ['b']] =
        .directory [.absolute, .string ['a'], .string ['b']] ∧
      destructivelyCheckDirectory [.absolute, .string ['a'], dot, .string ['b']] false ≠
        .directory [.absolute, .string ['a'], dot, .string ['b']] := by
  decide

end Ecl.Pathname
