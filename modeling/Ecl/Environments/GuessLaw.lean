import Ecl.Environments.Guess

/- For which bindings guess_environment finds the variables again. -/
namespace Ecl.Interp

namespace Record

@[simp] theorem block_head (name : Val) : (block name).head = some .kBlock := rfl

@[simp] theorem tags_head (labels : List (Val × Nat)) : (tags labels).head = some .kTag := rfl

@[simp] theorem function_head (name : Second) : (function name).head = some .kFunction := rfl

@[simp] theorem symbolMacro_head (name : Sym) : (symbolMacro name).head = some name := rfl

@[simp] theorem variable_head (var : Name) (special bound : Bool) :
    (Record.variable var special bound).head = var := rfl

end Record

/-- How many records of lex_env c_var_ref takes a record for. -/
def Record.count (record : Record) : Nat :=
  if record.head = some .kBlock ∨ record.head = some .kTag ∨ record.head = some .kFunction then 1
  else if record.head = some .kDeclare then 0
  else if record.second.null then 1
  else 0

end Ecl.Interp

namespace Ecl.Environments

open Ecl.Lib List
open Ecl.Interp (Name Record VarRef Second varRefLoop)

theorem guessEnvironment_eq (lexEnv : List LexRecord) :
    guessEnvironment lexEnv = lexEnv.map guessRecord := by
  have loop : ∀ (env : List LexRecord) (vars : List Record),
      env.foldl (fun vars record => guessRecord record :: vars) vars =
        (env.map guessRecord).reverse ++ vars := by
    intro env
    induction env with
    | nil => simp
    | cons record env ih => simp [ih]
  simp [guessEnvironment, loop]

section

variable {var : Name} {record : Record} {records : List Record} {n : Nat}

theorem Name.reserved_iff : var.reserved = true ↔ var = some .kBlock ∨ var = some .kTag ∨
    var = some .kFunction ∨ var = some .kDeclare := by
  rcases var with _ | name
  · simp [Name.reserved]
  · cases name <;> simp [Name.reserved, Sym.reserved]

theorem varRefLoop_passed (h : record.head ≠ var ∨ var.reserved = true) :
    varRefLoop var false (record :: records) n =
      varRefLoop var false records (n + record.count) := by
  rw [Name.reserved_iff] at h
  by_cases counted : record.head = some .kBlock ∨ record.head = some .kTag ∨
      record.head = some .kFunction
  · simp [varRefLoop, Record.count, counted]
  by_cases ignored : record.head = some .kDeclare
  · simp [varRefLoop, Record.count, ignored]
  have other : record.head ≠ var := by
    rintro rfl
    simp_all
  by_cases null : record.second.null = true
  · simp [varRefLoop, Record.count, counted, ignored, other, null]
  · simp [varRefLoop, Record.count, counted, ignored, other, null]

theorem varRefLoop_reserved (reserved : var.reserved = true) :
    varRefLoop var false records n = some .undefined := by
  induction records generalizing n with
  | nil => rfl
  | cons record records ih => rw [varRefLoop_passed (.inr reserved), ih]

theorem varRefLoop_here (free : var.reserved = false) (second : Second) (third : Bool) :
    varRefLoop var false (⟨var, second, third⟩ :: records) n =
      if second = .symbolMacro then none
      else if second.null then some (.index n) else some .special := by
  have notReserved := (@Name.reserved_iff var).not.mp (by simp [free])
  simp only [not_or] at notReserved
  simp [varRefLoop, notReserved]

end

/-- The lex_env that belongs to a point. -/
def Point.lexEnv (point : Point) : List LexRecord := point.filterMap Binding.lex

namespace Binding

/-- How many records of lex_env a binding has. -/
def size (b : Binding) : Nat := b.lex.toList.length

/-- How many records of lex_env the compiler counts for a binding, originally and in the
environment that is guessed. -/
def counted (b : Binding) : Nat := b.record.count

def guessed (b : Binding) : Nat := (b.lex.map fun r => (guessRecord r).count).getD 0

/-- A CATCH whose tag is the symbol. -/
def caught (var : Name) : Binding → Bool
  | .catchTag _ tag => tag = var.object
  | _ => false

/-- The records that c_var_ref does not count as they lie in lex_env: variables and tags of the
name :DECLARE, and the special variables of the names :BLOCK, :TAG and :FUNCTION. -/
def misplaced : Binding → Bool
  | .var name _ _ => name = some .kDeclare
  | .special name _ => name = some .kBlock ∨ name = some .kTag ∨ name = some .kFunction
  | .catchTag _ tag => tag = .sym .kDeclare
  | _ => false

/-- What a binding means for a variable name in the environment that is guessed. -/
def guessedSight (var : Name) (b : Binding) : Sight :=
  if b.sight var = .found ∨ b.caught var = true then .found else .passed

theorem guessedSight_shown (var : Name) (b : Binding) : b.guessedSight var ≠ .hidden := by
  unfold guessedSight
  split <;> simp

end Binding

@[simp] theorem symbolOf_object (name : Name) : symbolOf name.object = some name := by
  cases name <;> rfl

theorem object_of_symbolOf {tag : Val} {name : Name} (h : symbolOf tag = some name) :
    tag = name.object := by
  cases tag <;> cases h <;> rfl

theorem guess_symbol {address : Nat} {car cdr : Val} {name : Name} (h : symbolOf car = some name) :
    guessRecord (.cons address car cdr) = .variable name false true := by
  simp [guessRecord, h]

@[simp] theorem guess_variable (address : Nat) (name : Name) (value : Val) :
    guessRecord (bindVar address name value) = .variable name false true := by
  simp [guessRecord, bindVar]

@[simp] theorem guess_function (closure : Nat) :
    guessRecord (bindFunction closure) = .function (.obj (.closure closure)) := rfl

@[simp] theorem count_block (name : Val) : (Record.block name).count = 1 := by
  simp [Record.count, Record.block]

@[simp] theorem count_tags (labels : List (Val × Nat)) : (Record.tags labels).count = 1 := by
  simp [Record.count, Record.tags]

@[simp] theorem count_function (name : Second) : (Record.function name).count = 1 := by
  simp [Record.count, Record.function]

@[simp] theorem count_variable (name : Name) : (Record.variable name false true).count =
    if name = some .kDeclare then 0 else 1 := by
  by_cases declare : name = some .kDeclare <;>
    simp [Record.count, Record.variable, Second.null, declare]

@[simp] theorem count_special (name : Name) (bound : Bool) :
    (Record.variable name true bound).count =
      if name = some .kBlock ∨ name = some .kTag ∨ name = some .kFunction then 1 else 0 := by
  simp [Record.count, Record.variable, Second.null]

theorem count_symbolMacro {name : Sym} (free : name.isConstant = false) :
    (Record.symbolMacro name).count = 0 := by
  cases name with
  | kBlock => cases free
  | kTag => cases free
  | kFunction => cases free
  | _ => simp [Record.count, Record.symbolMacro, Second.null]

@[simp] theorem count_guess_frame (address : Nat) (id : Int) (name : Val) :
    (guessRecord (bindFrame address (.fixnum id) name)).count = 1 := by
  simp only [guessRecord, bindFrame, symbolOf]
  split <;> simp

@[simp] theorem count_guess_catch (address : Nat) (tag : Val) :
    (guessRecord (bindFrame address tag tag)).count = if tag = .sym .kDeclare then 0 else 1 := by
  simp only [guessRecord, bindFrame]
  cases h : symbolOf tag with
  | none =>
    have other : tag ≠ .sym .kDeclare := by
      rintro rfl
      cases h
    dsimp only
    rw [if_neg other]
    split <;> simp
  | some name =>
    rw [object_of_symbolOf h]
    cases name <;> simp [Name.object]

namespace Binding

section

variable {var : Name} {b : Binding}

theorem guessedSight_found : b.guessedSight var = .found ↔
    b.sight var = .found ∨ b.caught var = true := by
  unfold guessedSight
  split <;> simp [*]

theorem guessedSight_passed : b.guessedSight var = .passed ↔
    b.sight var ≠ .found ∧ b.caught var = false := by
  unfold guessedSight
  split
  · rename_i found
    simp only [reduceCtorEq, false_iff, not_and, Bool.not_eq_false]
    exact fun notFound => found.resolve_left notFound
  · rename_i notFound
    simpa using notFound

/-- The guess counts no record that is not there, and none that the compiler did not count. -/
theorem guessed_le (b : Binding) : b.guessed ≤ b.size ∧ b.guessed ≤ b.counted := by
  cases b with
  | var name address value => simp [guessed, counted, size, record, lex]; split <;> simp
  | symbolMacro name free => simp [guessed, lex]
  | catchTag address tag => simp [guessed, counted, size, record, lex]; split <;> simp
  | _ => simp [guessed, counted, size, record, lex]

theorem misplaced_iff (b : Binding) :
    b.misplaced = false ↔ b.guessed = b.size ∧ b.guessed = b.counted := by
  cases b with
  | var name address value =>
    by_cases declare : name = some .kDeclare <;>
      simp [guessed, counted, size, misplaced, record, lex, declare]
  | symbolMacro name free =>
    simp [guessed, counted, size, misplaced, record, lex, count_symbolMacro free]
  | catchTag address tag =>
    by_cases declare : tag = .sym .kDeclare <;>
      simp [guessed, counted, size, misplaced, record, lex, declare]
  | special name bound =>
    by_cases reserved : name = some .kBlock ∨ name = some .kTag ∨ name = some .kFunction <;>
      simp [guessed, counted, size, misplaced, record, lex, reserved]
  | _ => simp [guessed, counted, size, misplaced, record, lex]

theorem found_iff : b.sight var = .found ↔ ∃ address value, b = .var var address value := by
  cases b with
  | var name address value => by_cases same : name = var <;> simp [sight, same]
  | special name bound => by_cases same : name = var <;> simp [sight, same]
  | symbolMacro name free => by_cases same : some name = var <;> simp [sight, same]
  | _ => simp [sight]

theorem hidden_iff : b.sight var = .hidden ↔
    (∃ bound, b = .special var bound) ∨
      ∃ name free, b = .symbolMacro name free ∧ some name = var := by
  cases b with
  | var name address value => by_cases same : name = var <;> simp [sight, same]
  | special name bound => by_cases same : name = var <;> simp [sight, same]
  | symbolMacro name free => by_cases same : some name = var <;> simp [sight, same, free]
  | _ => simp [sight]

theorem caught_iff : b.caught var = true ↔ ∃ address, b = .catchTag address var.object := by
  cases b <;> simp [caught]

theorem guess_head {record : LexRecord} (free : var.reserved = false)
    (same : (guessRecord record).head = var) :
    ∃ address cdr, record = .cons address var.object cdr := by
  subst same
  cases record with
  | function closure => simp [guessRecord, Name.reserved, Sym.reserved] at free
  | cons address car cdr =>
    cases h : symbolOf car with
    | some name =>
      rw [guess_symbol h, object_of_symbolOf h]
      exact ⟨address, cdr, rfl⟩
    | none =>
      simp only [guessRecord, h] at free
      split at free <;> simp [Name.reserved, Sym.reserved] at free

theorem guess_other {record : LexRecord} (free : var.reserved = false)
    (notFound : b.sight var ≠ .found) (notCaught : b.caught var = false)
    (hlex : b.lex = some record) : (guessRecord record).head ≠ var := by
  intro same
  obtain ⟨address, cdr, rfl⟩ := guess_head free same
  have symbol := symbolOf_object var
  cases b with
  | var name address value =>
    simp only [lex, bindVar, Option.some.injEq, LexRecord.cons.injEq] at hlex
    rw [← hlex.2.1, symbolOf_object, Option.some.injEq] at symbol
    simp [sight, symbol] at notFound
  | special name bound => cases hlex
  | symbolMacro name constant => cases hlex
  | function name closure => cases hlex
  | block name address id =>
    simp only [lex, bindFrame, Option.some.injEq, LexRecord.cons.injEq] at hlex
    simp [← hlex.2.1, symbolOf] at symbol
  | tagbody labels address id =>
    simp only [lex, bindFrame, Option.some.injEq, LexRecord.cons.injEq] at hlex
    simp [← hlex.2.1, symbolOf] at symbol
  | catchTag address tag =>
    simp only [lex, bindFrame, Option.some.injEq, LexRecord.cons.injEq] at hlex
    simp [caught, hlex.2.1] at notCaught

theorem head_of_passed (free : var.reserved = false) (passed : b.sight var = .passed) :
    b.record.head ≠ var := by
  rintro rfl
  cases b <;> simp_all [sight, record, Name.reserved, Sym.reserved]

end

end Binding

section

variable {var : Name} (free : var.reserved = false)

include free

theorem varRefLoop_vars (point : Point) (n : Nat) {ref : VarRef}
    (h : varRefLoop var false point.vars n = some ref) :
    indexOf ref = (search (Binding.sight var) Binding.counted point).map (n + ·) := by
  induction point generalizing n with
  | nil =>
    cases h
    rfl
  | cons b point ih =>
    rw [Point.vars, map_cons] at h
    cases sight : b.sight var with
    | found =>
      obtain ⟨address, value, rfl⟩ := Binding.found_iff.mp sight
      rw [Binding.record, Record.variable, varRefLoop_here free] at h
      cases h
      rw [search_found sight]
      rfl
    | hidden =>
      rw [search_hidden sight]
      rcases Binding.hidden_iff.mp sight with ⟨bound, rfl⟩ | ⟨name, constant, rfl, rfl⟩
      · rw [Binding.record, Record.variable, varRefLoop_here free] at h
        cases h
        rfl
      · rw [Binding.record, Record.symbolMacro, varRefLoop_here free] at h
        cases h
    | passed =>
      rw [varRefLoop_passed (.inl (Binding.head_of_passed free sight))] at h
      rw [search_passed sight, ih _ h, Option.map_map]
      congr 1
      funext i
      simp [Binding.counted, Nat.add_assoc]

theorem varRefLoop_guessed (point : Point) (n : Nat) :
    ∃ ref, varRefLoop var false (point.lexEnv.map guessRecord) n = some ref ∧
      indexOf ref = (search (Binding.guessedSight var) Binding.guessed point).map (n + ·) := by
  induction point generalizing n with
  | nil => exact ⟨.undefined, rfl, rfl⟩
  | cons b point ih =>
    cases sight : b.guessedSight var with
    | found =>
      rw [search_found sight]
      refine ⟨.index n, ?_, rfl⟩
      rcases Binding.guessedSight_found.mp sight with found | caught
      · obtain ⟨address, value, rfl⟩ := Binding.found_iff.mp found
        simp only [Point.lexEnv, filterMap_cons, Binding.lex, map_cons, guess_variable]
        rw [Record.variable, varRefLoop_here free]
        rfl
      · obtain ⟨address, rfl⟩ := Binding.caught_iff.mp caught
        simp only [Point.lexEnv, filterMap_cons, Binding.lex, map_cons]
        rw [bindFrame, guess_symbol (symbolOf_object var), Record.variable, varRefLoop_here free]
        rfl
    | hidden => exact absurd sight (Binding.guessedSight_shown var b)
    | passed =>
      rw [search_passed sight]
      obtain ⟨notFound, notCaught⟩ := Binding.guessedSight_passed.mp sight
      cases lex : b.lex with
      | none =>
        obtain ⟨ref, href, found⟩ := ih n
        refine ⟨ref, ?_, ?_⟩
        · rw [Point.lexEnv, filterMap_cons_none lex]
          exact href
        · simp [found, Binding.guessed, lex]
      | some record =>
        obtain ⟨ref, href, found⟩ := ih (n + (guessRecord record).count)
        refine ⟨ref, ?_, ?_⟩
        · rw [Point.lexEnv, filterMap_cons_some lex, map_cons,
            varRefLoop_passed (.inl (Binding.guess_other free notFound notCaught lex))]
          exact href
        · rw [found, Option.map_map]
          congr 1
          funext i
          simp [Binding.guessed, lex, Nat.add_assoc]

end

/-- The place in lex_env of the variable that a name denotes at a point. -/
def Point.place (point : Point) (var : Name) : Option Nat :=
  search (Binding.sight var) Binding.size point

/-- The law for one name, where lex_env belongs to the point. -/
def Point.GuessLawAt (point : Point) (var : Name) : Prop :=
  ∀ ref, varRefLoop var false point.vars 0 = some ref →
    ∃ ref', varRefLoop var false (guessEnvironment point.lexEnv) 0 = some ref' ∧
      indexOf ref' = indexOf ref ∧ indexOf ref' = point.place var

/-- A name whose bindings can be recognized. If the innermost one is a lexical variable, then the
name is no keyword of the compiler, and between there and the point no CATCH has the symbol for its
tag and all records are counted as they lie. If it is a special variable, then there is no
lexical variable of the name at all and no CATCH with the symbol for its tag, and without any
binding there is no such CATCH. -/
structure Point.Recoverable (point : Point) (var : Name) : Prop where
  lexical : ∀ inner b outer, point = inner ++ b :: outer → (∀ c ∈ inner, c.sight var = .passed) →
    b.sight var = .found →
      var.reserved = false ∧ ∀ c ∈ inner, c.caught var = false ∧ c.misplaced = false
  special : ∀ inner bound outer, point = inner ++ .special var bound :: outer →
    (∀ c ∈ inner, c.sight var = .passed) → var.reserved = false →
      ∀ c ∈ point, c.sight var ≠ .found ∧ c.caught var = false
  unbound : (∀ c ∈ point, c.sight var = .passed) → var.reserved = false →
    ∀ c ∈ point, c.caught var = false

section

variable {point inner outer : Point} {b : Binding} {var : Name}

theorem innermost_unique {inner' outer' : Point} {b' : Binding}
    (passed : ∀ c ∈ inner, c.sight var = .passed) (stops : b.sight var ≠ .passed)
    (passed' : ∀ c ∈ inner', c.sight var = .passed) (stops' : b'.sight var ≠ .passed)
    (same : inner ++ b :: outer = inner' ++ b' :: outer') :
    inner = inner' ∧ b = b' ∧ outer = outer' := by
  induction inner generalizing inner' with
  | nil =>
    cases inner' with
    | nil => simpa using same
    | cons c inner' =>
      simp only [nil_append, cons_append, List.cons.injEq] at same
      exact absurd (same.1 ▸ passed' c (by simp)) stops
  | cons c inner ih =>
    cases inner' with
    | nil =>
      simp only [nil_append, cons_append, List.cons.injEq] at same
      exact absurd (same.1 ▸ passed c (by simp)) stops'
    | cons c' inner' =>
      simp only [cons_append, List.cons.injEq] at same
      have rest := ih (fun d hd => passed d (by simp [hd])) (fun d hd => passed' d (by simp [hd]))
        same.2
      exact ⟨by rw [same.1, rest.1], rest.2⟩

theorem lawAt_reserved (reserved : var.reserved = true) :
    point.GuessLawAt var ↔ point.place var = none := by
  unfold Point.GuessLawAt
  rw [varRefLoop_reserved reserved, varRefLoop_reserved reserved]
  simp [indexOf, eq_comm]

theorem lawAt_free (free : var.reserved = false) {ref : VarRef}
    (original : varRefLoop var false point.vars 0 = some ref) : point.GuessLawAt var ↔
      search (Binding.guessedSight var) Binding.guessed point =
        search (Binding.sight var) Binding.counted point ∧
      search (Binding.guessedSight var) Binding.guessed point = point.place var := by
  obtain ⟨ref', guess, found⟩ := varRefLoop_guessed free point 0
  have first := varRefLoop_vars free point 0 original
  simp only [Nat.zero_add, Option.map_id'] at found first
  unfold Point.GuessLawAt
  rw [guessEnvironment_eq, original, guess]
  simp [found, first]

theorem lawAt_found (free : var.reserved = false) (passed : ∀ c ∈ inner, c.sight var = .passed)
    (found : b.sight var = .found) {ref : VarRef}
    (original : varRefLoop var false (Point.vars (inner ++ b :: outer)) 0 = some ref) :
    Point.GuessLawAt (inner ++ b :: outer) var ↔
      ∀ c ∈ inner, c.caught var = false ∧ c.misplaced = false := by
  have shown := Binding.guessedSight_shown var
  have found' := Binding.guessedSight_found.mpr (.inl found)
  have caught : ∀ c ∈ inner, c.guessedSight var = .found → c.caught var = true := by
    intro c hc hfound
    exact (Binding.guessedSight_found.mp hfound).resolve_left (by simp [passed c hc])
  have sized : ∀ c ∈ inner, c.guessedSight var = .found → 0 < c.size ∧ 0 < c.counted := by
    intro c hc hfound
    obtain ⟨address, rfl⟩ := Binding.caught_iff.mp (caught c hc hfound)
    simp [Binding.size, Binding.counted, Binding.lex, Binding.record]
  rw [lawAt_free free original, Point.place,
    search_eq_iff (fun c => c.guessed_le.2) shown (fun c hc h => (sized c hc h).2) passed found
      found',
    search_eq_iff (fun c => c.guessed_le.1) shown (fun c hc h => (sized c hc h).1) passed found
      found',
    ← forall₂_and]
  refine forall₂_congr fun c hc => ?_
  rw [Binding.guessedSight_passed, Binding.misplaced_iff]
  simp [passed c hc]
  tauto

theorem lawAt_dynamic (free : var.reserved = false) (hidden : point.place var = none)
    (uncounted : search (Binding.sight var) Binding.counted point = none) {ref : VarRef}
    (original : varRefLoop var false point.vars 0 = some ref) : point.GuessLawAt var ↔
      ∀ c ∈ point, c.sight var ≠ .found ∧ c.caught var = false := by
  rw [lawAt_free free original, hidden, uncounted, and_self,
    search_eq_none_iff (Binding.guessedSight_shown var)]
  refine forall₂_congr fun c hc => ?_
  rw [ne_eq, Binding.guessedSight_found, not_or, Bool.not_eq_true]

theorem varRefLoop_append (free : var.reserved = false)
    (passed : ∀ c ∈ inner, c.sight var = .passed)
    (n : Nat) : ∃ m, varRefLoop var false (Point.vars (inner ++ outer)) n =
      varRefLoop var false (Point.vars outer) m := by
  induction inner generalizing n with
  | nil => exact ⟨n, rfl⟩
  | cons c inner ih =>
    have head := Binding.head_of_passed free (passed c (by simp))
    obtain ⟨m, hm⟩ := ih (fun d hd => passed d (by simp [hd])) (n + c.record.count)
    refine ⟨m, ?_⟩
    rw [← hm, cons_append, Point.vars, map_cons, varRefLoop_passed (.inl head)]
    rfl

theorem lawAt_unbound (passed : ∀ c ∈ point, c.sight var = .passed) :
    point.GuessLawAt var ↔ point.Recoverable var := by
  have other : ∀ inner b outer, point = inner ++ b :: outer → b.sight var = .passed := by
    rintro inner b outer rfl
    exact passed b (by simp)
  have hidden : point.place var = none := search_none passed
  cases reserved : var.reserved with
  | true =>
    rw [lawAt_reserved reserved]
    refine ⟨fun _ => ⟨?_, ?_, ?_⟩, fun _ => hidden⟩
    · intro inner b outer same _ found
      simp [other inner b outer same] at found
    · intro _ _ _ _ _ free
      simp [reserved] at free
    · intro _ free
      simp [reserved] at free
  | false =>
    obtain ⟨m, original⟩ := @varRefLoop_append point [] var reserved passed 0
    rw [append_nil] at original
    rw [lawAt_dynamic reserved hidden (search_none passed) original]
    constructor
    · intro law
      refine ⟨?_, fun _ _ _ _ _ _ => law, fun _ _ c hc => (law c hc).2⟩
      intro inner b outer same _ found
      simp [other inner b outer same] at found
    · intro recoverable c hc
      exact ⟨by simp [passed c hc], recoverable.unbound passed reserved c hc⟩

theorem lawAt_lexical (passed : ∀ c ∈ inner, c.sight var = .passed) (found : b.sight var = .found) :
    Point.GuessLawAt (inner ++ b :: outer) var ↔ Point.Recoverable (inner ++ b :: outer) var := by
  have stops : b.sight var ≠ .passed := by simp [found]
  have recoverable : Point.Recoverable (inner ++ b :: outer) var ↔
      var.reserved = false ∧ ∀ c ∈ inner, c.caught var = false ∧ c.misplaced = false := by
    refine ⟨fun all => all.lexical inner b outer rfl passed found, fun all => ⟨?_, ?_, ?_⟩⟩
    · intro inner' b' outer' same passed' found'
      obtain ⟨rfl, -⟩ := innermost_unique passed stops passed' (by simp [found']) same
      exact all
    · intro inner' bound outer' same passed'
      obtain ⟨-, rfl, -⟩ := innermost_unique passed stops passed' (by simp [Binding.sight]) same
      simp [Binding.sight] at found
    · intro nothing
      exact absurd (nothing b (by simp)) stops
  rw [recoverable]
  cases reserved : var.reserved with
  | true =>
    obtain ⟨m, n, -, visible, -⟩ := search_le (fun c => c.guessed_le.1)
      (Binding.guessedSight_shown var) passed found (Binding.guessedSight_found.mpr (.inl found))
    rw [lawAt_reserved reserved, Point.place, visible]
    simp
  | false =>
    obtain ⟨address, value, rfl⟩ := Binding.found_iff.mp found
    obtain ⟨m, original⟩ :=
      @varRefLoop_append inner (.var var address value :: outer) var reserved passed 0
    rw [Point.vars, Point.vars, map_cons, Binding.record, Record.variable, varRefLoop_here reserved]
      at original
    rw [lawAt_found reserved passed found original]
    simp

theorem lawAt_special {bound : Bool} (passed : ∀ c ∈ inner, c.sight var = .passed) :
    Point.GuessLawAt (inner ++ .special var bound :: outer) var ↔
      Point.Recoverable (inner ++ .special var bound :: outer) var := by
  have hides : (Binding.special var bound).sight var = .hidden := by simp [Binding.sight]
  have stops : (Binding.special var bound).sight var ≠ .passed := by simp [hides]
  have recoverable : Point.Recoverable (inner ++ .special var bound :: outer) var ↔
      (var.reserved = false →
        ∀ c ∈ inner ++ .special var bound :: outer,
          c.sight var ≠ .found ∧ c.caught var = false) := by
    refine ⟨fun all => all.special inner bound outer rfl passed, fun all => ⟨?_, ?_, ?_⟩⟩
    · intro inner' b' outer' same passed' found'
      obtain ⟨-, rfl, -⟩ := innermost_unique passed stops passed' (by simp [found']) same
      simp [hides] at found'
    · intro _ _ _ _ _
      exact all
    · intro nothing
      exact absurd (nothing (.special var bound) (by simp)) stops
  have hidden : Point.place (inner ++ .special var bound :: outer) var = none :=
    search_hidden_at passed hides
  rw [recoverable]
  cases reserved : var.reserved with
  | true =>
    rw [lawAt_reserved reserved]
    simp [hidden]
  | false =>
    obtain ⟨m, original⟩ :=
      @varRefLoop_append inner (.special var bound :: outer) var reserved passed 0
    rw [Point.vars, Point.vars, map_cons, Binding.record, Record.variable, varRefLoop_here reserved]
      at original
    rw [lawAt_dynamic reserved hidden (search_hidden_at passed hides) original]
    simp

theorem lawAt_symbolMacro {name : Sym} {constant : name.isConstant = false}
    (passed : ∀ c ∈ inner, c.sight (some name) = .passed) :
    Point.GuessLawAt (inner ++ .symbolMacro name constant :: outer) (some name) ↔
      Point.Recoverable (inner ++ .symbolMacro name constant :: outer) (some name) := by
  have hides : (Binding.symbolMacro name constant).sight (some name) = .hidden := by
    simp [Binding.sight]
  have stops : (Binding.symbolMacro name constant).sight (some name) ≠ .passed := by simp [hides]
  have free : Name.reserved (some name) = false := by
    cases reserved : Name.reserved (some name) with
    | false => rfl
    | true =>
      have := Sym.isConstant_of_reserved (by simpa [Name.reserved] using reserved)
      simp [this] at constant
  constructor
  · intro _
    refine ⟨?_, ?_, ?_⟩
    · intro inner' b' outer' same passed' found'
      obtain ⟨-, rfl, -⟩ := innermost_unique passed stops passed' (by simp [found']) same
      simp [hides] at found'
    · intro inner' bound outer' same passed'
      obtain ⟨-, other, -⟩ :=
        innermost_unique passed stops passed' (by simp [Binding.sight]) same
      cases other
    · intro nothing
      exact absurd (nothing (.symbolMacro name constant) (by simp)) stops
  · intro _ ref original
    obtain ⟨m, error⟩ :=
      @varRefLoop_append inner (.symbolMacro name constant :: outer) (some name) free passed 0
    rw [original, Point.vars, map_cons, Binding.record, Record.symbolMacro,
      varRefLoop_here free] at error
    cases error

/-- Where lex_env belongs to the point, the law holds for the names that can be recognized. -/
theorem Point.guessLawAt_iff (point : Point) (var : Name) :
    point.GuessLawAt var ↔ point.Recoverable var := by
  rcases sight_cases (Binding.sight var) point with passed | ⟨inner, b, outer, rfl, passed, stops⟩
  · exact lawAt_unbound passed
  cases sight : b.sight var with
  | found => exact lawAt_lexical passed sight
  | hidden =>
    rcases Binding.hidden_iff.mp sight with ⟨bound, rfl⟩ | ⟨name, constant, rfl, rfl⟩
    · exact lawAt_special passed
    · exact lawAt_symbolMacro passed
  | passed => exact absurd sight stops

end

end Ecl.Environments
