import Ecl.Types.Registered

/- The calls of canonical-type register what they mention, and fast-subtypep decides inclusion. -/
namespace Ecl.Types

open Ecl.Lib List Option Int

variable {db : TypeState} {n : Nat} {cell : Object → Nat}

def Atom.bounds : Atom → List (Option Int)
  | .integer m => [some m, some (m + 1)]
  | _ => []

mutual

def Specifier.bounds : Specifier → List (Option Int)
  | .t => []
  | .nil => []
  | .name name => if name = .integer then [none] else []
  | .integer interval => interval.bounds
  | .member objects => objects.flatMap Atom.bounds
  | .and types => boundsAll types
  | .or types => boundsAll types
  | .not type => type.bounds

def boundsAll : List Specifier → List (Option Int)
  | [] => []
  | type :: types => type.bounds ++ boundsAll types

end

/-- An interval that ends below its start is only mentioned where the ray of its start is
known. -/
def Interval.upright (interval : Interval) (known : List (Option Int)) : Bool :=
  match interval.high.next with
  | none => true
  | some b => boundsLe interval.low.first (some b) || decide (interval.low.first ∈ known)

mutual

def Specifier.upright (known : List (Option Int)) : Specifier → Bool
  | .integer interval => interval.upright known
  | .and types => uprightAll known types
  | .or types => uprightAll known types
  | .not type => type.upright known
  | _ => true

/-- Types one after the other, each with the rays of those before it. -/
def uprightAll (known : List (Option Int)) : List Specifier → Bool
  | [] => true
  | type :: types => type.upright known && uprightAll (known ++ type.bounds) types

end

def Known (db : TypeState) (known : List (Option Int)) : Prop := ∀ b ∈ known, .ray b ∈ db.keys

theorem Known.grows {db' : TypeState} (grows : Grows db db') {known : List (Option Int)}
    (registered : Known db known) : Known db' known :=
  fun b isIn => grows.keys (registered b isIn)

theorem Known.append {known more : List (Option Int)} (first : Known db known)
    (second : Known db more) : Known db (known ++ more) :=
  fun b isIn => (mem_append.mp isIn).elim (first b) (second b)

theorem Interval.upright_known {interval : Interval} {known : List (Option Int)}
    (upright : interval.upright known = true) (registered : Known db known) :
    interval.Upright fun b => .ray b ∈ db.keys := by
  intro b next
  rw [Interval.upright, next, Bool.or_eq_true, decide_eq_true_eq] at upright
  exact upright.imp_right (registered _)

theorem Interval.bounds_integer (m : Int) :
    (Interval.between (.inclusive m) (.inclusive m)).bounds = [some m, some (m + 1)] := by
  have first : ⌈(m : ℚ)⌉ = m := ceil_intCast m
  have next : ⌊1 + (m : ℚ)⌋ = m + 1 := by
    rw [← cast_one, ← cast_add, floor_intCast, add_comm]
  simp only [bounds, low, high, Bound.first, Bound.next, map_some, toList_some,
    first, next]

theorem Atom.Registered.known (closed : Closed db) {a : Atom} (registered : a.Registered db) :
    Known db a.bounds := by
  cases a with
  | symbol serial => exact fun _ isIn => nomatch isIn
  | keyword serial => exact fun _ isIn => nomatch isIn
  | integer m =>
    show Known db [some m, some (m + 1)]
    rw [← Interval.bounds_integer]
    intro b isIn
    cases mem_cons.mp isIn with
    | inl head => exact head ▸ closed.low _ _ registered
    | inr tail => exact (mem_singleton.mp tail) ▸ closed.high _ _ _ registered rfl

mutual

theorem Specifier.Registered.known (closed : Closed db) :
    ∀ (type : Specifier), type.Registered db → Known db type.bounds
  | .t, _ => fun _ isIn => nomatch isIn
  | .nil, _ => fun _ isIn => nomatch isIn
  | .name name, registered => by
      intro b isIn
      unfold Specifier.bounds at isIn
      split at isIn
      next integer =>
        rw [mem_singleton.mp isIn]
        exact closed.integer (integer ▸ registered)
      next => cases isIn
  | .integer _, registered => registered.1
  | .member objects, registered => by
      intro b isIn
      obtain ⟨a, isIn, mentions⟩ := mem_flatMap.mp isIn
      exact (registered a isIn).known closed b mentions
  | .and types, registered => RegisteredAll.known closed types registered
  | .or types, registered => RegisteredAll.known closed types registered
  | .not type, registered => Specifier.Registered.known closed type registered

theorem RegisteredAll.known (closed : Closed db) :
    ∀ (types : List Specifier), RegisteredAll db types → Known db (boundsAll types)
  | [], _ => fun _ isIn => nomatch isIn
  | type :: types, registered =>
    (Specifier.Registered.known closed type registered.1).append
      (RegisteredAll.known closed types registered.2)

end

/-- What a call leaves: the partition of a database with more in it. -/
structure After (db db' : TypeState) : Prop where
  inv : ∃ n cell, Inv db' n cell
  grows : Grows db db'

theorem After.refl (inv : Inv db n cell) : After db db := ⟨⟨n, cell, inv⟩, Grows.refl db⟩

theorem After.trans {db' db'' : TypeState} (first : After db db') (second : After db' db'') :
    After db db'' :=
  ⟨second.inv, first.grows.trans second.grows⟩

theorem findBuiltInTag_after (inv : Inv db n cell) {name : TypeName}
    (missing : .name name ∉ db.keys) :
    After db (findBuiltInTag name db).2 ∧ .name name ∈ (findBuiltInTag name db).2.keys := by
  cases name with
  | symbol =>
    exact ⟨⟨⟨_, _, (registerBuiltIn_inv inv .symbol nofun nofun missing).1⟩,
      registerBuiltIn_grows .symbol⟩, mem_cons_self⟩
  | cons =>
    exact ⟨⟨⟨_, _, (registerBuiltIn_inv inv .cons nofun nofun missing).1⟩,
      registerBuiltIn_grows .cons⟩, mem_cons_self⟩
  | character =>
    exact ⟨⟨⟨_, _, (registerBuiltIn_inv inv .character nofun nofun missing).1⟩,
      registerBuiltIn_grows .character⟩, mem_cons_self⟩
  | keyword =>
    refine ⟨⟨findBuiltInTag_keyword_inv inv missing, findBuiltInTag_keyword_grows⟩, ?_⟩
    exact mem_cons_self
  | integer =>
    have upright : (Interval.between .star .star).Upright fun b => .ray b ∈ db.keys := nofun
    obtain ⟨n', cell', after, denotes⟩ := registerIntervalType_inv inv upright
    have ⟨grows, known, _⟩ := registerIntervalType_grows (.between .star .star) db
    refine ⟨⟨⟨n', cell', ?_⟩, grows.trans (pushType_grows _ _)⟩, mem_cons_self⟩
    refine after.push (.name .integer) (denotes.congr fun x => ?_) ?_
    · cases x <;> rfl
    · exact after.toClosed.name rfl rfl (fun _ => known none mem_cons_self) nofun

theorem canonicalName_after (inv : Inv db n cell) (name : TypeName) :
    After db (canonicalName name db).2 ∧ .name name ∈ (canonicalName name db).2.keys := by
  unfold canonicalName
  cases found : db.findRegisteredTag (.name name) with
  | some tag => exact ⟨After.refl inv, Database.mem_keys (Database.mem_of_lookup found)⟩
  | none => exact findBuiltInTag_after inv (Database.not_mem_of_lookup found)

theorem Interval.registered_of_key (closed : Closed db) {interval : Interval} {key : Key}
    (eq : interval.key = some key) (registered : key ∈ db.keys) : interval.Registered db := by
  cases interval with
  | all => cases eq
  | between low high =>
    cases eq
    refine ⟨fun b isIn => ?_, fun low' high' eq _ => ?_⟩
    · cases mem_cons.mp isIn with
      | inl head => exact head ▸ closed.low low high registered
      | inr tail =>
        obtain ⟨b', next, rfl⟩ := map_eq_some_iff.mp (mem_toList.mp tail)
        exact closed.high low high b' registered next
    · rw [← (Interval.between.inj eq).1, ← (Interval.between.inj eq).2]
      exact registered
  | above low =>
    refine ⟨fun b isIn => ?_, nofun⟩
    have head : b = low.first := mem_singleton.mp isIn
    cases low with
    | star =>
      cases eq
      exact head ▸ registered
    | exclusive low => cases eq
    | inclusive low =>
      rw [Interval.key] at eq
      split at eq
      next whole =>
        cases eq
        have num : (low.num : ℚ) = low := Rat.den_eq_one_iff low |>.mp whole
        have first : ⌈low⌉ = low.num := by rw [← num, ceil_intCast, num]
        rw [head, Bound.first, first]
        exact registered
      next => cases eq

theorem canonicalInterval_after (inv : Inv db n cell) {interval : Interval}
    {known : List (Option Int)} (registered : Known db known)
    (upright : interval.upright known = true) :
    After db (canonicalInterval interval db).2 ∧
      interval.Registered (canonicalInterval interval db).2 := by
  unfold canonicalInterval
  cases found : interval.key.bind db.findRegisteredTag with
  | some tag =>
    obtain ⟨key, eq, lookup⟩ := bind_eq_some_iff.mp found
    exact ⟨After.refl inv, Interval.registered_of_key inv.toClosed eq
      (Database.mem_keys (Database.mem_of_lookup lookup))⟩
  | none =>
    obtain ⟨n', cell', after, -⟩ :=
      registerIntervalType_inv inv (Interval.upright_known upright registered)
    have ⟨grows, bounds, between⟩ := registerIntervalType_grows interval db
    exact ⟨⟨⟨n', cell', after⟩, grows⟩, bounds, between⟩

theorem numberMemberType_after (inv : Inv db n cell) (m : Int) :
    After db (numberMemberType m db).2 ∧ (Atom.integer m).Registered (numberMemberType m db).2 := by
  unfold numberMemberType
  cases found : db.findRegisteredTag (.between (.inclusive m) (.inclusive m)) with
  | some tag => exact ⟨After.refl inv, Database.mem_keys (Database.mem_of_lookup found)⟩
  | none =>
    have upright : (Interval.between (.inclusive m) (.inclusive m)).Upright
        fun b => .ray b ∈ db.keys := by
      intro b next
      left
      have bounds := Interval.bounds_integer m
      have next' : some b = some (m + 1) := by
        rw [Interval.bounds, next] at bounds
        exact head_eq_of_cons_eq (tail_eq_of_cons_eq bounds)
      rw [head_eq_of_cons_eq bounds, next']
      simp only [boundsLe, decide_eq_true_eq]
      omega
    obtain ⟨n', cell', after, -⟩ := registerIntervalType_inv inv upright
    obtain ⟨grows, _, between⟩ := registerIntervalType_grows
      (.between (.inclusive m) (.inclusive m)) db
    exact ⟨⟨⟨n', cell', after⟩, grows⟩, between _ _ rfl (fun star => by cases star)⟩

theorem registerMemberType_after (inv : Inv db n cell) (a : Atom) :
    After db (registerMemberType a db).2 ∧ a.Registered (registerMemberType a db).2 := by
  have symbol : (∃ serial, a.object = .symbol serial ∨ a.object = .keyword serial) →
      a.object ∉ db.objects → After db (db.simpleMemberType Key.typep a.object).2 := by
    intro kind missing
    exact ⟨⟨_, _, simpleMemberType_inv inv missing kind⟩, simpleMemberType_grows a.object⟩
  unfold registerMemberType
  cases found : db.memberTypes.lookup a.object with
  | some tag =>
    have isIn := Database.mem_objects (Database.mem_of_lookup found)
    refine ⟨After.refl inv, ?_⟩
    cases a with
    | integer m => exact absurd isIn (inv.integer_not_mem m)
    | symbol serial => exact isIn
    | keyword serial => exact isIn
  | none =>
    have missing := Database.not_mem_of_lookup found
    cases a with
    | integer m => exact numberMemberType_after inv m
    | symbol serial => exact ⟨symbol ⟨serial, .inl rfl⟩ missing, mem_cons_self⟩
    | keyword serial => exact ⟨symbol ⟨serial, .inr rfl⟩ missing, mem_cons_self⟩

theorem registerMemberTypes_after (inv : Inv db n cell) (objects : List Atom) :
    After db (registerMemberTypes objects db).2 ∧
      ∀ a ∈ objects, a.Registered (registerMemberTypes objects db).2 := by
  induction objects generalizing db n cell with
  | nil => exact ⟨After.refl inv, fun _ isIn => nomatch isIn⟩
  | cons a objects ih =>
    have ⟨first, registered⟩ := registerMemberType_after inv a
    obtain ⟨n', cell', inv'⟩ := first.inv
    have ⟨second, rest⟩ := ih inv'
    refine ⟨first.trans second, fun b isIn => ?_⟩
    cases mem_cons.mp isIn with
    | inl head => exact head ▸ registered.grows second.grows
    | inr tail => exact rest b tail

mutual

theorem canonicalType_after {known : List (Option Int)} :
    ∀ (type : Specifier) {db : TypeState} {n : Nat} {cell : Object → Nat}, Inv db n cell →
      Known db known → type.upright known = true →
      After db (canonicalType type db).2 ∧ type.Registered (canonicalType type db).2
  | .t, _, _, _, inv, _, _ => ⟨After.refl inv, trivial⟩
  | .nil, _, _, _, inv, _, _ => ⟨After.refl inv, trivial⟩
  | .name name, _, _, _, inv, _, _ => canonicalName_after inv name
  | .integer _, _, _, _, inv, registered, upright =>
    canonicalInterval_after inv registered upright
  | .member objects, _, _, _, inv, _, _ => registerMemberTypes_after inv objects
  | .and types, _, _, _, inv, registered, upright =>
    canonicalTypes_after types inv registered upright
  | .or types, _, _, _, inv, registered, upright =>
    canonicalTypes_after types inv registered upright
  | .not type, _, _, _, inv, registered, upright =>
    canonicalType_after type inv registered upright

theorem canonicalTypes_after {known : List (Option Int)} :
    ∀ (types : List Specifier) {db : TypeState} {n : Nat} {cell : Object → Nat}, Inv db n cell →
      Known db known → uprightAll known types = true →
      After db (canonicalTypes types db).2 ∧ RegisteredAll (canonicalTypes types db).2 types
  | [], _, _, _, inv, _, _ => ⟨After.refl inv, trivial⟩
  | type :: types, db, _, _, inv, registered, upright => by
      have ⟨now, later⟩ := Bool.and_eq_true_iff.mp upright
      have ⟨first, isIn⟩ := canonicalType_after type inv registered now
      obtain ⟨n', cell', inv'⟩ := first.inv
      have known := (registered.grows first.grows).append
        (Specifier.Registered.known inv'.toClosed type isIn)
      have ⟨second, rest⟩ := canonicalTypes_after types inv' known later
      exact ⟨first.trans second, Specifier.Registered.grows second.grows type isIn, rest⟩

end

theorem canonicalTypes_concat (types : List Specifier) (type : Specifier) (db : TypeState) :
    (canonicalTypes (types ++ [type]) db).2 =
    (canonicalType type (canonicalTypes types db).2).2 := by
  induction types generalizing db with
  | nil => rfl
  | cons first types ih => exact ih (canonicalType first db).2

theorem fastSubtypep_registered (inv : Inv db n cell) {t1 t2 : Specifier}
    (registered1 : t1.Registered db) (registered2 : t2.Registered db) :
    ∃ tag1 tag2, canonicalType t1 db = (tag1, db) ∧ canonicalType t2 db = (tag2, db) ∧
      (Int.ldiff tag1 tag2 = 0 ↔
        ∀ object, typep object t1 = true → typep object t2 = true) := by
  obtain ⟨tag1, eq1, denotes1⟩ := canonicalType_registered inv t1 registered1
  obtain ⟨tag2, eq2, denotes2⟩ := canonicalType_registered inv t2 registered2
  exact ⟨tag1, tag2, eq1, eq2, denotes1.ldiff_eq_zero_iff inv.cells denotes2⟩

/-- After any calls of canonical-type. No interval was inverted in them, unless the ray of its
start was known. -/
theorem fastSubtypep_exact (earlier : List Specifier) (t1 t2 : Specifier) (eq : Bool)
    (same : eq = true → t1 = t2) (upright : uprightAll [] (earlier ++ [t1, t2]) = true) :
    ∃ test, (fastSubtypep eq t1 t2 (canonicalTypes earlier .empty).2).1 = (test, true) ∧
      (test = true ↔ ∀ object, typep object t1 = true → typep object t2 = true) := by
  cases eq with
  | true =>
    refine ⟨true, rfl, ?_⟩
    rw [same rfl]
    exact ⟨fun _ _ isIn => isIn, fun _ => rfl⟩
  | false =>
    -- The tags of the first two calls may be old when the last type is registered.
    have known : Known Database.empty [] := fun _ isIn => nomatch isIn
    have ⟨after, registered⟩ :=
      canonicalTypes_after (earlier ++ [t1, t2]) inv_empty known upright
    have state : (canonicalTypes (earlier ++ [t1, t2]) .empty).2 =
        (canonicalType t2 (canonicalType t1 (canonicalTypes earlier .empty).2).2).2 := by
      rw [show earlier ++ [t1, t2] = (earlier ++ [t1]) ++ [t2] by simp,
        canonicalTypes_concat, canonicalTypes_concat]
    rw [state] at after registered
    have ⟨registered1, registered2, _⟩ := RegisteredAll.append_right earlier registered
    obtain ⟨n, cell, inv⟩ := after.inv
    obtain ⟨tag1, tag2, eq1, eq2, iff⟩ := fastSubtypep_registered inv registered1 registered2
    refine ⟨decide (Int.ldiff tag1 tag2 = 0), ?_, decide_eq_true_iff.trans iff⟩
    rw [fastSubtypep, if_neg Bool.false_ne_true]
    dsimp only
    rw [eq1]
    dsimp only
    rw [eq2]

/-- An inverted interval, after the ray of its start. -/
theorem fastSubtypep_exact_inverted :
    ∃ test, (fastSubtypep false (.integer (.between (.inclusive 5) (.inclusive 3))) .nil
        (canonicalTypes [.integer (.above (.inclusive 5))] .empty).2).1 = (test, true) ∧
      (test = true ↔ ∀ object,
        typep object (.integer (.between (.inclusive 5) (.inclusive 3))) = true →
          typep object .nil = true) :=
  fastSubtypep_exact _ _ _ false nofun (by decide +kernel)

/-- The tag of the upper ray is old when the lower one is registered, and the empty interval
gets the tag of the new ray. -/
theorem fastSubtypep_stale :
    (fastSubtypep false (.integer (.between (.inclusive 5) (.inclusive 3))) .nil .empty).1 =
        (false, true) ∧
      ∀ object, typep object (.integer (.between (.inclusive 5) (.inclusive 3))) = true →
        typep object .nil = true := by
  refine ⟨by decide +kernel, fun object isIn => ?_⟩
  cases object with
  | integer m =>
    have both := isIn
    simp only [typep, Interval.typep, inIntervalP, Interval.low, Interval.high,
      Bool.and_eq_true, Bool.not_eq_true', decide_eq_false_iff_not, not_lt] at both
    have low : (5 : ℚ) ≤ 3 := both.1.trans both.2
    norm_num at low
  | _ => cases isIn

end Ecl.Types
