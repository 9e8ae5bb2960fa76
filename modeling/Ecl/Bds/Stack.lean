import Ecl.Value
import Ecl.Hash.Insert

/- The binding stack of stacks.d in an ECL_THREADS build. -/
namespace Ecl.Bds

open Hash Option

/-- struct bds_bd, with OBJNULL as `none`. -/
structure Slot where
  symbol : Sym
  value : Option Val

/-- The part of cl_env and of the symbols that dynamic binding uses. The slots
from bds_org to bds_top are a list with bds_top first, so that an index into
the stack is the length of what lies below it. -/
structure Env where
  bindingsHash : Table Sym Val
  bds : List Slot
  value : Sym → Option Val
  dynamic : Sym → Bool

/-- htt_eq: the hash is the address of the symbol. -/
def eqTest (address : Sym → Nat) : Test Sym where
  same := fun a b => decide (a = b)
  hash := fun s => address s / 4

/-- The rehash size 1.5, and the test of a rehash threshold. -/
def bindingsPolicy (crowded : Nat → Nat → Bool) : Policy where
  crowded
  grow := fun size => (3 * size + 1) / 2

/-- The test of the threshold 0.75 that init gives; the tables of alloc_process have 0.7. -/
def initCrowded (entries size : Nat) : Bool := 3 * size ≤ 4 * entries

/-- The table that cl__make_hash_table gives to a new environment. -/
def bindingsTable (crowded : Nat → Nat → Bool) (address : Sym → Nat) : Table Sym Val where
  test := eqTest address
  policy := bindingsPolicy crowded
  size := 1024
  entries := 0
  data := fun _ => .blank

/-- A thread before its first binding. -/
def Env.fresh (crowded : Nat → Nat → Bool) (address : Sym → Nat) (value : Sym → Option Val)
    (dynamic : Sym → Bool) : Env where
  bindingsHash := bindingsTable crowded address
  bds := []
  value := value
  dynamic := dynamic

namespace Env

def bdsBind (env : Env) (s : Sym) (value : Option Val) : Env :=
  let i := env.bindingsHash.searchHash s
  let h := env.bindingsHash.data i
  match h.key with
  | none =>
    { env with
      bds := ⟨s, env.value s⟩ :: env.bds
      bindingsHash := env.bindingsHash.sethash s value
      dynamic := Function.update env.dynamic s true }
  | some key =>
    { env with
      bds := ⟨key, h.value⟩ :: env.bds
      bindingsHash := env.bindingsHash.store i ⟨some key, value⟩
      dynamic := Function.update env.dynamic s true }

def bdsPush (env : Env) (s : Sym) : Env :=
  let i := env.bindingsHash.searchHash s
  let h := env.bindingsHash.data i
  match h.key with
  | none =>
    { env with
      bds := ⟨s, env.value s⟩ :: env.bds
      bindingsHash := env.bindingsHash.sethash s (env.value s)
      dynamic := Function.update env.dynamic s true }
  | some key =>
    { env with
      bds := ⟨key, h.value⟩ :: env.bds
      dynamic := Function.update env.dynamic s true }

/-- ecl_bds_unwind1. On an empty stack, where the code would read below
bds_org, nothing happens. -/
def bdsUnwind1 (env : Env) : Env :=
  match env.bds with
  | [] => env
  | slot :: rest =>
    let i := env.bindingsHash.searchHash slot.symbol
    match slot.value with
    | none => { env with bds := rest, bindingsHash := env.bindingsHash.delete i .nil }
    | some value =>
      { env with
        bds := rest
        bindingsHash :=
          env.bindingsHash.store i ⟨(env.bindingsHash.data i).key, some value⟩ }

def bdsUnwindN (env : Env) : Nat → Env
  | 0 => env
  | n + 1 => bdsUnwindN env.bdsUnwind1 n

def bdsUnwind (env : Env) (index : Nat) : Env :=
  env.bdsUnwindN (env.bds.length - index)

/-- What ecl_symbol_slot points to. -/
def symbolValue (env : Env) (s : Sym) : Option Val :=
  if env.dynamic s then
    let h := env.bindingsHash.data (env.bindingsHash.searchHash s)
    match h.key with
    | none => env.value s
    | some _ => h.value
  else env.value s

def setSymbol (env : Env) (s : Sym) (value : Option Val) : Env :=
  if env.dynamic s then
    let i := env.bindingsHash.searchHash s
    match (env.bindingsHash.data i).key with
    | none => { env with value := Function.update env.value s value }
    | some key => { env with bindingsHash := env.bindingsHash.store i ⟨some key, value⟩ }
  else { env with value := Function.update env.value s value }

/-- The loop of ecl_progv. A list that ends in an atom other than NIL is not
`proper`; the result tells whether the loop returned or ran into such an atom,
where the code signals an error with the bindings made so far in place. -/
def progv (env : Env) (varsProper valuesProper : Bool) : List Sym → List Val → Env × Bool
  | [], [] => (env, varsProper && valuesProper)
  | [], _ :: _ => (env, varsProper)
  | var :: vars, [] =>
    if valuesProper then progv (env.bdsBind var none) varsProper valuesProper vars []
    else (env, false)
  | var :: vars, value :: values =>
    progv (env.bdsBind var (some value)) varsProper valuesProper vars values

end Env

/-- What can happen to the bindings of a thread. The last two are done by
other threads: an assignment to the global value, and a binding of their own. -/
inductive Op where
  | bind (s : Sym) (value : Option Val)
  | push (s : Sym)
  | progv (varsProper valuesProper : Bool) (vars : List Sym) (values : List Val)
  | set (s : Sym) (value : Option Val)
  | unwind1
  | unwindN (n : Nat)
  | unwind (index : Nat)
  | otherSet (s : Sym) (value : Option Val)
  | otherBind (s : Sym)

def Env.step (env : Env) : Op → Env
  | .bind s value => env.bdsBind s value
  | .push s => env.bdsPush s
  | .progv varsProper valuesProper vars values =>
    (env.progv varsProper valuesProper vars values).1
  | .set s value => env.setSymbol s value
  | .unwind1 => env.bdsUnwind1
  | .unwindN n => env.bdsUnwindN n
  | .unwind index => env.bdsUnwind index
  | .otherSet s value => { env with value := Function.update env.value s value }
  | .otherBind s => { env with dynamic := Function.update env.dynamic s true }

def Env.run (env : Env) (ops : List Op) : Env := ops.foldl Env.step env

/-- No unwinding reaches below the bottom of the stack. -/
def Nested (env : Env) : Op → Prop
  | .unwind1 => 1 ≤ env.bds.length
  | .unwindN n => n ≤ env.bds.length
  | .unwind index => index ≤ env.bds.length
  | _ => True

instance (env : Env) : (op : Op) → Decidable (Nested env op)
  | .unwind1 | .unwindN _ | .unwind _ => inferInstanceAs (Decidable (_ ≤ _))
  | .bind .. | .push _ | .progv .. | .set .. | .otherSet .. | .otherBind _ => isTrue trivial

def Env.Bound (env : Env) (s : Sym) : Prop := ∃ slot ∈ env.bds, slot.symbol = s

/-- An operation that assigns the binding of a symbol that was visible when
the index was saved, not one made above the index. -/
def AssignsOutside (env : Env) (index : Nat) (s : Sym) : Op → Prop
  | .set other _ => other = s ∧ ∀ slot ∈ env.bds.take (env.bds.length - index), slot.symbol ≠ s
  | .otherSet other _ => other = s ∧ ∀ slot ∈ env.bds.drop (env.bds.length - index), slot.symbol ≠ s
  | _ => False

/-- Every operation of a run, in the state it finds, satisfies a condition. -/
def Along (condition : Env → Op → Prop) : Env → List Op → Prop
  | _, [] => True
  | env, op :: ops => condition env op ∧ Along condition (env.step op) ops

instance (condition : Env → Op → Prop) [∀ env op, Decidable (condition env op)] (env : Env) :
    (ops : List Op) → Decidable (Along condition env ops)
  | [] => isTrue trivial
  | op :: ops =>
    have := instDecidableAlong condition (env.step op) ops
    inferInstanceAs (Decidable (condition env op ∧ Along condition (env.step op) ops))

/-- The run never goes below the index and does not assign the symbol outside
of the region above it. -/
def KeepsOutside (index : Nat) (s : Sym) : Env → List Op → Prop :=
  Along fun env op => index ≤ (env.step op).bds.length ∧ ¬ AssignsOutside env index s op

/-- The law of dynamic binding, for a stack index saved after `before` and the
state reached after `during`. -/
structure Restores (start : Env) (before during : List Op) : Prop where
  visible : ∀ s, KeepsOutside (start.run before).bds.length s (start.run before) during →
    ((start.run before).run during).bds.length = (start.run before).bds.length →
    ((start.run before).run during).symbolValue s = (start.run before).symbolValue s
  local_iff : ∀ s, (((start.run before).run during).bindingsHash.lookup s).isSome = true ↔
    ((start.run before).run during).Bound s
  reads_global : ∀ s, ¬ ((start.run before).run during).Bound s →
    ((start.run before).run during).symbolValue s = ((start.run before).run during).value s
  writes_global : ∀ s value, ¬ ((start.run before).run during).Bound s →
    ((start.run before).run during).setSymbol s value =
      { (start.run before).run during with
        value := Function.update ((start.run before).run during).value s value }
  counted : ((start.run before).run during).bindingsHash.entries =
    ((start.run before).run during).bindingsHash.liveCount

/-- A binding of the symbol saves OBJNULL exactly when it is the first one: the
symbol has neither a local nor a global value, or it has a local value that is
not OBJNULL. -/
def Bindable (env : Env) (s : Sym) : Prop :=
  (match env.bindingsHash.lookup s with
  | none => (env.value s).isNone
  | some value => value.isSome) = true

instance (env : Env) (s : Sym) : Decidable (Bindable env s) :=
  inferInstanceAs (Decidable (_ = true))

/-- The bindings that ecl_progv makes, until the values run into an atom. -/
def progvBindings (valuesProper : Bool) : List Sym → List Val → List (Sym × Option Val)
  | [], _ => []
  | var :: vars, [] =>
    if valuesProper then (var, none) :: progvBindings valuesProper vars [] else []
  | var :: vars, value :: values => (var, some value) :: progvBindings valuesProper vars values

/-- Each of a list of bindings, made in turn, is of a bindable symbol. -/
def BindableAll : Env → List (Sym × Option Val) → Prop
  | _, [] => True
  | env, (s, value) :: rest => Bindable env s ∧ BindableAll (env.bdsBind s value) rest

instance (env : Env) : (bindings : List (Sym × Option Val)) → Decidable (BindableAll env bindings)
  | [] => isTrue trivial
  | (s, value) :: rest =>
    have := instDecidableBindableAll (env.bdsBind s value) rest
    inferInstanceAs (Decidable (Bindable env s ∧ BindableAll (env.bdsBind s value) rest))

/-- Every binding that the operation makes is of a bindable symbol. -/
def BindsClean (env : Env) : Op → Prop
  | .bind s _ => Bindable env s
  | .push s => Bindable env s
  | .progv _ valuesProper vars values => BindableAll env (progvBindings valuesProper vars values)
  | _ => True

instance (env : Env) : (op : Op) → Decidable (BindsClean env op)
  | .bind s _ | .push s => inferInstanceAs (Decidable (Bindable env s))
  | .progv _ valuesProper vars values =>
    inferInstanceAs (Decidable (BindableAll env (progvBindings valuesProper vars values)))
  | .set .. | .unwind1 | .unwindN _ | .unwind _ | .otherSet .. | .otherBind _ => isTrue trivial


open Hash Function

theorem eqTest_lawful (address : Sym → Nat) : (eqTest address).Lawful where
  refl := fun key => decide_eq_true rfl
  symm := fun same => decide_eq_true (of_decide_eq_true same).symm
  trans := fun first second =>
    decide_eq_true ((of_decide_eq_true first).trans (of_decide_eq_true second))
  hash_eq := fun same => by rw [of_decide_eq_true same]

namespace Env

/-- The thread-local entry of a symbol. -/
def own (env : Env) (s : Sym) : Option (Option Val) := env.bindingsHash.lookup s

/-- The value a new binding of the symbol hides. -/
def inner (env : Env) (s : Sym) : Option Val := (env.own s).getD (env.value s)

/-- The table is one that init made and that only sound operations changed. -/
structure Tabled (env : Env) : Prop where
  sound : env.bindingsHash.Sound
  test : ∃ address, env.bindingsHash.test = eqTest address
  policy : ∃ crowded, env.bindingsHash.policy = bindingsPolicy crowded

namespace Tabled

variable {env : Env}

theorem same_iff (tabled : env.Tabled) {a b : Sym} :
    env.bindingsHash.test.same a b = true ↔ a = b := by
  obtain ⟨address, test⟩ := tabled.test
  rw [test]
  exact decide_eq_true_iff

theorem larger (tabled : env.Tabled) :
    env.bindingsHash.size < env.bindingsHash.policy.grow env.bindingsHash.size := by
  have positive := tabled.sound.positive
  obtain ⟨crowded, policy⟩ := tabled.policy
  rw [policy]
  change _ < (3 * env.bindingsHash.size + 1) / 2
  omega

theorem search (tabled : env.Tabled) (s : Sym) :
    env.bindingsHash.searchHash s < env.bindingsHash.size ∧
      (((env.bindingsHash.data (env.bindingsHash.searchHash s)).key = none ∧ env.own s = none) ∨
        ((env.bindingsHash.data (env.bindingsHash.searchHash s)).key = some s ∧
          env.own s = some (env.bindingsHash.data (env.bindingsHash.searchHash s)).value)) := by
  obtain ⟨inside, ⟨_, key, present, same⟩ | ⟨keyless, _⟩⟩ :=
    Table.searchHash_spec tabled.sound s
  · refine ⟨inside, Or.inr ⟨?_, ?_⟩⟩
    · rw [present, tabled.same_iff.mp same]
    · rw [own, Table.lookup, present]
  · refine ⟨inside, Or.inl ⟨keyless, ?_⟩⟩
    rw [own, Table.lookup, keyless]

end Tabled

variable {env after : Env} {s : Sym}

theorem Tabled.overwrite (tabled : env.Tabled)
    (present : (env.bindingsHash.data (env.bindingsHash.searchHash s)).key = some s)
    (value : Option Val)
    (table : after.bindingsHash =
      env.bindingsHash.store (env.bindingsHash.searchHash s) ⟨some s, value⟩) :
    after.Tabled ∧ after.own = update env.own s (some value) := by
  have inside := (tabled.search s).1
  constructor
  · refine ⟨?_, ?_, ?_⟩
    · rw [table]
      exact Table.overwrite_sound tabled.sound inside present value
    · rw [table]
      exact tabled.test
    · rw [table]
      exact tabled.policy
  · funext probe
    rw [own, table, Table.overwrite_lookup tabled.sound inside present
      (tabled.sound.lawful.refl s), update_apply]
    simp only [tabled.same_iff]
    rfl

theorem Tabled.sethash (tabled : env.Tabled) (s : Sym) (value : Option Val)
    (table : after.bindingsHash = env.bindingsHash.sethash s value) :
    after.Tabled ∧ after.own = update env.own s (some value) := by
  obtain ⟨sound, test, policy, _, lookup⟩ :=
    Table.sethash_spec tabled.sound tabled.larger s value
  constructor
  · refine ⟨?_, ?_, ?_⟩
    · rw [table]
      exact sound
    · rw [table, test]
      exact tabled.test
    · rw [table, policy]
      exact tabled.policy
  · funext probe
    rw [own, table, lookup, update_apply]
    simp only [tabled.same_iff]
    rfl

theorem Tabled.delete (tabled : env.Tabled)
    (present : (env.bindingsHash.data (env.bindingsHash.searchHash s)).key = some s)
    (table : after.bindingsHash =
      env.bindingsHash.delete (env.bindingsHash.searchHash s) .nil) :
    after.Tabled ∧ after.own = update env.own s none := by
  have inside := (tabled.search s).1
  constructor
  · refine ⟨?_, ?_, ?_⟩
    · rw [table]
      exact Table.delete_sound tabled.sound inside present .nil
    · rw [table]
      exact tabled.test
    · rw [table]
      exact tabled.policy
  · funext probe
    rw [own, table, Table.delete_lookup tabled.sound inside present
      (tabled.sound.lawful.refl s), update_apply]
    simp only [tabled.same_iff]
    rfl

/-- The state after a binding, in terms of the thread-local entries. -/
structure Binds (env after : Env) (s : Sym) (value : Option Val) : Prop where
  tabled : after.Tabled
  own : after.own = Function.update env.own s (some value)
  bds : after.bds = ⟨s, env.inner s⟩ :: env.bds
  value : after.value = env.value
  dynamic : after.dynamic = Function.update env.dynamic s true

theorem bdsBind_binds (tabled : env.Tabled) (s : Sym) (value : Option Val) :
    Binds env (env.bdsBind s value) s value := by
  rcases (tabled.search s).2 with ⟨keyless, absent⟩ | ⟨present, held⟩
  · have shape : env.bdsBind s value =
        { env with
          bds := ⟨s, env.value s⟩ :: env.bds
          bindingsHash := env.bindingsHash.sethash s value
          dynamic := update env.dynamic s true } := by
      simp only [bdsBind, keyless]
    have table := tabled.sethash s value (congrArg Env.bindingsHash shape)
    refine ⟨table.1, table.2, ?_, ?_, ?_⟩
    · rw [shape, inner, absent]
      rfl
    · rw [shape]
    · rw [shape]
  · have shape : env.bdsBind s value =
        { env with
          bds := ⟨s, (env.bindingsHash.data (env.bindingsHash.searchHash s)).value⟩ :: env.bds
          bindingsHash :=
            env.bindingsHash.store (env.bindingsHash.searchHash s) ⟨some s, value⟩
          dynamic := update env.dynamic s true } := by
      simp only [bdsBind, present]
    have table := tabled.overwrite present value (congrArg Env.bindingsHash shape)
    refine ⟨table.1, table.2, ?_, ?_, ?_⟩
    · rw [shape, inner, held]
      rfl
    · rw [shape]
    · rw [shape]

theorem bdsPush_binds (tabled : env.Tabled) (s : Sym) :
    Binds env (env.bdsPush s) s (env.inner s) := by
  rcases (tabled.search s).2 with ⟨keyless, absent⟩ | ⟨present, held⟩
  · have shape : env.bdsPush s =
        { env with
          bds := ⟨s, env.value s⟩ :: env.bds
          bindingsHash := env.bindingsHash.sethash s (env.value s)
          dynamic := update env.dynamic s true } := by
      simp only [bdsPush, keyless]
    have hidden : env.inner s = env.value s := by
      rw [inner, absent]
      rfl
    have table := tabled.sethash s (env.value s) (congrArg Env.bindingsHash shape)
    refine ⟨table.1, ?_, ?_, ?_, ?_⟩
    · rw [table.2, hidden]
    · rw [shape, hidden]
    · rw [shape]
    · rw [shape]
  · have shape : env.bdsPush s =
        { env with
          bds := ⟨s, (env.bindingsHash.data (env.bindingsHash.searchHash s)).value⟩ :: env.bds
          dynamic := update env.dynamic s true } := by
      simp only [bdsPush, present]
    have hidden : env.inner s =
        (env.bindingsHash.data (env.bindingsHash.searchHash s)).value := by
      rw [inner, held]
      rfl
    refine ⟨?_, ?_, ?_, ?_, ?_⟩
    · rw [shape]
      exact ⟨tabled.sound, tabled.test, tabled.policy⟩
    · rw [hidden, ← held, update_eq_self, shape]
      rfl
    · rw [shape, hidden]
    · rw [shape]
    · rw [shape]

theorem bdsUnwind1_spec (tabled : env.Tabled) {slot : Slot} {rest : List Slot}
    (top : env.bds = slot :: rest) (present : (env.own slot.symbol).isSome = true) :
    env.bdsUnwind1.Tabled ∧
      env.bdsUnwind1.own = update env.own slot.symbol (slot.value.map some) ∧
      env.bdsUnwind1.bds = rest ∧ env.bdsUnwind1.value = env.value ∧
      env.bdsUnwind1.dynamic = env.dynamic := by
  rcases (tabled.search slot.symbol).2 with ⟨_, absent⟩ | ⟨key, _⟩
  · rw [absent] at present
    cases present
  · cases saved : slot.value with
    | none =>
      have shape : env.bdsUnwind1 =
          { env with
            bds := rest
            bindingsHash :=
              env.bindingsHash.delete (env.bindingsHash.searchHash slot.symbol) .nil } := by
        simp only [bdsUnwind1, top, saved]
      have table := tabled.delete key (congrArg Env.bindingsHash shape)
      refine ⟨table.1, table.2, ?_, ?_, ?_⟩ <;> rw [shape]
    | some value =>
      have shape : env.bdsUnwind1 =
          { env with
            bds := rest
            bindingsHash := env.bindingsHash.store
              (env.bindingsHash.searchHash slot.symbol) ⟨some slot.symbol, some value⟩ } := by
        simp only [bdsUnwind1, top, saved, key]
      have table := tabled.overwrite key (some value) (congrArg Env.bindingsHash shape)
      refine ⟨table.1, table.2, ?_, ?_, ?_⟩ <;> rw [shape]

theorem symbolValue_eq (tabled : env.Tabled) (s : Sym) :
    env.symbolValue s = if env.dynamic s then env.inner s else env.value s := by
  rw [symbolValue]
  split
  · rcases (tabled.search s).2 with ⟨keyless, absent⟩ | ⟨present, held⟩
    · simp only [keyless, inner, absent, getD_none]
    · simp only [present, inner, held, getD_some]
  · rfl

theorem setSymbol_local (tabled : env.Tabled) (flag : env.dynamic s = true)
    (present : (env.own s).isSome = true) (value : Option Val) :
    (env.setSymbol s value).Tabled ∧
      (env.setSymbol s value).own = update env.own s (some value) ∧
      (env.setSymbol s value).bds = env.bds ∧ (env.setSymbol s value).value = env.value ∧
      (env.setSymbol s value).dynamic = env.dynamic := by
  rcases (tabled.search s).2 with ⟨_, absent⟩ | ⟨key, _⟩
  · rw [absent] at present
    cases present
  · have shape : env.setSymbol s value =
        { env with
          bindingsHash :=
            env.bindingsHash.store (env.bindingsHash.searchHash s) ⟨some s, value⟩ } := by
      simp only [setSymbol, flag, key, ↓reduceIte]
    have table := tabled.overwrite key value (congrArg Env.bindingsHash shape)
    refine ⟨table.1, table.2, ?_, ?_, ?_⟩ <;> rw [shape]

theorem setSymbol_global (tabled : env.Tabled) (absent : env.own s = none) (value : Option Val) :
    env.setSymbol s value = { env with value := update env.value s value } := by
  rw [setSymbol]
  split
  · rcases (tabled.search s).2 with ⟨keyless, _⟩ | ⟨_, held⟩
    · simp only [keyless]
    · rw [absent] at held
      cases held
  · rfl

end Env

end Ecl.Bds
