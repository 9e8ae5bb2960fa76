import Ecl.Bds.Stack

namespace Ecl.Bds

open Hash List Function Option

/-- A slot saves OBJNULL exactly when no slot below it binds its symbol. -/
def Saved : List Slot → Prop
  | [] => True
  | slot :: rest => (slot.value = none ↔ ∀ other ∈ rest, other.symbol ≠ slot.symbol) ∧ Saved rest

/-- The invariant: the thread-local entries are those of the symbols on the
stack, and the saved values tell first bindings from later ones. -/
structure Exact (env : Env) : Prop where
  tabled : env.Tabled
  own_iff : ∀ s, (env.own s).isSome = true ↔ env.Bound s
  saved : Saved env.bds
  dynamic : ∀ s, env.Bound s → env.dynamic s = true

namespace Env

def above (env : Env) (index : Nat) : List Slot := env.bds.take (env.bds.length - index)

def undoneLast (s : Sym) : List Slot → Option Slot
  | [] => none
  | slot :: rest => (undoneLast s rest).or (if slot.symbol = s then some slot else none)

/-- The value a symbol will have when the stack is unwound to the index. -/
def beneath (env : Env) (index : Nat) (s : Sym) : Option Val :=
  match undoneLast s (env.above index) with
  | none => env.inner s
  | some slot => slot.value.or (env.value s)

theorem above_cons {env : Env} {slot : Slot} {rest : List Slot} (top : env.bds = slot :: rest)
    {index : Nat} (inside : index ≤ rest.length) :
    env.above index = slot :: rest.take (rest.length - index) := by
  rw [above, top, length_cons, Nat.sub_add_comm inside, take_succ_cons]

theorem above_self (env : Env) : env.above env.bds.length = [] := by
  rw [above, Nat.sub_self, take_zero]

theorem undoneLast_eq_none {s : Sym} {slots : List Slot} :
    undoneLast s slots = none ↔ ∀ slot ∈ slots, slot.symbol ≠ s := by
  induction slots with
  | nil => simp only [undoneLast, not_mem_nil, false_implies, implies_true]
  | cons slot rest ih =>
    rw [undoneLast, or_eq_none_iff, ih, forall_mem_cons, and_comm]
    simp only [ite_eq_right_iff, reduceCtorEq, imp_false, ne_eq]

theorem undoneLast_saved {s : Sym} {slots below : List Slot} (saved : Saved (slots ++ below))
    {slot : Slot} (found : undoneLast s slots = some slot)
    (bound : ∃ other ∈ below, other.symbol = s) : slot.value ≠ none := by
  induction slots with
  | nil => cases found
  | cons top rest ih =>
    rw [undoneLast] at found
    cases later : undoneLast s rest with
    | some inside =>
      rw [later, some_or, some.injEq] at found
      exact ih saved.2 (later.trans (congrArg some found))
    | none =>
      rw [later, none_or] at found
      split at found
      · rename_i here
        rw [some.injEq] at found
        subst found
        intro unsaved
        obtain ⟨other, member, same⟩ := bound
        exact saved.1.mp unsaved other (mem_append_right _ member)
          (same.trans here.symm)
      · cases found

end Env

namespace Exact

variable {env : Env}

variable {s : Sym}

theorem own_none (exact : Exact env) : env.own s = none ↔ ¬ env.Bound s := by
  rw [← exact.own_iff, Bool.not_eq_true, isSome_eq_false_iff, isNone_iff_eq_none]

theorem symbolValue (exact : Exact env) (s : Sym) : env.symbolValue s = env.inner s := by
  rw [Env.symbolValue_eq exact.tabled]
  split
  · rfl
  · rename_i flag
    have free : env.own s = none := exact.own_none.mpr fun bound => flag (exact.dynamic s bound)
    rw [Env.inner, free, getD_none]

theorem inner_of_unbound (exact : Exact env) (free : ¬ env.Bound s) :
    env.inner s = env.value s := by
  rw [Env.inner, exact.own_none.mpr free, getD_none]

/-- For a bindable symbol the hidden value is OBJNULL exactly when there is no
binding yet. -/
theorem inner_eq_none (exact : Exact env) (bindable : Bindable env s) :
    env.inner s = none ↔ ¬ env.Bound s := by
  rw [← exact.own_none, Env.inner]
  have table : env.own s = env.bindingsHash.lookup s := rfl
  unfold Bindable at bindable
  rw [← table] at bindable
  cases own : env.own s with
  | none =>
    rw [own] at bindable
    simpa only [getD_none, iff_true, isNone_iff_eq_none] using bindable
  | some value =>
    rw [own] at bindable
    simpa only [getD_some, reduceCtorEq, iff_false, ← isSome_iff_ne_none]
      using bindable

theorem bind (exact : Exact env) (bindable : Bindable env s) {after : Env}
    {value : Option Val} (binds : Env.Binds env after s value) : Exact after := by
  have bound : ∀ probe, after.Bound probe ↔ probe = s ∨ env.Bound probe := by
    intro probe
    simp only [Env.Bound, binds.bds, mem_cons, exists_eq_or_imp, eq_comm]
  refine ⟨binds.tabled, ?_, ?_, ?_⟩
  · intro probe
    rw [bound, binds.own, update_apply]
    split
    · rename_i same
      simp only [isSome_some, same, true_or]
    · rename_i other
      rw [exact.own_iff]
      simp only [other, false_or]
  · rw [binds.bds]
    refine ⟨?_, exact.saved⟩
    rw [exact.inner_eq_none bindable]
    simp only [Env.Bound, not_exists, not_and, ne_eq]
  · intro probe member
    rw [binds.dynamic, update_apply]
    split
    · rfl
    · rename_i other
      exact exact.dynamic probe (((bound probe).mp member).resolve_left other)

theorem unwind1 (exact : Exact env) (nonempty : 1 ≤ env.bds.length) :
    Exact env.bdsUnwind1 ∧ env.bdsUnwind1.bds.length + 1 = env.bds.length := by
  obtain ⟨slot, rest, top⟩ : ∃ slot rest, env.bds = slot :: rest := by
    cases stack : env.bds with
    | nil => simp only [stack, length_nil] at nonempty; omega
    | cons slot rest => exact ⟨slot, rest, rfl⟩
  have present : (env.own slot.symbol).isSome = true :=
    (exact.own_iff _).mpr ⟨slot, by rw [top]; exact mem_cons_self, rfl⟩
  obtain ⟨tabled, own, bds, _, dynamic⟩ := Env.bdsUnwind1_spec exact.tabled top present
  have saved := exact.saved
  rw [top] at saved
  have bound : ∀ probe, env.bdsUnwind1.Bound probe ↔ ∃ other ∈ rest, other.symbol = probe := by
    intro probe
    rw [Env.Bound, bds]
  have before : ∀ probe, env.Bound probe ↔
      slot.symbol = probe ∨ ∃ other ∈ rest, other.symbol = probe := by
    intro probe
    simp only [Env.Bound, top, mem_cons, exists_eq_or_imp]
  refine ⟨⟨tabled, ?_, ?_, ?_⟩, ?_⟩
  · intro probe
    rw [own, bound, update_apply]
    split
    · rename_i same
      rw [isSome_map, same]
      cases value : slot.value with
      | none =>
        simp only [isSome_none, Bool.false_eq_true, false_iff, not_exists, not_and]
        exact saved.1.mp value
      | some held =>
        simp only [isSome_some, true_iff]
        by_contra none
        have unsaved := saved.1.mpr fun other member same => none ⟨other, member, same⟩
        rw [value] at unsaved
        cases unsaved
    · rename_i other
      rw [exact.own_iff, before]
      simp only [Ne.symm other, false_or]
  · rw [bds]
    exact saved.2
  · intro probe member
    rw [dynamic]
    exact exact.dynamic probe ((before probe).mpr (Or.inr ((bound probe).mp member)))
  · rw [bds, top, length_cons]

theorem set (exact : Exact env) (s : Sym) (value : Option Val) :
    Exact (env.setSymbol s value) ∧ (env.setSymbol s value).bds = env.bds := by
  by_cases bound : env.Bound s
  · obtain ⟨tabled, own, bds, _, dynamic⟩ := Env.setSymbol_local exact.tabled
      (exact.dynamic s bound) ((exact.own_iff s).mpr bound) value
    refine ⟨⟨tabled, ?_, ?_, ?_⟩, bds⟩
    · intro probe
      rw [own, update_apply, Env.Bound, bds]
      split
      · rename_i same
        rw [same]
        exact iff_of_true rfl bound
      · exact exact.own_iff probe
    · rw [bds]
      exact exact.saved
    · intro probe member
      rw [dynamic]
      rw [Env.Bound, bds] at member
      exact exact.dynamic probe member
  · rw [Env.setSymbol_global exact.tabled (exact.own_none.mpr bound)]
    exact ⟨⟨⟨exact.tabled.sound, exact.tabled.test, exact.tabled.policy⟩, exact.own_iff,
      exact.saved, exact.dynamic⟩, rfl⟩

theorem unwindN (exact : Exact env) (n : Nat) (enough : n ≤ env.bds.length) :
    Exact (env.bdsUnwindN n) ∧ (env.bdsUnwindN n).bds.length + n = env.bds.length := by
  induction n generalizing env with
  | zero => exact ⟨exact, rfl⟩
  | succ n ih =>
    obtain ⟨next, length⟩ := exact.unwind1 (by omega)
    obtain ⟨final, total⟩ := ih next (by omega)
    exact ⟨final, by rw [Env.bdsUnwindN]; omega⟩

end Exact

theorem progv_eq_foldl (env : Env) (varsProper valuesProper : Bool) (vars : List Sym)
    (values : List Val) :
    (env.progv varsProper valuesProper vars values).1 =
      (progvBindings valuesProper vars values).foldl
        (fun env binding => env.bdsBind binding.1 binding.2) env := by
  induction vars generalizing env values with
  | nil => cases values <;> rfl
  | cons var vars ih =>
    cases values with
    | nil =>
      rw [Env.progv, progvBindings]
      split
      · rw [foldl_cons, ih]
      · rfl
    | cons value values => rw [Env.progv, progvBindings, foldl_cons, ih]

theorem Exact.bindAll {env : Env} (exact : Exact env) (bindings : List (Sym × Option Val))
    (bindable : BindableAll env bindings) :
    Exact (bindings.foldl (fun env binding => env.bdsBind binding.1 binding.2) env) := by
  induction bindings generalizing env with
  | nil => exact exact
  | cons binding rest ih =>
    rw [foldl_cons]
    exact ih (exact.bind bindable.1 (Env.bdsBind_binds exact.tabled _ _)) bindable.2

theorem Exact.step {env : Env} (exact : Exact env) (op : Op) (nested : Nested env op)
    (clean : BindsClean env op) : Exact (env.step op) := by
  cases op with
  | bind s value => exact exact.bind clean (Env.bdsBind_binds exact.tabled s value)
  | push s => exact exact.bind clean (Env.bdsPush_binds exact.tabled s)
  | progv varsProper valuesProper vars values =>
    rw [Env.step, progv_eq_foldl]
    exact exact.bindAll _ clean
  | set s value => exact (exact.set s value).1
  | unwind1 => exact (exact.unwind1 nested).1
  | unwindN n => exact (exact.unwindN n nested).1
  | unwind index => exact (exact.unwindN _ (Nat.sub_le _ _)).1
  | otherSet s value =>
    exact ⟨⟨exact.tabled.sound, exact.tabled.test, exact.tabled.policy⟩, exact.own_iff,
      exact.saved, exact.dynamic⟩
  | otherBind s =>
    refine ⟨⟨exact.tabled.sound, exact.tabled.test, exact.tabled.policy⟩, exact.own_iff,
      exact.saved, ?_⟩
    intro probe bound
    change update env.dynamic s true probe = true
    rw [update_apply]
    split
    · rfl
    · exact exact.dynamic probe bound


open Hash List Function Option

namespace Env

theorem beneath_self (env : Env) (s : Sym) : env.beneath env.bds.length s = env.inner s := by
  rw [beneath, above_self]
  rfl

variable {env : Env} {index : Nat}

theorem beneath_bind {after : Env} (exact : Exact env) {s : Sym} (bindable : Bindable env s)
    {value : Option Val} (binds : Binds env after s value)
    (inside : index ≤ env.bds.length) (probe : Sym) :
    after.beneath index probe = env.beneath index probe := by
  have slots : after.above index = ⟨s, env.inner s⟩ :: env.above index :=
    above_cons binds.bds inside
  rw [beneath, slots, undoneLast, beneath, binds.value]
  cases found : undoneLast probe (env.above index) with
  | some slot => rw [some_or]
  | none =>
    rw [none_or]
    by_cases same : s = probe
    · subst same
      simp only [↓reduceIte]
      cases hidden : env.inner s with
      | some value => rw [some_or]
      | none =>
        have free := (exact.inner_eq_none bindable).mp hidden
        rw [none_or, ← exact.inner_of_unbound free, hidden]
    · simp only [same, ↓reduceIte, inner, binds.own, binds.value,
        update_of_ne (Ne.symm same)]

theorem beneath_unwind1 (exact : Exact env) (inside : index < env.bds.length) (probe : Sym) :
    env.bdsUnwind1.beneath index probe = env.beneath index probe := by
  obtain ⟨slot, rest, top⟩ : ∃ slot rest, env.bds = slot :: rest := by
    cases stack : env.bds with
    | nil => rw [stack, length_nil] at inside; omega
    | cons slot rest => exact ⟨slot, rest, rfl⟩
  have present : (env.own slot.symbol).isSome = true :=
    (exact.own_iff _).mpr ⟨slot, by rw [top]; exact mem_cons_self, rfl⟩
  obtain ⟨_, own, bds, value, _⟩ := bdsUnwind1_spec exact.tabled top present
  have bound : index ≤ rest.length := by
    rw [top, length_cons] at inside
    omega
  have slots : env.above index = slot :: env.bdsUnwind1.above index := by
    rw [above_cons top bound, above, bds]
  rw [beneath, beneath, slots, undoneLast, value]
  cases found : undoneLast probe (env.bdsUnwind1.above index) with
  | some last => rw [some_or]
  | none =>
    rw [none_or]
    by_cases same : slot.symbol = probe
    · subst same
      simp only [↓reduceIte, inner, own, value, update_self]
      cases slot.value <;> rfl
    · simp only [same, ↓reduceIte, inner, own, value, update_of_ne (Ne.symm same)]

theorem beneath_unwindN (exact : Exact env) (n : Nat) (inside : index + n ≤ env.bds.length)
    (probe : Sym) :
    (env.bdsUnwindN n).beneath index probe = env.beneath index probe := by
  induction n generalizing env with
  | zero => rfl
  | succ n ih =>
    obtain ⟨next, length⟩ := exact.unwind1 (by omega)
    rw [bdsUnwindN, ih next (by omega), beneath_unwind1 exact (by omega)]

theorem beneath_bindAll (exact : Exact env) (bindings : List (Sym × Option Val))
    (bindable : BindableAll env bindings) (inside : index ≤ env.bds.length)
    (probe : Sym) :
    (bindings.foldl (fun env binding => env.bdsBind binding.1 binding.2) env).beneath
      index probe = env.beneath index probe := by
  induction bindings generalizing env with
  | nil => rfl
  | cons binding rest ih =>
    have binds := bdsBind_binds exact.tabled binding.1 binding.2
    have deeper : index ≤ (env.bdsBind binding.1 binding.2).bds.length := by
      rw [binds.bds, length_cons]
      omega
    rw [foldl_cons, ih (exact.bind bindable.1 binds) bindable.2 deeper,
      beneath_bind exact bindable.1 binds inside]

variable {probe : Sym}

theorem beneath_set (exact : Exact env) (s : Sym) (value : Option Val)
    (within : ¬ AssignsOutside env index probe (.set s value)) :
    (env.setSymbol s value).beneath index probe = env.beneath index probe := by
  have bds := (exact.set s value).2
  have slots : (env.setSymbol s value).above index = env.above index := by
    rw [above, above, bds]
  rw [beneath, beneath, slots]
  by_cases bound : env.Bound s
  · obtain ⟨_, own, _, global, _⟩ := setSymbol_local exact.tabled (exact.dynamic s bound)
      ((exact.own_iff s).mpr bound) value
    rw [global]
    cases found : undoneLast probe (env.above index) with
    | some slot => rfl
    | none =>
      have other : probe ≠ s := by
        rintro rfl
        exact within ⟨rfl, undoneLast_eq_none.mp found⟩
      simp only [inner, own, global, update_of_ne other]
  · have other : probe ≠ s := by
      rintro rfl
      refine within ⟨rfl, fun slot member same => bound ⟨slot, ?_, same⟩⟩
      exact mem_of_mem_take member
    rw [setSymbol_global exact.tabled (exact.own_none.mpr bound)]
    have hidden : Env.inner { env with value := update env.value s value } probe =
        env.inner probe := by
      simp only [inner, update_of_ne other]
      rfl
    simp only [update_of_ne other, hidden]

theorem beneath_otherSet (exact : Exact env) (s : Sym) (value : Option Val)
    (within : ¬ AssignsOutside env index probe (.otherSet s value)) :
    (env.step (.otherSet s value)).beneath index probe = env.beneath index probe := by
  have slots : (env.step (.otherSet s value)).above index = env.above index := rfl
  have own : (env.step (.otherSet s value)).own = env.own := rfl
  have global : (env.step (.otherSet s value)).value = update env.value s value := rfl
  rw [beneath, beneath, slots, global]
  by_cases other : probe = s
  · subst other
    obtain ⟨slot, member, same⟩ : ∃ slot ∈ env.bds.drop (env.bds.length - index),
        slot.symbol = probe := by
      by_contra none
      exact within ⟨rfl, fun slot member same => none ⟨slot, member, same⟩⟩
    cases found : undoneLast probe (env.above index) with
    | some last =>
      have saved := exact.saved
      rw [← take_append_drop (env.bds.length - index) env.bds] at saved
      have valued := undoneLast_saved saved found ⟨slot, member, same⟩
      obtain ⟨held, eq⟩ := ne_none_iff_exists'.mp valued
      simp only [eq, some_or]
    | none =>
      have bound : env.Bound probe := ⟨slot, mem_of_mem_drop member, same⟩
      obtain ⟨held, eq⟩ := isSome_iff_exists.mp ((exact.own_iff probe).mpr bound)
      simp only [inner, own, eq, getD_some]
  · rw [update_of_ne other]
    simp only [inner, own, global, update_of_ne other]

theorem beneath_step (exact : Exact env) (op : Op) (nested : Nested env op)
    (clean : BindsClean env op) (inside : index ≤ env.bds.length)
    (after : index ≤ (env.step op).bds.length)
    (within : ¬ AssignsOutside env index probe op) :
    (env.step op).beneath index probe = env.beneath index probe := by
  cases op with
  | bind s value =>
    exact beneath_bind exact clean (bdsBind_binds exact.tabled s value) inside probe
  | push s => exact beneath_bind exact clean (bdsPush_binds exact.tabled s) inside probe
  | progv varsProper valuesProper vars values =>
    rw [step, progv_eq_foldl]
    exact beneath_bindAll exact _ clean inside probe
  | set s value => exact beneath_set exact s value within
  | unwind1 =>
    have length := (exact.unwind1 nested).2
    change index ≤ env.bdsUnwind1.bds.length at after
    exact beneath_unwind1 exact (by omega) probe
  | unwindN n =>
    have length := (exact.unwindN n nested).2
    change index ≤ (env.bdsUnwindN n).bds.length at after
    exact beneath_unwindN exact n (by omega) probe
  | unwind target =>
    have length := (exact.unwindN _ (Nat.sub_le env.bds.length target)).2
    change index ≤ (env.bdsUnwindN (env.bds.length - target)).bds.length at after
    exact beneath_unwindN exact _ (by omega) probe
  | otherSet s value => exact beneath_otherSet exact s value within
  | otherBind s => rfl

end Env

theorem Exact.run {env : Env} (exact : Exact env) (ops : List Op) (nested : Along Nested env ops)
    (clean : Along BindsClean env ops) : Exact (env.run ops) := by
  induction ops generalizing env with
  | nil => exact exact
  | cons op ops ih =>
    exact ih (exact.step op nested.1 clean.1) nested.2 clean.2

theorem beneath_run {env : Env} (exact : Exact env) (ops : List Op)
    (nested : Along Nested env ops) (clean : Along BindsClean env ops) {index : Nat}
    (inside : index ≤ env.bds.length) {s : Sym} (keeps : KeepsOutside index s env ops) :
    (env.run ops).beneath index s = env.beneath index s := by
  induction ops generalizing env with
  | nil => rfl
  | cons op ops ih =>
    obtain ⟨⟨after, within⟩, later⟩ := keeps
    have next := exact.step op nested.1 clean.1
    exact (ih next nested.2 clean.2 after later).trans
      (Env.beneath_step exact op nested.1 clean.1 inside after within)

theorem fresh_exact (crowded : Nat → Nat → Bool) (address : Sym → Nat) (value : Sym → Option Val)
    (dynamic : Sym → Bool) : Exact (Env.fresh crowded address value dynamic) := by
  have sound : ((bindingsTable crowded address).emptied 1024).Sound :=
    Table.emptied_sound (eqTest_lawful address) (by decide)
  have empty : ∀ s, ((bindingsTable crowded address).emptied 1024).lookup s = none :=
    Table.emptied_lookup (eqTest_lawful address) (by decide)
  have unbound : ∀ s, ¬ (Env.fresh crowded address value dynamic).Bound s := by
    rintro s ⟨slot, member, _⟩
    cases member
  refine ⟨⟨sound, ⟨address, rfl⟩, ⟨crowded, rfl⟩⟩, ?_, trivial, ?_⟩
  · intro s
    change (((bindingsTable crowded address).emptied 1024).lookup s).isSome = true ↔ _
    rw [empty]
    exact iff_of_false Bool.false_ne_true (unbound s)
  · exact fun s bound => absurd bound (unbound s)

theorem along_append (condition : Env → Op → Prop) (env : Env) (before during : List Op) :
    Along condition env (before ++ during) ↔
      Along condition env before ∧ Along condition (env.run before) during := by
  induction before generalizing env with
  | nil => simp only [nil_append, Along, true_and, Env.run, foldl_nil]
  | cons op before ih =>
    rw [cons_append, Along, Along, ih, and_assoc]
    rfl

/-- Dynamic bindings are restored along every run whose bindings are all of
bindable symbols. -/
theorem bindings_restored (crowded : Nat → Nat → Bool) (address : Sym → Nat)
    (value : Sym → Option Val) (dynamic : Sym → Bool) (before during : List Op)
    (nested : Along Nested (Env.fresh crowded address value dynamic) (before ++ during))
    (clean : Along BindsClean (Env.fresh crowded address value dynamic) (before ++ during)) :
    Restores (Env.fresh crowded address value dynamic) before during := by
  obtain ⟨nestedBefore, nestedDuring⟩ := (along_append _ _ _ _).mp nested
  obtain ⟨cleanBefore, cleanDuring⟩ := (along_append _ _ _ _).mp clean
  have saved := (fresh_exact crowded address value dynamic).run before nestedBefore cleanBefore
  have final := saved.run during nestedDuring cleanDuring
  refine ⟨?_, final.own_iff, ?_, ?_, final.tabled.sound.counted⟩
  · intro s keeps level
    have kept := beneath_run saved during nestedDuring cleanDuring (Nat.le_refl _) keeps
    rw [Env.beneath_self, ← level, Env.beneath_self] at kept
    rw [final.symbolValue, saved.symbolValue, kept]
  · intro s free
    rw [final.symbolValue, final.inner_of_unbound free]
  · intro s value free
    exact Env.setSymbol_global final.tabled (final.own_none.mpr free) value

/-- A run with a first binding, an assignment, a rebinding and a PROGV. -/
def nestedRun : List Op :=
  [.bind (.ordinary 0) (some (.fixnum 1)), .set (.ordinary 0) (some (.fixnum 2)),
    .push (.ordinary 0), .progv true true [.ordinary 1, .ordinary 2] [.fixnum 3], .unwind 1,
    .unwindN 1]

theorem bindings_restored_nestedRun :
    Restores (Env.fresh initCrowded (fun _ => 0) (fun _ => none) fun _ => false) [] nestedRun := by
  apply bindings_restored
  · decide +kernel
  · decide +kernel

/-- A symbol with a global value keeps its thread-local entry when its only
binding is undone. -/
theorem global_binding_leaves_entry :
    ¬ Restores (Env.fresh initCrowded (fun _ => 0) (fun _ => some (.fixnum 5)) fun _ => false) []
      [.bind (.special 0) (some (.fixnum 1)), .unwind1] := by
  intro law
  have empty : (((Env.fresh initCrowded (fun _ => 0) (fun _ => some (.fixnum 5))
      fun _ => false).run []).run [.bind (.special 0) (some (.fixnum 1)),
        .unwind1]).bds.length = 0 := by decide +kernel
  obtain ⟨slot, member, _⟩ := (law.local_iff (.special 0)).mp (by decide +kernel)
  rw [length_eq_zero_iff.mp empty] at member
  exact not_mem_nil member

end Ecl.Bds
