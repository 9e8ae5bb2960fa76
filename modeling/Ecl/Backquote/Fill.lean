import Ecl.Backquote.Clear

/- To fill in the commas of a template and to expand the templates inside of it is the same in
either order. -/
namespace Ecl.Backquote

variable {σ ε : Type}

theorem bind_apply {α β : Type} (m : Run σ ε α) (k : α → Run σ ε β) (s : σ) :
    (m >>= k) s = match m s with
      | (.ok a, s) => k a s
      | (.error e, s) => (.error e, s) := by
  change ExceptT.bindCont k (m s).1 (m s).2 = _
  rcases m s with ⟨_ | a, s'⟩ <;> rfl

theorem map_apply {α β : Type} (f : α → β) (m : Run σ ε α) (s : σ) :
    (f <$> m) s = match m s with
      | (.ok a, s) => (.ok (f a), s)
      | (.error e, s) => (.error e, s) := by
  rw [map_eq_pure_bind, bind_apply]
  rfl

namespace Part

variable {α β γ δ : Type}

@[simp] theorem map_constant (f : α → β) (a : α) :
    (constant a : Part σ ε α).map f = .constant (f a) := rfl

@[simp] theorem map₂_constant (f : α → β → γ) (a : α) (b : β) :
    map₂ f (constant a : Part σ ε α) (constant b) = .constant (f a b) := rfl

@[simp] theorem map_map (f : α → β) (g : β → γ) (p : Part σ ε α) :
    (p.map f).map g = p.map fun a => g (f a) := by
  cases p with
  | constant a => rfl
  | run m => simp [map]

theorem value_map₂ (f : α → β → γ) (p : Part σ ε α) (q : Part σ ε β) :
    (map₂ f p q).value = do
      let a ← p.value
      let b ← q.value
      return f a b := by
  cases p <;> cases q <;> simp [map₂, value]

theorem map₂_run (f : α → β → γ) (p : Part σ ε α) (m : Run σ ε β) :
    ∃ m', map₂ f p (.run m) = .run m' := by
  cases p <;> exact ⟨_, rfl⟩

theorem map_id (p : Part σ ε α) : (p.map fun a => a) = p := by
  cases p with
  | constant a => rfl
  | run m => simp [map]

@[simp] theorem map_map₂ (f : α → β → γ) (g : γ → δ) (p : Part σ ε α) (q : Part σ ε β) :
    (map₂ f p q).map g = map₂ (fun a b => g (f a b)) p q := by
  cases p <;> cases q <;> simp [map, map₂, value]

@[simp] theorem map₂_map_left (f : β → γ → δ) (g : α → β) (p : Part σ ε α) (q : Part σ ε γ) :
    map₂ f (p.map g) q = map₂ (fun a => f (g a)) p q := by
  cases p <;> cases q <;> simp [map, map₂, value]

@[simp] theorem map₂_map_right (f : α → γ → δ) (g : β → γ) (p : Part σ ε α) (q : Part σ ε β) :
    map₂ f p (q.map g) = map₂ (fun a b => f a (g b)) p q := by
  cases p <;> cases q <;> simp [map, map₂, value]

theorem map₂_constant_right (f : α → β → γ) (p : Part σ ε α) (b : β) :
    map₂ f p (.constant b) = p.map fun a => f a b := by
  cases p <;> simp [map, map₂, value]

theorem map₂_constant_left (f : α → β → γ) (a : α) (q : Part σ ε β) :
    map₂ f (.constant a) q = q.map (f a) := by
  cases q <;> simp [map, map₂, value]

theorem map₂_assoc {ζ η : Type} {f : δ → γ → ζ} {g : α → β → δ} {f' : α → η → ζ} {g' : β → γ → η}
    (same : ∀ a b c, f (g a b) c = f' a (g' b c)) (p : Part σ ε α) (q : Part σ ε β)
    (r : Part σ ε γ) : map₂ f (map₂ g p q) r = map₂ f' p (map₂ g' q r) := by
  have whole : ∀ a b, f (g a b) = fun c => f' a (g' b c) := fun a b => funext (same a b)
  cases p <;> cases q <;> cases r <;> simp [map₂, value, whole]

theorem map_eq_constant {f : α → β} {p : Part σ ε α} {b : β} (same : p.map f = .constant b) :
    ∃ a, p = .constant a ∧ f a = b := by
  cases p with
  | constant a => exact ⟨a, rfl, Part.constant.inj same⟩
  | run m => cases same

theorem map₂_eq_constant {f : α → β → γ} {p : Part σ ε α} {q : Part σ ε β} {c : γ}
    (same : map₂ f p q = .constant c) : ∃ a b, p = .constant a ∧ q = .constant b ∧ f a b = c := by
  cases p with
  | constant a =>
    cases q with
    | constant b => exact ⟨a, b, rfl, rfl, Part.constant.inj same⟩
    | run m => cases same
  | run m => cases q <;> cases same

/-- Where all results are of one kind, a function is free on the results of other kinds. -/
theorem map_congr {f g : α → Kind × β} {p : Part σ ε α} {q : Part σ ε β} {k : Kind}
    (kind : p.map f = q.map (Prod.mk k)) (same : ∀ a, (f a).1 = k → g a = f a) :
    p.map g = p.map f := by
  cases p with
  | constant a =>
    obtain ⟨b, -, own⟩ := map_eq_constant kind.symm
    exact congrArg constant (same a (by rw [← own]))
  | run m =>
    cases q with
    | constant b => cases kind
    | run m' =>
      refine congrArg run (funext fun s => ?_)
      have reached : (f <$> m) s = (Prod.mk k <$> m') s := congrFun (Part.run.inj kind) s
      rw [map_apply, map_apply] at reached
      rw [map_apply, map_apply]
      rcases result : m s with ⟨e | a, s'⟩
      · rfl
      · rcases result' : m' s with ⟨e | b, s''⟩
        · rw [result, result'] at reached
          cases reached
        · rw [result, result'] at reached
          have own : f a = (k, b) := Except.ok.inj (Prod.mk.inj reached).1
          exact congrArg (fun r => (Except.ok r, s')) (same a (by rw [own]))

theorem value_map (f : α → β) (p : Part σ ε α) : (p.map f).value = f <$> p.value := by
  cases p <;> simp [map, value]

/-- What holds of all results. -/
def Always (holds : α → Prop) (p : Part σ ε α) : Prop :=
  ∀ s a s', p.value s = (.ok a, s') → holds a

variable {p : Part σ ε α} {q : Part σ ε β}

theorem always_constant {holds : α → Prop} {a : α} (own : holds a) :
    (constant a : Part σ ε α).Always holds := by
  intro s b s' result
  cases result
  exact own

theorem Always.mono {holds holds' : α → Prop} (always : p.Always holds)
    (weaker : ∀ a, holds a → holds' a) : p.Always holds' :=
  fun s a s' result => weaker a (always s a s' result)

theorem Always.map {f : α → β} {holds : β → Prop} (always : p.Always fun a => holds (f a)) :
    (p.map f).Always holds := by
  intro s b s' result
  rw [value_map, map_apply] at result
  rcases own : p.value s with ⟨e | a, s''⟩
  · rw [own] at result
    cases result
  · rw [own] at result
    cases result
    exact always s a _ own

theorem Always.map₂ {f : α → β → γ} {first : α → Prop} {second : β → Prop} {holds : γ → Prop}
    (left : p.Always first) (right : q.Always second)
    (both : ∀ a b, first a → second b → holds (f a b)) : (Part.map₂ f p q).Always holds := by
  intro s c s' result
  rw [value_map₂, bind_apply] at result
  rcases own : p.value s with ⟨e | a, s₁⟩
  · rw [own] at result
    cases result
  · rw [own] at result
    change (q.value >>= fun b => pure (f a b)) s₁ = _ at result
    rw [bind_apply] at result
    rcases own' : q.value s₁ with ⟨e | b, s₂⟩
    · rw [own'] at result
      cases result
    · rw [own'] at result
      cases result
      exact both a b (left s a s₁ own) (right s₁ b _ own')

end Part

namespace Template

variable {user : Obj → Run σ ε Obj} {level : Nat}

variable (user) in
/-- The values of a row of elements. -/
def readAll (level : Nat) : List Template → Part σ ε (List Template)
  | [] => .constant []
  | t :: ts => .map₂ (· ++ ·) (t.read user level) (readAll level ts)

theorem readAll_append (ts us : List Template) :
    readAll user level (ts ++ us) =
      .map₂ (· ++ ·) (readAll user level ts) (readAll user level us) := by
  induction ts with
  | nil =>
    rw [List.nil_append, readAll, Part.map₂_constant_left]
    exact (Part.map_id _).symm
  | cons t ts ih =>
    rw [List.cons_append, readAll, ih, readAll, Part.map₂_assoc]
    exact fun a b c => List.append_assoc a b c

theorem readAll_singleton (t : Template) : readAll user level [t] = t.read user level := by
  simp only [readAll, Part.map₂_constant_right, List.append_nil, Part.map_id]

theorem read_list (ts : List Template) : (list ts).read user level =
    (readAll user level ts).map fun values => [list values] := by
  induction ts with
  | nil => rfl
  | cons t ts ih =>
    change Part.map₂ _ (t.read user level) ((list ts).read user level) = _
    rw [ih, readAll, Part.map_map₂, Part.map₂_map_right]
    congr
    funext values rest
    simp [before]

theorem read_list1 (t : Template) : (list1 t).read user level =
    (t.read user level).map fun values => [list values] := by
  rw [show list1 t = list [t] from rfl, read_list, readAll_singleton]

theorem readAll_call (k : Kind) (ts : List Template) : readAll user level [call k ts] =
    (readAll user level ts).map fun values => [call k values] := by
  rw [readAll_singleton, call, read, read, read_list, Part.map₂_constant_left, Part.map_map]
  rfl

theorem read_constant {t : Template} : ∀ {level : Nat} {values : List Template},
    t.read user level = .constant values → values = [t] := by
  induction t with
  | atom a plain => exact fun same => (Part.constant.inj same).symm
  | form x => exact fun same => (Part.constant.inj same).symm
  | cons car cdr ihCar ihCdr =>
    intro level values same
    obtain ⟨a, b, first, rest, rfl⟩ := Part.map₂_eq_constant same
    rw [ihCar first, ihCdr rest]
    rfl
  | quasi y ih =>
    intro level values same
    obtain ⟨a, inner, rfl⟩ := Part.map_eq_constant same
    rw [ih inner]
    rfl
  | unquote forms ih =>
    intro level values same
    cases level with
    | zero => cases same
    | succ level =>
      obtain ⟨a, inner, rfl⟩ := Part.map_eq_constant same
      rw [ih inner]
      rfl
  | splice k forms ih =>
    intro level values same
    cases level with
    | zero => cases same
    | succ level =>
      obtain ⟨a, inner, rfl⟩ := Part.map_eq_constant same
      rw [ih inner]
      rfl

variable (user) in
/-- A template with the commas of the outermost backquote around it filled in. -/
def fill (level : Nat) (t : Template) : Part σ ε Template :=
  (t.read user (level + 1)).map fun values => values.headD nil

/-- There is one value in the place. -/
def One (p : Part σ ε (List Template)) : Prop :=
  p = p.map fun values => [values.headD nil]

theorem one_map {α : Type} (f : α → Template) (p : Part σ ε α) : One (p.map fun a => [f a]) := by
  rw [One, Part.map_map]
  rfl

theorem One.map {p : Part σ ε (List Template)} (one : One p) (f : Template → Template) :
    One (p.map (List.map f)) := by
  rw [one, Part.map_map]
  exact one_map _ p

variable {fromReader : Prop} {t : Template}

theorem evalArgs_single (f : Obj) :
    evalArgs user (.list1 f) = (fun v => [v]) <$> eval user f := by
  rw [evalArgs, evalArgs, if_pos rfl]
  simp

theorem Clear.one_value {t : Template} : ∀ {level : Nat} {place : Place},
    t.Clear fromReader level place →
      level ≠ 0 ∨ place = .element .single ∨ place = .tail →
      One (t.read user level) := by
  have behind {forms : Template} {slot : Slot} {level : Nat} (f : Template → Template)
      (clear : forms.Clear fromReader level (.forms slot)) :
      One ((forms.read user level).map (List.map f)) := by
    obtain ⟨g, rfl, -⟩ := clear_forms.mp clear
    rw [read_list1, Part.map_map]
    exact one_map (fun values => f (list values)) _
  induction t with
  | atom a plain => exact fun _ _ => rfl
  | form x => exact fun _ _ => rfl
  | cons car cdr _ ihCdr =>
    intro level place clear inside
    have rest : One (cdr.read user level) := by
      cases place with
      | element slot => exact ihCdr clear.2 (.inr (.inr rfl))
      | tail => exact ihCdr clear.2 (.inr (.inr rfl))
      | forms slot =>
        rw [isNil_iff.mp clear.1]
        rfl
    rw [read, rest, Part.map₂_map_right, One, Part.map_map₂]
    rfl
  | quasi y ih =>
    intro level place clear _
    have inner : One (y.read user (level + 1)) := ih clear.2 (.inl (Nat.succ_ne_zero _))
    exact inner.map .quasi
  | unquote forms _ =>
    intro level place ⟨slot, own, fit⟩ inside
    cases level with
    | succ level => exact behind .unquote fit
    | zero =>
      have single : slot = .single := by
        rcases inside with never | rfl | rfl
        · exact absurd rfl never
        · exact (Option.some.inj own).symm
        · exact (Option.some.inj own).symm
      obtain ⟨ts, rfl, few⟩ := fit
      obtain ⟨f, rfl⟩ := List.length_eq_one_iff.mp (few (.inl single))
      have whole : ((list [f]).unquote).read user 0 =
          (Part.run (eval user f.object)).map fun v => [form v] := by
        rw [read, show (list [f]).object = .list1 f.object from rfl, evalArgs_single]
        simp [Part.map]
      rw [whole]
      exact one_map form _
  | splice k forms _ =>
    intro level place ⟨slot, own, fit⟩ inside
    cases level with
    | succ level => exact behind (.splice k) fit
    | zero =>
      rcases inside with never | rfl | rfl
      · exact absurd rfl never
      · cases own
      · cases own

theorem Clear.read_succ {place : Place} (clear : t.Clear fromReader (level + 1) place) :
    t.read user (level + 1) = (t.fill user level).map fun t => [t] := by
  rw [fill, Part.map_map]
  exact clear.one_value (.inl (Nat.succ_ne_zero _))

theorem One.length {p : Part σ ε (List Template)} (one : One p) :
    p.Always fun values => values.length = 1 := by
  rw [one]
  exact Part.Always.map fun _ _ _ _ => rfl

/-- With the commas of the outermost backquote filled in, a template is clear for the others. -/
theorem Clear.filled {t : Template} : ∀ {level : Nat} {place : Place},
    t.Clear fromReader (level + 1) place → (t.read user (level + 1)).Always fun values =>
      ∃ t', values = [t'] ∧ t'.isNil = t.isNil ∧ t'.Clear False level place := by
  -- What is filled in behind a comma is one form where there is room for one.
  have behind {forms : Template} {level : Nat} {slot : Slot} {own : Template → Template}
      (holds : Template → Prop)
      (inside : ∀ {level place}, forms.Clear fromReader (level + 1) place →
        (forms.read user (level + 1)).Always fun values =>
          ∃ t', values = [t'] ∧ t'.isNil = forms.isNil ∧ t'.Clear False level place)
      (clear : forms.Clear fromReader level (.forms slot))
      (outermost : level = 0 → ∀ forms', forms'.Forms False slot → holds (own forms'))
      (deeper : ∀ n, level = n + 1 → ∀ forms', forms'.Clear False n (.forms slot) →
        holds (own forms')) :
      ((forms.read user level).map (List.map own)).Always fun values =>
        ∃ t', values = [t'] ∧ holds t' := by
    cases level with
    | zero =>
      obtain ⟨f, rfl, inner⟩ := clear_forms.mp clear
      rw [read_list1, Part.map_map]
      have few : (f.read user 0).Always fun values => slot = .single → values.length = 1 := by
        by_cases single : slot = .single
        · subst single
          exact (inner.one_value (.inr (.inl rfl))).length.mono fun _ one _ => one
        · exact fun _ _ _ _ never => absurd never single
      exact Part.Always.map (few.mono fun values one =>
        ⟨_, rfl, outermost rfl _ ⟨values, rfl, fun few => one (few.resolve_right id)⟩⟩)
    | succ level =>
      refine Part.Always.map ((inside clear).mono ?_)
      rintro _ ⟨forms', rfl, -, clear'⟩
      exact ⟨_, rfl, deeper level rfl _ clear'⟩
  induction t with
  | atom a plain => exact fun clear => Part.always_constant ⟨_, rfl, rfl, clear⟩
  | form x => exact fun clear => Part.always_constant ⟨_, rfl, rfl, id, clear.2⟩
  | cons car cdr ihCar ihCdr =>
    intro level place clear
    cases place with
    | forms slot =>
      obtain ⟨empty, first⟩ := clear
      rw [isNil_iff.mp empty]
      have rest : Part.Always (· = [nil]) (Part.constant (σ := σ) (ε := ε) [nil]) :=
        Part.always_constant rfl
      refine (ihCar first).map₂ rest ?_
      rintro _ _ ⟨car', rfl, -, first'⟩ rfl
      exact ⟨_, rfl, rfl, rfl, first'⟩
    | element slot =>
      refine (ihCar clear.1).map₂ (ihCdr clear.2) ?_
      rintro _ _ ⟨car', rfl, -, first⟩ ⟨cdr', rfl, same, rest⟩
      exact ⟨_, rfl, rfl, same.symm ▸ first, rest⟩
    | tail =>
      refine (ihCar clear.1).map₂ (ihCdr clear.2) ?_
      rintro _ _ ⟨car', rfl, -, first⟩ ⟨cdr', rfl, same, rest⟩
      exact ⟨_, rfl, rfl, same.symm ▸ first, rest⟩
  | quasi y ih =>
    intro level place clear
    refine Part.Always.map ((ih clear.2).mono ?_)
    rintro _ ⟨y', rfl, -, inner⟩
    exact ⟨_, rfl, rfl, clear.1, inner⟩
  | unquote forms ih =>
    rintro level place ⟨slot, own, fit⟩
    refine behind (fun t' => t'.isNil = false ∧ t'.Clear False level place) ih fit ?_ ?_
    · rintro rfl forms' fit'
      exact ⟨rfl, slot, own, fit'⟩
    · rintro n rfl forms' clear
      exact ⟨rfl, slot, own, clear⟩
  | splice k forms ih =>
    rintro level place ⟨slot, own, fit⟩
    refine behind (fun t' => t'.isNil = false ∧ t'.Clear False level place) ih fit ?_ ?_
    · rintro rfl forms' fit'
      exact ⟨rfl, slot, own, fit'⟩
    · rintro n rfl forms' clear
      exact ⟨rfl, slot, own, clear⟩

theorem Clear.fill {place : Place} (clear : t.Clear fromReader (level + 1) place) :
    (t.fill user level).Always fun t' => t'.Clear False level place := by
  refine Part.Always.map (clear.filled.mono ?_)
  rintro _ ⟨t', rfl, -, clear'⟩
  exact clear'

theorem fill_cons {car cdr : Template}
    (clear : (Template.cons car cdr).Clear fromReader (level + 1) .tail) :
    (Template.cons car cdr).fill user level =
      .map₂ .cons (car.fill user level) (cdr.fill user level) := by
  rw [fill, read, clear.1.read_succ, clear.2.read_succ, Part.map₂_map_left, Part.map₂_map_right,
    Part.map_map₂]
  rfl

theorem fill_quasi {y : Template}
    (clear : y.Clear fromReader (level + 2) (.element .single)) :
    y.quasi.fill user level = (y.fill user (level + 1)).map .quasi := by
  rw [fill, read, clear.read_succ, Part.map_map, Part.map_map]
  rfl

theorem fill_unquote (f : Template) : (unquote (list1 f)).fill user level =
    (f.read user level).map fun values => unquote (list values) := by
  rw [fill, read, read_list1, Part.map_map, Part.map_map]
  rfl

theorem fill_splice (k : Splicing) (f : Template) : (splice k (list1 f)).fill user level =
    (f.read user level).map fun values => splice k (list values) := by
  rw [fill, read, read_list1, Part.map_map, Part.map_map]
  rfl

@[simp] theorem toList_list (ts : List Template) : (list ts).toList = ts := by
  induction ts with
  | nil => rfl
  | cons t ts ih => exact congrArg (t :: ·) ih

variable (user level) in
/-- Nothing is filled in. -/
def Still (t : Template) : Prop := t.read user level = .constant [t]

theorem still_cons {car cdr : Template} : Still user level (.cons car cdr) ↔
    Still user level car ∧ Still user level cdr := by
  constructor
  · intro still
    obtain ⟨a, b, first, rest, -⟩ := Part.map₂_eq_constant still
    exact ⟨by rw [Still, first, read_constant first], by rw [Still, rest, read_constant rest]⟩
  · rintro ⟨first, rest⟩
    rw [Still, read, first, rest]
    rfl

theorem still_kwote {c : Template} (still : Still user level c) :
    Still user level c.kwote := by
  unfold kwote
  split
  · exact still
  · exact still_cons.mpr ⟨rfl, still_cons.mpr ⟨still, rfl⟩⟩

theorem still_content {ts : List Template} (still : ∀ t ∈ ts, Still user level t) :
    Still user level (content ts) := by
  unfold content
  split
  · exact still _ (by simp)
  · rfl

theorem still_headD {ts : List Template} (still : ∀ t ∈ ts, Still user level t) :
    Still user level (ts.headD nil) := by
  cases ts with
  | nil => rfl
  | cons t ts => exact still t List.mem_cons_self

theorem readAll_still {ts : List Template} (still : ∀ t ∈ ts, Still user level t) :
    readAll user level ts = .constant ts := by
  induction ts with
  | nil => rfl
  | cons t ts ih =>
    rw [readAll, still t List.mem_cons_self, ih fun t member => still t (.tail _ member)]
    rfl

theorem readAll_operands {r : Expanded}
    (still : r.1 = .quote → ∀ t ∈ r.2, Still user level t) :
    readAll user level (operands r.1 r.2) =
      (readAll user level r.2).map (operands r.1) := by
  by_cases quote : r.1 = .quote
  · rw [readAll_still (still quote), Part.map_constant, operands, if_pos quote]
    exact readAll_still fun t member => by
      rw [List.mem_singleton.mp member]
      exact still_kwote (still_content (still quote))
  · rw [operands, if_neg quote, show operands r.1 = fun ts => ts from
      funext fun ts => if_neg quote, Part.map_id]

theorem readAll_pairConstant {a : Kind} (ax : List Template) {c : Template}
    (still : Still user level c) :
    (readAll user level ax).map (fun ax => pairConstant a ax c) =
      (readAll user level (pairConstant a ax c).2).map (Prod.mk (pairConstant a ax c).1) := by
  have one (c' : Template) (still : Still user level c') (k : Kind) :
      (readAll user level ax).map (fun ax => (k, ax ++ [c'])) =
        (readAll user level (ax ++ [c'])).map (Prod.mk k) := by
    rw [readAll_append, readAll_singleton, show c'.read user level = _ from still,
      Part.map₂_constant_right, Part.map_map]
  unfold pairConstant
  split
  · rfl
  · split
    · cases only : c.only with
      | some e =>
        rw [only_eq_some] at only
        subst only
        exact one _ (still_kwote (still_cons.mp still).1) _
      | none => exact one _ (still_kwote still) _
    · exact one _ (still_kwote still) _

theorem readAll_expandPair {r r' : Expanded}
    (still : r.1 = .quote → ∀ t ∈ r.2, Still user level t)
    (still' : r'.1 = .quote → ∀ t ∈ r'.2, Still user level t) :
    .map₂ (fun ax dx => expandPair (r.1, ax) (r'.1, dx))
        (readAll user level r.2) (readAll user level r'.2) =
      (readAll user level (expandPair r r').2).map (Prod.mk (expandPair r r').1) := by
  unfold expandPair
  by_cases quote' : r'.1 = .quote
  · rw [if_pos quote', readAll_still (still' quote'), Part.map₂_constant_right]
    simp only [quote', if_true]
    by_cases quote : r.1 = .quote
    · have whole := still_cons.mpr ⟨still_headD (still quote), still_headD (still' quote')⟩
      rw [if_pos quote, readAll_still (still quote)]
      simp only [quote, if_true, Part.map_constant]
      rw [readAll_still fun t member => by
        rcases List.mem_pair.mp member with rfl | rfl <;> exact whole]
      rfl
    · simp only [quote, if_false]
      exact readAll_pairConstant _ (still_content (still' quote'))
  · have operands := readAll_operands still
    simp only [quote', if_false]
    by_cases eval : r'.1 = .eval
    · simp only [eval, if_true]
      rw [readAll_append, operands, Part.map₂_map_left, Part.map_map₂]
    · simp only [eval, if_false]
      split
      · rw [readAll_append, operands, Part.map₂_map_left, Part.map_map₂]
      · rw [readAll_append, operands, readAll_call, Part.map₂_map_left, Part.map₂_map_right,
          Part.map_map₂]

theorem fill_still (still : t.read user (level + 1) = .constant [t]) :
    t.fill user level = .constant t := by
  rw [fill, still]
  rfl

theorem read_of_map {α : Type} {place : Place} (clear : t.Clear fromReader (level + 1) place)
    {f : Template → α} {a : α} (same : (t.fill user level).map f = .constant a) :
    t.read user (level + 1) = .constant [t] := by
  obtain ⟨t', filled, -⟩ := Part.map_eq_constant same
  have one : t.read user (level + 1) = .constant [t'] := by
    rw [clear.read_succ, filled]
    rfl
  rw [one, read_constant one]

variable (user level) in
/-- To fill in and to expand is the same in either order. -/
def Commutes (expansion : Template → Expanded) (t : Template) : Prop :=
  (t.fill user level).map expansion =
      (readAll user level (expansion t).2).map (Prod.mk (expansion t).1) ∧
    ((expansion t).1 = .quote → ∀ x ∈ (expansion t).2, Still user level x)

theorem Commutes.still {expansion : Template → Expanded} {place : Place}
    (commutes : Commutes user level expansion t)
    (clear : t.Clear fromReader (level + 1) place) (quote : (expansion t).1 = .quote) :
    t.read user (level + 1) = .constant [t] := by
  obtain ⟨same, still⟩ := commutes
  rw [readAll_still (still quote)] at same
  exact read_of_map clear same

/-- What is expanded as a tail, as an element. -/
def asElement (d : Expanded) : Expanded :=
  if d.1 = .quote ∨ d.1 = .eval then d else (.eval, [call d.1 d.2])

theorem expandCar_eq_asElement (again : Template → Expanded) (car cdr : Template) :
    expandCar again (.cons car cdr) = asElement (expandCdr again (.cons car cdr)) := rfl

variable {limit : Nat}

theorem commutes (inside : ∀ y : Template, y.quasiquotes < limit → ∀ level,
      y.Clear fromReader (level + 2) (.element .single) →
      Commutes user level (expandCar expandAgain) y.quasi) (t : Template) :
    t.quasiquotes ≤ limit → ∀ level,
      (∀ slot, t.Clear fromReader (level + 1) (.element slot) →
        Commutes user level (expandCar expandAgain) t) ∧
      (t.Clear fromReader (level + 1) .tail →
        Commutes user level (expandCdr expandAgain) t) := by
  induction t with
  | atom a plain =>
    refine fun _ level =>
      ⟨fun _ _ => ⟨rfl, fun _ x member => ?_⟩, fun _ => ⟨rfl, fun _ x member => ?_⟩⟩
    all_goals rcases List.mem_pair.mp member with rfl | rfl <;> rfl
  | form y =>
    refine fun _ level =>
      ⟨fun _ _ => ⟨rfl, fun _ x member => ?_⟩, fun _ => ⟨rfl, fun _ x member => ?_⟩⟩
    all_goals rcases List.mem_pair.mp member with rfl | rfl <;> rfl
  | cons car cdr ihCar ihCdr =>
    intro enough level
    rw [quasiquotes] at enough
    have tails (clear : (Template.cons car cdr).Clear fromReader (level + 1) .tail) :
        Commutes user level (expandCdr expandAgain) (.cons car cdr) := by
      obtain ⟨first, still⟩ := (ihCar (by omega) level).1 _ clear.1
      obtain ⟨rest, still'⟩ := (ihCdr (by omega) level).2 clear.2
      have pair : (fun a b => expandCdr expandAgain (.cons a b)) = fun a b =>
          expandPair (expandCar expandAgain a) (expandCdr expandAgain b) := rfl
      refine ⟨?_, fun quote x member => ?_⟩
      · rw [fill_cons clear, Part.map_map₂, pair,
          ← Part.map₂_map_left (fun r b => expandPair r (expandCdr expandAgain b)), first,
          ← Part.map₂_map_right (fun r r' => expandPair r r'), rest, Part.map₂_map_left,
          Part.map₂_map_right]
        exact readAll_expandPair still still'
      · obtain ⟨quoted, quoted'⟩ := expandPair_quote quote
        rw [(expandCar_quote _).2 quote] at member
        have whole : Still user level (.cons car cdr) := by
          obtain ⟨c, own⟩ := (expandCar_quote car).1 quoted
          rw [expandCar] at own
          exact still_cons.mpr ⟨still quoted car (by rw [expandCar, own]; simp),
            still' quoted' cdr (by rw [(expandCar_quote cdr).2 quoted']; simp)⟩
        rcases List.mem_pair.mp member with rfl | rfl <;> exact whole
    refine ⟨fun slot clear => ?_, tails⟩
    obtain ⟨same, still⟩ := tails clear
    have element : (fun a b => expandCar expandAgain (.cons a b)) = fun a b =>
        asElement (expandCdr expandAgain (.cons a b)) := rfl
    rw [Commutes, expandCar_eq_asElement, fill_cons clear, Part.map_map₂, element,
      ← Part.map_map₂ Template.cons fun t => asElement (expandCdr expandAgain t),
      ← Part.map_map (expandCdr expandAgain) asElement, ← fill_cons clear, same, Part.map_map]
    generalize expandCdr expandAgain (.cons car cdr) = d at still
    by_cases kind : d.1 = .quote ∨ d.1 = .eval
    · simp only [asElement, kind, if_true]
      exact ⟨trivial, still⟩
    · simp only [asElement, kind, if_false]
      exact ⟨by rw [readAll_call, Part.map_map], fun never => by cases never⟩
  | quasi y _ =>
    exact fun enough level => ⟨fun slot clear => inside y enough level clear.2,
      fun clear => by cases clear.1.choose_spec⟩
  | unquote forms _ =>
    intro _ level
    have whole (f : Template) (expansion : Template → Expanded)
        (own : ∀ ts, expansion (.unquote (list ts)) = (.eval, ts)) :
        Commutes user level expansion (.unquote (list1 f)) := by
      refine ⟨?_, fun quote => ?_⟩
      · rw [fill_unquote, Part.map_map]
        simp only [own]
        rw [show (list1 f).unquote = .unquote (list [f]) from rfl, own]
        exact congrArg (Part.map _) (readAll_singleton f).symm
      · rw [show (list1 f).unquote = .unquote (list [f]) from rfl, own] at quote
        cases quote
    refine ⟨?_, ?_⟩
    · rintro slot ⟨s, -, clear⟩
      obtain ⟨f, rfl, -⟩ := clear_forms.mp clear
      exact whole f _ fun ts => by rw [expandCar, expandCarOf, toList_list]
    · rintro ⟨s, -, clear⟩
      obtain ⟨f, rfl, -⟩ := clear_forms.mp clear
      exact whole f _ fun ts => by rw [expandCdr, toList_list]
  | splice k forms _ =>
    refine fun _ level => ⟨?_, ?_⟩
    · rintro slot ⟨s, -, clear⟩
      obtain ⟨f, rfl, -⟩ := clear_forms.mp clear
      refine ⟨?_, fun never => by cases k <;> cases never⟩
      rw [fill_splice, Part.map_map]
      simp only [expandCar, expandCarOf, toList_list]
      exact congrArg (Part.map _) (readAll_singleton f).symm
    · rintro ⟨s, own, -⟩
      cases own

theorem expand_read (clear : t.Clear fromReader (level + 1) (.element .single))
    (commutes : Commutes user level (expandCar expandAgain) t) :
    (expand t).read user level =
      (t.fill user level).map fun t => [expand t] := by
  have fits := expandCar_fits clear
  have whole : (t.fill user level).map (fun t => [expand t]) =
      ((t.fill user level).map (expandCar expandAgain)).map fun r => [finish r] := by
    rw [Part.map_map]
    rfl
  obtain ⟨same, still⟩ := commutes
  rw [whole, same, Part.map_map, expand, expandWith]
  generalize expandCar expandAgain t = r at fits still
  obtain ⟨k, ts⟩ := r
  cases k with
  | quote =>
    rw [readAll_still (still rfl)]
    exact still_kwote (still_content (still rfl))
  | eval =>
    obtain ⟨f, rfl, inner⟩ : ∃ f, ts = [f] ∧ f.Clear fromReader level (.element .single) := fits
    rw [readAll_singleton]
    exact inner.one_value (.inr (.inl rfl))
  | append =>
    obtain ⟨f, s, -, never, -⟩ := fits
    cases never
  | nconc =>
    obtain ⟨f, s, -, never, -⟩ := fits
    cases never
  | list => exact fits.elim
  | listStar => exact fits.elim

theorem commutes_quasi (limit : Nat) (y : Template) : y.quasiquotes < limit → ∀ level,
    y.Clear fromReader (level + 2) (.element .single) →
      Commutes user level (expandCar expandAgain) y.quasi := by
  induction limit generalizing y with
  | zero => exact fun never => absurd never (Nat.not_lt_zero _)
  | succ limit inside =>
    intro enough level clear
    have bound := Nat.le_of_lt_succ enough
    have expanded : ∀ s, (expand y).Clear fromReader (level + 1) (.element s) := expand_clear clear
    have inner := expand_read clear.outer ((commutes inside y bound level).1 _ clear.outer)
    have outer := expand_read clear ((commutes inside y bound (level + 1)).1 _ clear)
    have element := (commutes inside (expand y) (Nat.le_trans (expand_quasiquotes y) bound) level).1
      _ (expanded .single)
    have filled : (expand y).fill user level =
        (y.fill user (level + 1)).map expand := by
      rw [fill, outer, Part.map_map]
      rfl
    have again : (y.fill user (level + 1)).map expandAgain =
        (readAll user level (expandAgain y).2).map (Prod.mk (expandAgain y).1) := by
      rw [expandAgain_eq y, ← element.1, filled, Part.map_map]
      exact congrArg (Part.map · _) (funext expandAgain_eq)
    have expansion : (fun y => expandCar expandAgain (.quasi y)) =
      fun y => expandQuasi y (expandAgain y) := rfl
    rw [Commutes, fill_quasi clear, Part.map_map, expansion]
    change (y.fill user (level + 1)).map (fun y => expandQuasi y (expandAgain y)) =
        (readAll user level (expandQuasi y (expandAgain y)).2).map
          (Prod.mk (expandQuasi y (expandAgain y)).1) ∧
      ((expandQuasi y (expandAgain y)).1 = .quote →
        ∀ x ∈ (expandQuasi y (expandAgain y)).2, Still user level x)
    by_cases quote : (expandAgain y).1 = .quote
    · have quoted := quote
      rw [expandAgain_eq] at quoted
      have still := element.2 quoted
      obtain ⟨c, own⟩ := (@expandCar_quote expandAgain (expand y)).1 quoted
      rw [own] at still
      have whole : y.read user (level + 1) = .constant [y] :=
        read_of_map clear.outer (inner.symm.trans (still _ List.mem_cons_self))
      have whole' : y.read user (level + 2) = .constant [y] :=
        read_of_map clear (outer.symm.trans (element.still (expanded .single) quoted))
      have copied : Still user level y.quasi := by
        rw [Still, read, whole]
        rfl
      have members : ∀ x ∈ (expandQuasi y (expandAgain y)).2, Still user level x := by
        rw [expandQuasi, if_pos quote, expandAgain_eq, own]
        intro x member
        rcases List.mem_pair.mp member with rfl | rfl
        · exact copied
        · exact still x (by simp)
      refine ⟨?_, fun _ => members⟩
      rw [readAll_still members, fill_still whole']
      rfl
    · have kept : expandQuasi y (expandAgain y) = expandAgain y := if_neg quote
      rw [kept]
      have others : ∀ a : Template, (expandAgain a).1 = (expandAgain y).1 →
          expandQuasi a (expandAgain a) = expandAgain a :=
        fun a kind => if_neg fun never => quote (kind.symm.trans never)
      exact ⟨(Part.map_congr again others).trans again, fun never => absurd never quote⟩

/-- The expansion of a nested template, once the commas of the outer one are filled in. -/
theorem expand_filled (clear : t.Clear fromReader (level + 1) (.element .single)) :
    (expand t).read user level = (t.fill user level).map fun t => [expand t] :=
  expand_read clear ((commutes (commutes_quasi t.quasiquotes) t (Nat.le_refl _) level).1 _ clear)

end Template

end Ecl.Backquote
