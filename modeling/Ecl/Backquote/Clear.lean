import Ecl.Backquote.Expand

/- Templates that are clear stay so when the templates inside of them are expanded. -/
namespace Ecl.Backquote

/-- How many lists of forms there may be. -/
def Slot.room : Slot → Nat
  | .followed => 2
  | .last => 1
  | .single => 0

variable {fromReader : Prop} {slot slot' : Slot}

theorem Slot.spliced_mono (le : slot.room ≤ slot'.room) {s : Slot}
    (spliced : (Place.element slot).spliced = some s) :
    ∃ s', (Place.element slot').spliced = some s' ∧ s.room ≤ s'.room := by
  cases slot <;> cases spliced <;> cases slot' <;> simp_all [Place.spliced, Slot.room]

namespace Template

theorem Forms.mono (le : slot.room ≤ slot'.room) {forms : Template}
    (fit : forms.Forms fromReader slot) : forms.Forms fromReader slot' := by
  obtain ⟨ts, rfl, one⟩ := fit
  refine ⟨ts, rfl, fun few => one (few.imp_left fun single => ?_)⟩
  subst single
  cases slot with
  | single => rfl
  | _ => exact absurd le (by decide)

theorem Clear.mono (le : slot.room ≤ slot'.room) (t : Template) : ∀ level,
    (t.Clear fromReader level (.element slot) → t.Clear fromReader level (.element slot')) ∧
      (t.Clear fromReader level (.forms slot) → t.Clear fromReader level (.forms slot')) := by
  induction t generalizing slot slot' with
  | atom a plain => exact fun _ => ⟨fun _ _ => nofun, fun clear => absurd rfl (clear slot)⟩
  | form x =>
    exact fun _ => ⟨fun clear => ⟨clear.1, fun _ => nofun⟩, fun clear => absurd rfl (clear.2 slot)⟩
  | cons car cdr ihCar _ =>
    exact fun level => ⟨id, fun clear => ⟨clear.1, (ihCar le level).1 clear.2⟩⟩
  | quasi y _ => exact fun _ => ⟨fun clear => ⟨⟨_, rfl⟩, clear.2⟩, nofun⟩
  | unquote forms ih =>
    refine fun level => ⟨fun clear => ?_, fun clear => by cases clear.choose_spec.1⟩
    obtain ⟨s, own, fit⟩ := clear
    cases own
    refine ⟨slot', rfl, ?_⟩
    cases level with
    | zero => exact fit.mono le
    | succ level => exact (ih le level).2 fit
  | splice k forms ih =>
    refine fun level => ⟨fun clear => ?_, fun clear => by cases clear.choose_spec.1⟩
    obtain ⟨s, own, fit⟩ := clear
    obtain ⟨s', own', le'⟩ := Slot.spliced_mono le own
    refine ⟨s', own', ?_⟩
    cases level with
    | zero => exact fit.mono le'
    | succ level => exact (ih le' level).2 fit

theorem Clear.room {t : Template} {level : Nat}
    (clear : t.Clear fromReader level (.element .single)) :
    t.Clear fromReader level (.element slot) :=
  (Clear.mono (Nat.zero_le _) t level).1 clear

theorem clear_forms {forms : Template} {level : Nat} :
    forms.Clear fromReader level (.forms slot) ↔
      ∃ f, forms = list1 f ∧ f.Clear fromReader level (.element slot) := by
  constructor
  · intro clear
    cases forms with
    | atom a plain => exact absurd rfl (clear slot)
    | form x => exact absurd rfl (clear.2 slot)
    | cons car cdr => exact ⟨car, by rw [isNil_iff.mp clear.1], clear.2⟩
    | quasi y => cases clear.1.choose_spec
    | unquote forms => cases clear.choose_spec.1
    | splice k forms => cases clear.choose_spec.1
  · rintro ⟨f, rfl, clear⟩
    exact ⟨rfl, clear⟩

theorem Clear.one {forms : Template} {level : Nat}
    (clear : forms.Clear fromReader level (.forms slot)) : forms.Forms fromReader slot := by
  obtain ⟨f, rfl, -⟩ := clear_forms.mp clear
  exact ⟨[f], rfl, fun _ => rfl⟩

theorem Clear.outer {t : Template} : ∀ {level : Nat} {place : Place},
    t.Clear fromReader (level + 1) place → t.Clear fromReader level place := by
  induction t with
  | atom a plain => exact id
  | form x => exact id
  | cons car cdr ihCar ihCdr =>
    intro level place clear
    cases place with
    | forms s => exact ⟨clear.1, ihCar clear.2⟩
    | element s => exact ⟨ihCar clear.1, ihCdr clear.2⟩
    | tail => exact ⟨ihCar clear.1, ihCdr clear.2⟩
  | quasi y ih =>
    intro level place clear
    exact ⟨clear.1, ih clear.2⟩
  | unquote forms ih =>
    intro level place ⟨s, own, fit⟩
    refine ⟨s, own, ?_⟩
    cases level with
    | zero => exact fit.one
    | succ level => exact ih fit
  | splice k forms ih =>
    intro level place ⟨s, own, fit⟩
    refine ⟨s, own, ?_⟩
    cases level with
    | zero => exact fit.one
    | succ level => exact ih fit

theorem Clear.any {t : Template} : ∀ {level : Nat} {place : Place},
    t.Clear fromReader level place → t.Clear False level place := by
  have forms {forms : Template} {s : Slot} (fit : forms.Forms fromReader s) :
      forms.Forms False s := by
    obtain ⟨ts, whole, one⟩ := fit
    exact ⟨ts, whole, fun few => one (.inl (few.resolve_right id))⟩
  induction t with
  | atom a plain => exact id
  | form x => exact fun clear => ⟨id, clear.2⟩
  | cons car cdr ihCar ihCdr =>
    intro level place clear
    cases place with
    | forms s => exact ⟨clear.1, ihCar clear.2⟩
    | element s => exact ⟨ihCar clear.1, ihCdr clear.2⟩
    | tail => exact ⟨ihCar clear.1, ihCdr clear.2⟩
  | quasi y ih => exact fun clear => ⟨clear.1, ih clear.2⟩
  | unquote f ih =>
    intro level place ⟨s, own, fit⟩
    refine ⟨s, own, ?_⟩
    cases level with
    | zero => exact forms fit
    | succ level => exact ih fit
  | splice k f ih =>
    intro level place ⟨s, own, fit⟩
    refine ⟨s, own, ?_⟩
    cases level with
    | zero => exact forms fit
    | succ level => exact ih fit

variable {again : Template → Expanded}

theorem pairConstant_evaluated {a : Kind} (evaluated : a ≠ .quote) (ax : List Template)
    (c : Template) : (pairConstant a ax c).1 ≠ .quote := by
  unfold pairConstant
  split
  · split <;> exact nofun
  · split
    · split <;> exact nofun
    · cases a <;> simp_all [Kind.joined]

theorem expandPair_quote {r r' : Expanded} (quote : (expandPair r r').1 = .quote) :
    r.1 = .quote ∧ r'.1 = .quote := by
  have joined : r.1.joined ≠ .quote := by cases r.1 <;> decide
  unfold expandPair at quote
  split at quote
  · rename_i quote'
    split at quote
    · rename_i first
      exact ⟨first, quote'⟩
    · rename_i evaluated
      exact absurd quote (pairConstant_evaluated evaluated _ _)
  · rename_i evaluated
    split at quote
    · exact absurd quote joined
    · split at quote
      · exact absurd quote evaluated
      · exact absurd quote joined

theorem expandCar_cons (car cdr : Template)
    (called : (expandCdr again (.cons car cdr)).1 ≠ .quote) :
    (expandCar again (.cons car cdr)).1 = .eval := by
  rw [expandCar, expandCarOf]
  split
  · rename_i kind
    exact kind.resolve_left called
  · rfl

theorem expandCar_cons_quote {car cdr : Template}
    (quote : (expandCdr again (.cons car cdr)).1 = .quote) :
    expandCar again (.cons car cdr) = expandCdr again (.cons car cdr) := by
  rw [expandCar, expandCarOf, if_pos (.inl quote)]

theorem expandCar_quote (t : Template) :
    ((expandCar again t).1 = .quote → ∃ c, (expandCar again t).2 = [t, c]) ∧
      ((expandCdr again t).1 = .quote → (expandCdr again t).2 = [t, t]) := by
  induction t with
  | atom a plain => exact ⟨fun _ => ⟨_, rfl⟩, fun _ => rfl⟩
  | form x => exact ⟨fun _ => ⟨_, rfl⟩, fun _ => rfl⟩
  | cons car cdr ihCar ihCdr =>
    have tails : (expandCdr again (.cons car cdr)).1 = .quote →
        (expandCdr again (.cons car cdr)).2 = [.cons car cdr, .cons car cdr] := by
      intro quote
      rw [expandCdr] at quote ⊢
      obtain ⟨first, rest⟩ := expandPair_quote quote
      obtain ⟨c, own⟩ := ihCar.1 first
      rw [expandPair, if_pos rest, if_pos first]
      rw [expandCar] at own
      rw [own, ihCdr.2 rest]
      rfl
    refine ⟨fun quote => ?_, tails⟩
    by_cases quoted : (expandCdr again (.cons car cdr)).1 = .quote
    · exact ⟨_, (congrArg Prod.snd (expandCar_cons_quote quoted)).trans (tails quoted)⟩
    · rw [expandCar_cons car cdr quoted] at quote
      cases quote
  | quasi y _ =>
    refine ⟨fun quote => ?_, fun _ => rfl⟩
    rw [expandCar, expandCarOf, expandQuasi] at quote ⊢
    split at quote
    · rename_i quoted
      exact ⟨_, by rw [if_pos quoted]⟩
    · rename_i evaluated
      exact absurd quote evaluated
  | unquote forms _ => exact ⟨fun never => (by cases never), fun never => by cases never⟩
  | splice k forms _ => exact ⟨fun never => (by cases k <;> cases never), fun _ => rfl⟩

/-- What an element in a slot is expanded to. -/
def FitsCar (fromReader : Prop) (level : Nat) (slot : Slot) (r : Expanded) : Prop :=
  match r.1 with
  | .quote => ∀ s, (content r.2).Clear fromReader level (.element s)
  | .eval => ∃ f, r.2 = [f] ∧ f.Clear fromReader level (.element slot)
  | .append | .nconc => ∃ f s, r.2 = [f] ∧ (Place.element slot).spliced = some s ∧
      f.Clear fromReader level (.element s)
  | _ => False

/-- What a tail is expanded to. -/
def FitsCdr (fromReader : Prop) (level : Nat) (r : Expanded) : Prop :=
  match r.1 with
  | .quote => ∀ s, (content r.2).Clear fromReader level (.element s)
  | .eval => ∃ f, r.2 = [f] ∧ f.Clear fromReader level (.element .single)
  | _ => r.2 ≠ [] ∧ (list r.2).Clear fromReader level .tail

variable {level : Nat}

theorem clear_atom (a : Atom) (plain : a.isMark = false) (s : Slot) :
    (atom a plain).Clear fromReader level (.element s) :=
  fun _ => nofun

theorem clear_form (own : ¬fromReader) (x : Obj) (s : Slot) :
    (form x).Clear fromReader level (.element s) :=
  ⟨own, fun _ => nofun⟩

theorem clear_nil : nil.Clear fromReader level .tail :=
  fun _ => nofun

theorem clear_kwote {c : Template} (clear : ∀ s, c.Clear fromReader level (.element s)) (s : Slot) :
    c.kwote.Clear fromReader level (.element s) := by
  unfold kwote
  split
  · exact clear s
  · exact ⟨clear_atom _ _ _, clear _, clear_nil⟩

theorem clear_call (k : Kind) {ts : List Template} (clear : (list ts).Clear fromReader level .tail)
    (s : Slot) : (call k ts).Clear fromReader level (.element s) :=
  ⟨clear_atom _ _ _, clear⟩

theorem clear_last {t : Template} (clear : t.Clear fromReader level (.element .last)) :
    (list [t]).Clear fromReader level .tail :=
  ⟨clear, clear_nil⟩

theorem clear_followed {t : Template} {ts : List Template} (more : ts ≠ [])
    (clear : t.Clear fromReader level (.element .followed))
    (rest : (list ts).Clear fromReader level .tail) :
    (list ([t] ++ ts)).Clear fromReader level .tail := by
  refine ⟨?_, rest⟩
  cases ts with
  | nil => exact absurd rfl more
  | cons t' ts => exact clear

theorem FitsCar.operand {r : Expanded} (fits : FitsCar fromReader level .followed r) :
    ∃ f, operands r.1 r.2 = [f] ∧ f.Clear fromReader level (.element .followed) := by
  obtain ⟨a, ax⟩ := r
  cases a with
  | quote => exact ⟨_, rfl, clear_kwote fits _⟩
  | eval => exact fits
  | append =>
    obtain ⟨f, s, one, own, clear⟩ := fits
    cases own
    exact ⟨f, one, clear⟩
  | nconc =>
    obtain ⟨f, s, one, own, clear⟩ := fits
    cases own
    exact ⟨f, one, clear⟩
  | list => exact fits.elim
  | listStar => exact fits.elim

theorem FitsCdr.of_call {k : Kind} {ts : List Template} (more : ts ≠ [])
    (clear : (list ts).Clear fromReader level .tail) (quote : k ≠ .quote) (eval : k ≠ .eval) :
    FitsCdr fromReader level (k, ts) := by
  cases k with
  | quote => exact absurd rfl quote
  | eval => exact absurd rfl eval
  | _ => exact ⟨more, clear⟩

theorem Kind.joined_call (a : Kind) : a.joined ≠ .quote ∧ a.joined ≠ .eval := by
  cases a <;> exact ⟨nofun, nofun⟩

theorem pairConstant_fits {r : Expanded} {c : Template} (evaluated : r.1 ≠ .quote)
    (fits : FitsCar fromReader level (if c.isNil then .last else .followed) r)
    (clear : ∀ s, c.Clear fromReader level (.element s))
    (single : ∀ e, c = list1 e → ∀ s, e.Clear fromReader level (.element s)) :
    FitsCdr fromReader level (pairConstant r.1 r.2 c) := by
  unfold pairConstant
  by_cases empty : c.isNil = true
  · rw [if_pos empty] at fits ⊢
    obtain ⟨a, ax⟩ := r
    cases a with
    | quote => exact absurd rfl evaluated
    | eval =>
      obtain ⟨f, one, own⟩ := fits
      exact ⟨by rw [show ax = [f] from one]; exact nofun,
        by rw [show ax = [f] from one]; exact clear_last own⟩
    | append =>
      obtain ⟨f, s, one, slot, own⟩ := fits
      cases slot
      exact ⟨f, one, own⟩
    | nconc =>
      obtain ⟨f, s, one, slot, own⟩ := fits
      cases slot
      exact ⟨f, one, own⟩
    | list => exact fits.elim
    | listStar => exact fits.elim
  · rw [if_neg empty] at fits ⊢
    obtain ⟨f, one, own⟩ := fits.operand
    rw [operands, if_neg evaluated] at one
    have args (c' : Template) (clear' : ∀ s, c'.Clear fromReader level (.element s)) :
        r.2 ++ [c'] ≠ [] ∧ (list (r.2 ++ [c'])).Clear fromReader level .tail := by
      rw [one]
      exact ⟨nofun, clear_followed nofun own (clear_last (clear' _))⟩
    split
    · split
      · rename_i e only
        exact args _ (clear_kwote (single e (only_eq_some.mp only)))
      · exact args _ (clear_kwote clear)
    · obtain ⟨more, whole⟩ := args _ (clear_kwote clear)
      exact .of_call more whole (Kind.joined_call _).1 (Kind.joined_call _).2

theorem Clear.quoted {t : Template} {s : Slot} (quote : (expandCar again t).1 = .quote)
    (clear : t.Clear fromReader level (.element s)) (s' : Slot) :
    t.Clear fromReader level (.element s') := by
  cases t with
  | atom a plain => exact clear_atom _ _ _
  | form x => exact clear_form clear.1 x _
  | cons car cdr => exact clear
  | quasi y => exact ⟨⟨_, rfl⟩, clear.2⟩
  | unquote forms => cases quote
  | splice k forms => cases k <;> cases quote

theorem Clear.quoted_only {t e : Template} (quote : (expandCdr again t).1 = .quote)
    (clear : t.Clear fromReader level .tail) (only : t = list1 e) (s : Slot) :
    e.Clear fromReader level (.element s) := by
  subst only
  rw [expandCdr] at quote
  exact Clear.quoted (expandPair_quote quote).1 clear.1 s

theorem Clear.quoted_tail {t : Template} (quote : (expandCdr again t).1 = .quote)
    (clear : t.Clear fromReader level .tail) (s : Slot) :
    t.Clear fromReader level (.element s) := by
  cases t with
  | atom a plain => exact clear_atom _ _ _
  | form x => exact clear_form clear.1 x _
  | cons car cdr => exact clear
  | quasi y => exact nomatch clear.1.choose_spec
  | unquote forms => cases quote
  | splice k forms => exact nomatch clear.choose_spec.1

theorem expandPair_fits {car cdr : Template}
    (clear : (Template.cons car cdr).Clear fromReader level .tail)
    (fits : FitsCar fromReader level (if cdr.isNil then .last else .followed) (expandCar again car))
    (fits' : FitsCdr fromReader level (expandCdr again cdr)) :
    FitsCdr fromReader level (expandCdr again (.cons car cdr)) := by
  rw [expandCdr, ← expandCar]
  unfold expandPair
  by_cases quote' : (expandCdr again cdr).1 = .quote
  · have literal : content (expandCdr again cdr).2 = cdr := by
      rw [(expandCar_quote cdr).2 quote']
      rfl
    rw [if_pos quote', literal]
    by_cases quote : (expandCar again car).1 = .quote
    · obtain ⟨c, own⟩ := (expandCar_quote car).1 quote
      rw [if_pos quote, own, (expandCar_quote cdr).2 quote']
      exact fun _ => clear
    · rw [if_neg quote]
      exact pairConstant_fits quote fits (clear.2.quoted_tail quote')
        fun e only => clear.2.quoted_only quote' only
  · rw [if_neg quote']
    have more : cdr.isNil = false := by
      cases cdr with
      | atom a plain => exact absurd rfl quote'
      | _ => rfl
    rw [more] at fits
    obtain ⟨f, one, own⟩ := fits.operand
    rw [one]
    by_cases eval : (expandCdr again cdr).1 = .eval
    · rw [if_pos eval]
      rw [FitsCdr, eval] at fits'
      obtain ⟨f', one', own'⟩ := fits'
      rw [one']
      exact .of_call (by simp) (clear_followed (by simp) own (clear_last own'.room))
        (Kind.joined_call _).1 (Kind.joined_call _).2
    · rw [if_neg eval]
      have called : (expandCdr again cdr).2 ≠ [] ∧
          (list (expandCdr again cdr).2).Clear fromReader level .tail := by
        unfold FitsCdr at fits'
        split at fits'
        · rename_i kind
          exact absurd kind quote'
        · rename_i kind
          exact absurd kind eval
        · exact fits'
      split
      · exact .of_call (by simp) (clear_followed called.1 own called.2) quote' eval
      · exact .of_call (by simp)
          (clear_followed (by simp) own (clear_last (clear_call _ called.2 _)))
          (Kind.joined_call _).1 (Kind.joined_call _).2

theorem FitsCdr.element {car cdr : Template}
    (fits : FitsCdr fromReader level (expandCdr again (.cons car cdr))) (slot : Slot) :
    FitsCar fromReader level slot (expandCar again (.cons car cdr)) := by
  rw [expandCar, expandCarOf]
  generalize expandCdr again (.cons car cdr) = d at fits
  obtain ⟨k, ts⟩ := d
  cases k with
  | quote => exact fits
  | eval =>
    obtain ⟨f, one, clear⟩ := fits
    exact ⟨f, one, clear.room⟩
  | _ => exact ⟨_, rfl, clear_call _ fits.2 _⟩

variable {limit : Nat}

theorem expand_fits (inside : ∀ y : Template, y.quasiquotes < limit → ∀ level,
      y.Clear fromReader (level + 2) (.element .single) →
      ∀ slot, FitsCar fromReader level slot (again y)) (t : Template) :
    t.quasiquotes ≤ limit → ∀ level,
      (∀ slot, t.Clear fromReader (level + 1) (.element slot) →
        FitsCar fromReader level slot (expandCar again t)) ∧
      (t.Clear fromReader (level + 1) .tail → FitsCdr fromReader level (expandCdr again t)) := by
  induction t with
  | atom a plain =>
    exact fun _ level => ⟨fun _ _ => clear_atom _ _, fun _ => clear_atom _ _⟩
  | form x =>
    exact fun _ level => ⟨fun _ clear => clear_form clear.1 x, fun clear => clear_form clear.1 x⟩
  | cons car cdr ihCar ihCdr =>
    intro enough level
    rw [quasiquotes] at enough
    have tails (clear : (Template.cons car cdr).Clear fromReader (level + 1) .tail) :
        FitsCdr fromReader level (expandCdr again (.cons car cdr)) :=
      expandPair_fits clear.outer ((ihCar (by omega) level).1 _ clear.1)
        ((ihCdr (by omega) level).2 clear.2)
    exact ⟨fun slot clear => (tails clear).element slot, tails⟩
  | quasi y _ =>
    intro enough level
    refine ⟨fun slot clear => ?_, fun clear => by cases clear.1.choose_spec⟩
    have fits := inside y enough level clear.2 slot
    rw [expandCar, expandCarOf, expandQuasi]
    split
    · rename_i quote
      rw [FitsCar, quote] at fits
      exact fits
    · exact fits
  | unquote forms _ =>
    refine fun _ level => ⟨?_, ?_⟩
    · rintro slot ⟨s, own, clear⟩
      obtain ⟨f, rfl, inner⟩ := clear_forms.mp clear
      cases own
      exact ⟨f, rfl, inner⟩
    · rintro ⟨s, own, clear⟩
      obtain ⟨f, rfl, inner⟩ := clear_forms.mp clear
      cases own
      exact ⟨f, rfl, inner⟩
  | splice k forms _ =>
    refine fun _ level => ⟨?_, ?_⟩
    · rintro slot ⟨s, own, clear⟩
      obtain ⟨f, rfl, inner⟩ := clear_forms.mp clear
      cases k <;> exact ⟨f, s, rfl, own, inner⟩
    · rintro ⟨s, own, -⟩
      cases own

theorem finish_clear {r : Expanded} (fits : FitsCar fromReader level .single r) (slot : Slot) :
    (finish r).Clear fromReader level (.element slot) := by
  obtain ⟨k, ts⟩ := r
  cases k with
  | quote => exact clear_kwote fits slot
  | eval =>
    obtain ⟨f, one, clear⟩ := fits
    rw [finish, if_neg nofun, one]
    exact clear.room
  | append =>
    obtain ⟨f, s, -, never, -⟩ := fits
    cases never
  | nconc =>
    obtain ⟨f, s, -, never, -⟩ := fits
    cases never
  | list => exact fits.elim
  | listStar => exact fits.elim

theorem expandAgain_fits (limit : Nat) (y : Template) : y.quasiquotes < limit → ∀ level,
    y.Clear fromReader (level + 2) (.element .single) →
      ∀ slot, FitsCar fromReader level slot (expandAgain y) := by
  induction limit generalizing y with
  | zero => exact fun never => absurd never (Nat.not_lt_zero _)
  | succ limit inside =>
    intro enough level clear slot
    have whole : ∀ s, (expand y).Clear fromReader (level + 1) (.element s) :=
      finish_clear ((expand_fits inside y (Nat.le_of_lt_succ enough) (level + 1)).1 _ clear)
    rw [expandAgain_eq]
    exact (expand_fits inside _
      (Nat.le_trans (expand_quasiquotes y) (Nat.le_of_lt_succ enough)) level).1 _ (whole slot)

theorem expandCar_fits {t : Template} (clear : t.Clear fromReader (level + 1) (.element slot)) :
    FitsCar fromReader level slot (expandCar expandAgain t) :=
  (expand_fits (expandAgain_fits t.quasiquotes) t (Nat.le_refl _) level).1 slot clear

theorem expandCdr_fits {t : Template} (clear : t.Clear fromReader (level + 1) .tail) :
    FitsCdr fromReader level (expandCdr expandAgain t) :=
  (expand_fits (expandAgain_fits t.quasiquotes) t (Nat.le_refl _) level).2 clear

theorem expand_clear {t : Template} (clear : t.Clear fromReader (level + 1) (.element .single))
    (slot : Slot) : (expand t).Clear fromReader level (.element slot) :=
  finish_clear (expandCar_fits clear) slot

end Template

end Ecl.Backquote
