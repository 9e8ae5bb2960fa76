import Ecl.Backquote.Clear

/- What backq makes of the objects that the reader builds for clear templates. -/
namespace Ecl.Backquote

open Nat

namespace Template

theorem kwote_cases (x : Obj) : x.kwote = x ∨ x.kwote = .cons (.atom .quote) (.list1 x) := by
  cases x with
  | cons car cdr => exact .inr rfl
  | atom a => cases a <;> first | exact .inl rfl | exact .inr rfl

@[simp] theorem object_kwote (t : Template) : t.kwote.object = t.object.kwote := by
  unfold kwote
  split
  · rename_i same
    exact same.symm
  · rename_i apart
    exact ((kwote_cases t.object).resolve_left apart).symm

/-- An element as templates and as objects. -/
inductive ReadsCar (slot : Slot) : Expanded → Kind × Obj → Prop where
  | quote (x c : Template) : ReadsCar slot (.quote, [x, c]) (.quote, c.object)
  | eval (f : Template) : ReadsCar slot (.eval, [f]) (.eval, f.object)
  | splice {k : Kind} (appends : k = .append ∨ k = .nconc) (f : Template) {s : Slot} :
      (Place.element slot).spliced = some s → ReadsCar slot (k, [f]) (k, f.object)

/-- A tail as templates and as objects. -/
inductive ReadsCdr : Expanded → Kind × Obj → Prop where
  | quote (x c : Template) : ReadsCdr (.quote, [x, c]) (.quote, c.object)
  | eval (f : Template) : ReadsCdr (.eval, [f]) (.eval, f.object)
  | call {k : Kind} {ts : List Template} (quote : k ≠ .quote) (eval : k ≠ .eval) :
      ts ≠ [] → ReadsCdr (k, ts) (k, (list ts).object)

variable {level : Nat} {slot : Slot}

theorem object_ne_mark {t : Template} (clear : t.Clear True level (.element slot)) {a : Atom}
    (mark : a.isMark = true) : t.object ≠ .atom a := by
  cases t with
  | atom b plain =>
    intro same
    cases same
    rw [plain] at mark
    cases mark
  | form x => exact absurd trivial clear.1
  | _ => exact nofun

theorem object_nil {t : Template} (clear : t.Clear True level .tail) :
    t.object = .nil ↔ t.isNil = true := by
  cases t with
  | atom b plain => simp [object, isNil]
  | form x => exact absurd trivial clear.1
  | _ => simp [object, isNil]

theorem object_single {t : Template} (clear : t.Clear True level .tail)
    (quote : (expandCdr expandAgain t).1 = .quote) :
    t.object.isSingle = true ↔ ∃ e, t.only = some e := by
  cases t with
  | cons car cdr =>
    have empty := object_nil clear.2
    by_cases last : cdr.isNil = true
    · simp [object, Obj.isSingle, only, empty, last]
    · simp [object, Obj.isSingle, only, empty, last]
  | atom b plain => simp [object, Obj.isSingle, only]
  | form x => exact absurd trivial clear.1
  | quasi y => cases clear.1.choose_spec
  | unquote forms => cases quote
  | splice k forms => cases clear.choose_spec.1

variable {r : Expanded} {a : Kind} {ax : Obj}

theorem backqForm_reads (reads : ReadsCar slot r (a, ax)) (g : Template) :
    backqForm a ax g.object = .ok (r.1.joined, (list (operands r.1 r.2 ++ [g])).object) := by
  cases reads with
  | quote x c =>
    rw [backqForm, ← object_kwote]
    rfl
  | eval f => rfl
  | splice appends f own => obtain rfl | rfl := appends <;> rfl

theorem joined_reads (a : Kind) (ts : List Template) (g : Template) :
    ReadsCdr (a.joined, ts ++ [g]) (a.joined, (list (ts ++ [g])).object) :=
  .call (Kind.joined_call a).1 (Kind.joined_call a).2 (by simp)

theorem pairConstant_reads {x : Obj} {c : Template} (reads : ReadsCar slot r (a, ax))
    (evaluated : r.1 ≠ .quote) (empty : c.object = .nil ↔ c.isNil = true)
    (single : c.object.isSingle = true ↔ ∃ e, c.only = some e) :
    ∃ r', backqPair x a ax .quote c.object = .ok r' ∧ ReadsCdr (pairConstant r.1 r.2 c) r' := by
  have form := backqForm_reads reads c.kwote
  rw [object_kwote] at form
  cases reads with
  | quote y c => exact absurd rfl evaluated
  | eval f =>
    rw [backqPair, pairConstant]
    by_cases none : c.isNil = true
    · rw [if_pos (empty.mpr none), if_pos none, if_pos rfl, empty.mpr none]
      exact ⟨_, rfl, .call (by decide) (by decide) (by simp)⟩
    rw [if_neg (none ∘ empty.mp), if_neg none, if_pos rfl]
    cases only : c.only with
    | some e =>
      rw [if_pos (single.mpr ⟨e, only⟩)]
      rw [only_eq_some] at only
      subst only
      refine ⟨_, rfl, ?_⟩
      rw [show (list1 e).object.first = e.object from rfl, ← object_kwote]
      exact .call (by decide) (by decide) (by simp)
    | none =>
      rw [if_neg fun one => by obtain ⟨e, same⟩ := single.mp one; rw [only] at same; cases same]
      exact ⟨_, form, joined_reads .eval [f] _⟩
  | splice appends f own =>
    have step : backqPair x a f.object .quote c.object =
        if c.object = .nil then .ok (.eval, f.object) else backqForm a f.object c.object.kwote := by
      obtain rfl | rfl := appends <;> rfl
    have apart : a ≠ .eval := by obtain rfl | rfl := appends <;> decide
    rw [step, pairConstant]
    by_cases none : c.isNil = true
    · rw [if_pos (empty.mpr none), if_pos none, if_neg apart]
      exact ⟨_, rfl, .eval f⟩
    rw [if_neg (none ∘ empty.mp), if_neg none, if_neg apart]
    rw [operands, if_neg evaluated] at form
    exact ⟨_, form, joined_reads a [f] _⟩

theorem backqPair_reads {x : Obj} {r' : Expanded} {d : Kind} {dx : Obj}
    (reads : ReadsCar slot r (a, ax)) (reads' : ReadsCdr r' (d, dx)) (evaluated : r'.1 ≠ .quote) :
    ∃ out, backqPair x a ax d dx = .ok out ∧ ReadsCdr (expandPair r r') out := by
  rw [expandPair, if_neg evaluated]
  cases reads' with
  | quote y c => exact absurd rfl evaluated
  | eval g => exact ⟨_, backqForm_reads reads g, joined_reads _ _ _⟩
  | call quote eval more =>
    rename_i ts
    rw [if_neg eval]
    have form : backqForm a ax (.cons (.atom d.operator) (list ts).object) =
        .ok (r.1.joined, (list (operands r.1 r.2 ++ [call d ts])).object) :=
      backqForm_reads reads (call d ts)
    have merged (f : Template) : ReadsCdr (d, [f] ++ ts) (d, .cons f.object (list ts).object) :=
      .call quote eval (by simp)
    by_cases list : d = .list ∨ d = .listStar
    · have step : backqPair x a ax d (Template.list ts).object =
          if d = a then .ok (d, .cons ax (Template.list ts).object)
          else if a = .quote then .ok (d, .cons ax.kwote (Template.list ts).object)
          else if a = .eval then .ok (d, .cons ax (Template.list ts).object)
          else backqForm a ax (.cons (.atom d.operator) (Template.list ts).object) := by
        obtain rfl | rfl := list <;> rfl
      have merges (k : Kind) : k.merges d = (k = .quote || k = .eval) := by
        obtain rfl | rfl := list <;> rfl
      rw [step, merges]
      cases reads with
      | quote y c =>
        rw [if_neg quote, if_pos rfl, if_pos (by simp)]
        refine ⟨_, rfl, ?_⟩
        rw [← object_kwote]
        exact merged _
      | eval f =>
        rw [if_neg eval, if_neg (by decide), if_pos rfl, if_pos (by simp)]
        exact ⟨_, rfl, merged f⟩
      | splice appends f own =>
        have apart : d ≠ a ∧ a ≠ .quote ∧ a ≠ .eval := by
          obtain rfl | rfl := list <;> obtain rfl | rfl := appends <;> decide
        rw [if_neg apart.1, if_neg apart.2.1, if_neg apart.2.2, if_neg (by simp [apart])]
        exact ⟨_, form, joined_reads _ _ _⟩
    · have step : backqPair x a ax d (Template.list ts).object =
          if d = a then .ok (d, .cons ax (Template.list ts).object)
          else backqForm a ax (.cons (.atom d.operator) (Template.list ts).object) := by
        cases d <;> simp_all [backqPair]
      have merges (k : Kind) : k.merges d = (d = k : Bool) := by
        cases d <;> simp_all [Kind.merges]
      rw [step, merges]
      by_cases same : d = a
      · cases reads with
        | quote y c => exact absurd same quote
        | eval f => exact absurd same eval
        | splice appends f own =>
          rw [if_pos same, if_pos (decide_eq_true same), operands, if_neg (same ▸ quote)]
          exact ⟨_, rfl, merged f⟩
      · have first : r.1 = a := by cases reads <;> rfl
        rw [if_neg same, if_neg (by simpa [first] using same)]
        exact ⟨_, form, joined_reads _ _ _⟩

variable {n : Nat}

theorem backqCarOf_reads {d : Expansion} {car cdr : Template} {out : Kind × Obj}
    (plain : ∀ m : Atom, m.isMark = true → car.object ≠ .atom m) (answered : d = .ok out)
    (reads : ReadsCdr (expandCdr expandAgain (.cons car cdr)) out) :
    ∃ r', backqCarOf (nested n) (Template.cons car cdr).object d = .ok r' ∧
      ReadsCar slot (expandCar expandAgain (.cons car cdr)) r' := by
  rw [expandCar, expandCarOf, object, backqCarOf, if_neg (plain _ rfl), if_neg (plain _ rfl),
    if_neg (plain _ rfl), if_neg (plain _ rfl), answered]
  generalize expandCdr expandAgain (.cons car cdr) = tail at reads
  cases reads with
  | quote x c => exact ⟨_, rfl, .quote x c⟩
  | eval f => exact ⟨_, rfl, .eval f⟩
  | call quote eval more =>
    rename_i k ts
    rw [if_neg (by simp [quote, eval])]
    cases k with
    | quote => exact absurd rfl quote
    | eval => exact absurd rfl eval
    | _ => exact ⟨_, rfl, .eval (call _ ts)⟩

theorem finish_reads {x : Obj} (answered : backqCar (nested n) x = .ok (a, ax))
    (reads : ReadsCar .single r (a, ax)) : backq (nested n) x = .ok (finish r).object := by
  rw [backq, answered]
  cases reads with
  | quote y c => exact congrArg Except.ok (object_kwote c).symm
  | eval f => rfl
  | splice appends f own => cases own

theorem backq_reads (inside : ∀ y : Template, y.quasiquotes < n →
      y.Clear True 1 (.element .single) → ∀ slot,
      ∃ r', nested n y.object = .ok r' ∧ ReadsCar slot (expandAgain y) r') (t : Template) :
    t.quasiquotes ≤ n →
      (∀ slot, t.Clear True 0 (.element slot) → ∃ r', backqCar (nested n) t.object = .ok r' ∧
        ReadsCar slot (expandCar expandAgain t) r') ∧
      (t.Clear True 0 .tail → ∃ r', backqCdr (nested n) t.object = .ok r' ∧
        ReadsCdr (expandCdr expandAgain t) r') := by
  induction t with
  | atom b plain =>
    exact fun _ => ⟨fun _ _ => ⟨_, rfl, .quote _ (.atom b plain)⟩,
      fun _ => ⟨_, rfl, .quote _ (.atom b plain)⟩⟩
  | form x =>
    exact fun _ => ⟨fun _ clear => absurd trivial clear.1, fun clear => absurd trivial clear.1⟩
  | cons car cdr ihCar ihCdr =>
    intro enough
    rw [quasiquotes] at enough
    have tails (clear : (Template.cons car cdr).Clear True 0 .tail) :
        ∃ r', backqCdr (nested n) (Template.cons car cdr).object = .ok r' ∧
          ReadsCdr (expandCdr expandAgain (.cons car cdr)) r' := by
      obtain ⟨⟨k, ax⟩, first, reads⟩ := (ihCar (by omega)).1 _ clear.1
      obtain ⟨⟨d, dx⟩, rest, reads'⟩ := (ihCdr (by omega)).2 clear.2
      have plain (m : Atom) (mark : m.isMark = true) := object_ne_mark clear.1 mark
      have step : backqCdr (nested n) (Template.cons car cdr).object =
          backqPair (Template.cons car cdr).object k ax d dx := by
        rw [backqCar] at first
        rw [object, backqCdr, if_neg (plain _ rfl),
          if_neg (not_or.mpr ⟨plain _ rfl, plain _ rfl⟩), first, rest]
        rfl
      rw [step, expandCdr, ← expandCar]
      by_cases quote' : (expandCdr expandAgain cdr).1 = .quote
      · have literal := (@expandCar_quote expandAgain cdr).2 quote'
        obtain ⟨rfl, rfl⟩ : d = .quote ∧ dx = cdr.object := by
          generalize expandCdr expandAgain cdr = r' at reads' quote' literal
          cases reads' with
          | quote x c =>
            cases literal
            exact ⟨rfl, rfl⟩
          | eval g => cases quote'
          | call quote eval more => exact absurd quote' quote
        rw [expandPair, if_pos quote', literal]
        by_cases quote : (expandCar expandAgain car).1 = .quote
        · obtain ⟨c, own⟩ := (@expandCar_quote expandAgain car).1 quote
          rw [if_pos quote, own]
          generalize expandCar expandAgain car = r at reads quote
          cases reads with
          | quote x c => exact ⟨_, rfl, .quote _ (.cons car cdr)⟩
          | eval f => cases quote
          | splice appends f own => obtain rfl | rfl := appends <;> cases quote
        · rw [if_neg quote]
          exact pairConstant_reads reads quote (object_nil clear.2)
            (object_single clear.2 quote')
      · exact backqPair_reads reads reads' quote'
    refine ⟨fun slot clear => ?_, tails⟩
    obtain ⟨out, answered, reads⟩ := tails clear
    exact backqCarOf_reads (fun m mark => object_ne_mark clear.1 mark) answered reads
  | quasi y _ =>
    intro enough
    refine ⟨fun slot clear => ?_, fun clear => by cases clear.1.choose_spec⟩
    obtain ⟨r', answered, reads⟩ := inside y enough clear.2 slot
    refine ⟨r', answered, ?_⟩
    rw [expandCar, expandCarOf]
    generalize expandAgain y = r at reads
    cases reads with
    | quote x c => exact .quote _ c
    | eval f => exact .eval f
    | splice appends f own =>
      rw [expandQuasi, if_neg (by obtain rfl | rfl := appends <;> simp)]
      exact .splice appends f own
  | unquote forms _ =>
    have own {s : Slot} (fit : forms.Forms True s) : ∃ f, forms = list1 f := by
      obtain ⟨ts, rfl, one⟩ := fit
      obtain ⟨f, rfl⟩ := List.length_eq_one_iff.mp (one (.inr trivial))
      exact ⟨f, rfl⟩
    refine fun _ => ⟨?_, ?_⟩
    · rintro slot ⟨s, -, fit⟩
      obtain ⟨f, rfl⟩ := own fit
      exact ⟨_, rfl, .eval f⟩
    · rintro ⟨s, -, fit⟩
      obtain ⟨f, rfl⟩ := own fit
      exact ⟨_, rfl, .eval f⟩
  | splice k forms _ =>
    refine fun _ => ⟨?_, ?_⟩
    · rintro slot ⟨s, room, ts, rfl, one⟩
      obtain ⟨f, rfl⟩ := List.length_eq_one_iff.mp (one (.inr trivial))
      cases k with
      | splice => exact ⟨_, rfl, .splice (.inl rfl) f room⟩
      | nsplice => exact ⟨_, rfl, .splice (.inr rfl) f room⟩
    · rintro ⟨s, own, -⟩
      cases own

theorem nested_reads (n : Nat) (y : Template) : y.quasiquotes < n →
    y.Clear True 1 (.element .single) → ∀ slot,
    ∃ r', nested n y.object = .ok r' ∧ ReadsCar slot (expandAgain y) r' := by
  induction n generalizing y with
  | zero => exact fun never => absurd never (not_lt_zero _)
  | succ n inside =>
    intro enough clear slot
    obtain ⟨⟨k, o⟩, answered, reads⟩ :=
      (backq_reads inside y (le_of_lt_succ enough)).1 _ clear.outer
    have whole : backq (nested n) y.object = .ok (expand y).object := finish_reads answered reads
    obtain ⟨r', answered', reads'⟩ :=
      (backq_reads inside (expand y) (Nat.le_trans (expand_quasiquotes y) (le_of_lt_succ enough))).1
        slot (expand_clear clear slot)
    refine ⟨r', ?_, ?_⟩
    · rw [nested, whole]
      exact answered'
    · rw [expandAgain_eq]
      exact reads'

theorem quasiquote_expand {t : Template} (clear : t.Clear True 0 (.element .single))
    (enough : t.quasiquotes ≤ n) : quasiquote n t.object = .ok (expand t).object := by
  obtain ⟨⟨k, o⟩, answered, reads⟩ := (backq_reads (nested_reads n) t enough).1 _ clear
  exact finish_reads answered reads

end Template

end Ecl.Backquote
