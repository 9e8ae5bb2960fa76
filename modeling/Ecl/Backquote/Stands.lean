import Ecl.Backquote.Reader
import Ecl.Backquote.Value

/- What the expansions of clear templates evaluate to. -/
namespace Ecl.Backquote

open Template

variable {σ ε : Type}

open List (Forall₂)

abbrev Copied : Obj → Template → Prop := Copy expand Good

variable {user : Obj → Run σ ε Obj} {slot : Slot} {r r' : Expanded}

variable (user) in
/-- What an element is expanded to stands for its values. -/
inductive StandsCar (slot : Slot) : Expanded → Part σ ε (List Template) → Prop where
  | quote {c t : Template} : Copied c.object t → StandsCar slot (.quote, [t, c]) (.constant [t])
  | eval {fs : List Template} {m : Run σ ε (List Template)} :
      (slot = .single → ∃ f, fs = [f]) →
      Agrees (Forall₂ Copied) (evalArgs user (list fs).object) m →
      StandsCar slot (.eval, fs) (.run m)
  | splice {k : Kind} (appends : k = .append ∨ k = .nconc) {fs : List Template}
      {m : Run σ ε (List Template)} {s : Slot} :
      (Place.element slot).spliced = some s → (s = .single → ∃ f, fs = [f]) →
      Agrees (Forall₂ Copied) (do
        let vs ← evalArgs user (list fs).object
        let lists ← Run.ofOption (vs.mapM elements)
        return lists.flatten) m →
      StandsCar slot (k, fs) (.run m)

variable (user) in
/-- What a tail is expanded to stands for its value. -/
inductive StandsCdr : Expanded → Part σ ε (List Template) → Prop where
  | quote (t : Template) : StandsCdr (.quote, [t, t]) (.constant [t])
  | eval {f : Template} {m : Run σ ε (List Template)} :
      Agrees (Copies expand Good) (eval user f.object) m → StandsCdr (.eval, [f]) (.run m)
  | call {k : Kind} {ts : List Template} {m : Run σ ε (List Template)}
      (quote : k ≠ .quote) (eval : k ≠ .eval) (more : k = .list ∨ ts ≠ []) :
      Agrees (Copies expand Good) (Ecl.Backquote.eval user (call k ts).object) m →
      StandsCdr (k, ts) (.run m)

theorem StandsCdr.copied {p : Part σ ε (List Template)} (stands : StandsCdr user r p)
    (quote : r.1 = .quote) : ∃ t, p = .constant [t] := by
  cases stands with
  | quote t => exact ⟨t, rfl⟩
  | eval agrees => cases quote
  | call apart eval more agrees => exact absurd quote apart

theorem copies_before {vs : List Obj} {ts : List Template} (copies : Forall₂ Copied vs ts)
    {v : Obj} {tails : List Template} (tail : Copies expand Good v tails) :
    Copies expand Good (vs.foldr .cons v) (tails.map (before ts)) := by
  obtain ⟨t, rfl, copy⟩ := tail
  refine ⟨_, rfl, ?_⟩
  induction copies with
  | nil => exact copy
  | cons first _ ih => exact .cons first ih

theorem copies_iff {v : Obj} {values : List Template} :
    Copies expand Good v values ↔ Forall₂ Copied [v] values := by
  constructor
  · rintro ⟨t, rfl, copy⟩
    exact .cons copy .nil
  · intro copies
    cases copies with
    | cons copy rest =>
      cases rest
      exact ⟨_, rfl, copy⟩

variable {m : Run σ ε (List Template)} {p q : Part σ ε (List Template)}

theorem agrees_single {f : Template} : Agrees (Copies expand Good) (eval user f.object) m ↔
    Agrees (Forall₂ Copied) (evalArgs user (list [f]).object) m := by
  rw [show (list [f]).object = .list1 f.object from rfl, evalArgs_single]
  refine ⟨fun agrees => ?_, fun agrees => agrees.of_map.mono fun _ _ => copies_iff.mpr⟩
  rw [← id_map m]
  exact agrees.map fun _ _ => copies_iff.mp

theorem Kind.appending_apart {k : Kind} (appends : k = .append ∨ k = .nconc) :
    k ≠ .quote ∧ k ≠ .eval ∧ k ≠ .list := by
  obtain rfl | rfl := appends <;> decide

theorem StandsCar.operand (stands : StandsCar user slot r p) (kind : r.1 = .quote ∨ r.1 = .eval) :
    Agrees (Forall₂ Copied) (evalArgs user (list (operands r.1 r.2)).object) p.value := by
  cases stands with
  | quote copy =>
    rename_i c t
    have quoted : evalArgs user (list [c.kwote]).object = pure [c.object] := by
      rw [evalArgs_list_cons, object_kwote, eval_kwote]
      simp [list, before, object, evalArgs_nil]
    exact quoted ▸ .pure (.cons copy .nil)
  | eval few agrees => exact agrees
  | splice appends own few agrees =>
    exact absurd kind (not_or.mpr ⟨(Kind.appending_apart appends).1,
      (Kind.appending_apart appends).2.1⟩)

/-- The calls that an element is put in front of the arguments of. -/
def Kind.Takes (a k : Kind) : Prop :=
  (a = .quote ∨ a = .eval) ∧ (k = .list ∨ k = .listStar) ∨ k = a ∧ (k = .append ∨ k = .nconc)

theorem standsCar_call (stands : StandsCar user slot r p) {k : Kind} {us : List Template}
    (takes : r.1.Takes k) (more : k = .list ∨ us ≠ [])
    (tail : Agrees (Copies expand Good) (eval user (call k us).object) q.value) :
    Agrees (Copies expand Good) (eval user (call k (operands r.1 r.2 ++ us)).object)
      (Part.map₂ (fun values tails => tails.map (before values)) p q).value := by
  rw [Part.value_map₂]
  rcases takes with ⟨kind, lists⟩ | ⟨same, appends⟩
  · rw [eval_listing lists more]
    exact (stands.operand kind).bind fun vs ts copies =>
      tail.bind fun v tails copy => .pure (copies_before copies copy)
  · rw [eval_appending appends (more.resolve_left (Kind.appending_apart appends).2.2)]
    refine .late ?_
    cases stands with
    | quote copy => subst same; simp at appends
    | eval few agrees => subst same; simp at appends
    | splice _ own few agrees =>
      have apart := (Kind.appending_apart appends).1
      have whole := agrees.bind fun vs ts copies =>
        tail.bind fun v tails copy => .pure (copies_before copies copy)
      simp only [bind_assoc, pure_bind] at whole
      rw [operands, if_neg (same ▸ apart)]
      exact whole

theorem StandsCar.takes (stands : StandsCar user slot r p) : r.1.Takes r.1.joined := by
  cases stands with
  | quote copy => exact .inl ⟨.inl rfl, .inr rfl⟩
  | eval few agrees => exact .inl ⟨.inr rfl, .inr rfl⟩
  | splice appends own few agrees =>
    obtain rfl | rfl := appends
    · exact .inr ⟨rfl, .inl rfl⟩
    · exact .inr ⟨rfl, .inr rfl⟩

theorem eval_call_single (a : Kind) (g : Template) :
    eval user (call a.joined [g]).object = eval user g.object := by
  cases a <;>
    simp only [call, Kind.joined, Kind.operator, object, list, before, List.foldr_cons,
      List.foldr_nil]
  all_goals
    first
    | rw [eval_listStar, evalArgs_single]
    | rw [eval_append (.inl rfl), evalArgs_single]
    | rw [eval_append (.inr rfl), evalArgs_single]
  all_goals simp [listStarOf, appendOf, Run.ofOption]

theorem standsCar_joined (stands : StandsCar user slot r p) {g : Template}
    (tail : Agrees (Copies expand Good) (eval user g.object) q.value) :
    Agrees (Copies expand Good) (eval user (call r.1.joined (operands r.1 r.2 ++ [g])).object)
      (Part.map₂ (fun values tails => tails.map (before values)) p q).value :=
  standsCar_call stands stands.takes (.inr nofun) (by rwa [eval_call_single])

theorem standsCdr_joined (stands : StandsCar user slot r p) {g : Template}
    (tail : Agrees (Copies expand Good) (eval user g.object) q.value)
    (run : ∃ m : Run σ ε (List Template),
      Part.map₂ (fun values tails => tails.map (before values)) p q = .run m) :
    StandsCdr user (r.1.joined, operands r.1 r.2 ++ [g])
      (Part.map₂ (fun values tails => tails.map (before values)) p q) := by
  obtain ⟨m, whole⟩ := run
  have joined := standsCar_joined stands tail
  rw [whole] at joined ⊢
  exact .call (Kind.joined_call _).1 (Kind.joined_call _).2 (.inr (by simp)) joined

theorem foldr_elements {v : Obj} : ∀ {vs : List Obj}, elements v = some vs →
    vs.foldr .cons .nil = v := by
  induction v with
  | atom a =>
    intro vs found
    rw [elements] at found
    split at found <;> cases found
    rename_i same
    rw [same]
    rfl
  | cons w v _ ih =>
    intro vs found
    obtain ⟨ws, rest, rfl⟩ := Option.map_eq_some_iff.mp found
    exact congrArg (Obj.cons w) (ih rest)

/-- A list that is spliced in front of the end of another one is the rest of it, and nothing checks
that it is a list. -/
theorem spliced_last {f : Template}
    (agrees : Agrees (Forall₂ Copied) (do
      let vs ← evalArgs user (list [f]).object
      let lists ← Run.ofOption (vs.mapM elements)
      return lists.flatten) m) :
    Agrees (Copies expand Good) (eval user f.object)
      ((fun values => [before values nil]) <$> m) := by
  have whole : Agrees (Copies expand Good) ((List.foldr Obj.cons .nil) <$> _) _ :=
    agrees.map fun vs ts copies => copies_before copies ⟨nil, rfl, .same nil⟩
  refine whole.of_fault fun s => ?_
  rw [show (list [f]).object = .list1 f.object from rfl, evalArgs_single, map_apply, bind_apply,
    map_apply]
  rcases eval user f.object s with ⟨e | v, s'⟩
  · exact .inl rfl
  · cases found : elements v with
    | none =>
      refine .inr ⟨s', ?_⟩
      simp [found, Run.ofOption, bind_apply]
      rfl
    | some vs =>
      refine .inl ?_
      simp only [List.mapM_cons, List.mapM_nil, found, Run.ofOption, Option.pure_def,
        Option.bind_eq_bind, Option.bind_some, pure_bind, List.flatten_cons, List.flatten_nil,
        List.append_nil]
      exact congrArg (fun v => (Except.ok v, s')) (foldr_elements found).symm

theorem pairConstant_stands {c : Template} (evaluated : r.1 ≠ .quote)
    (stands : StandsCar user (if c.isNil then .last else .followed) r p) :
    StandsCdr user (pairConstant r.1 r.2 c)
      (Part.map₂ (fun values tails => tails.map (before values)) p (.constant [c])) := by
  have quoted : Agrees (σ := σ) (ε := ε) (Copies expand Good) (pure c.object) (pure [c]) :=
    .pure ⟨c, rfl, .same c⟩
  have kwoted : Agrees (Copies expand Good) (eval user c.kwote.object)
      (Part.constant (σ := σ) (ε := ε) [c]).value := by
    rw [object_kwote, eval_kwote]
    exact quoted
  have joined := standsCar_joined stands kwoted
  cases stands with
  | quote copy => exact absurd rfl evaluated
  | eval few agrees =>
    rename_i fs m
    have before (us : List Template) (whole : eval user (call .list us).object = pure c.object) :
        Agrees (Copies expand Good) (eval user (call .list (fs ++ us)).object)
          ((fun values => [before values c]) <$> m) := by
      rw [eval_listing (.inl rfl) (.inl rfl), whole]
      simp only [pure_bind]
      exact agrees.map fun vs ts copies => copies_before copies ⟨c, rfl, .same c⟩
    have listed {us : List Template} (whole : eval user (call .list us).object = pure c.object) :
        StandsCdr user (.list, fs ++ us)
          (Part.map₂ (fun values tails => tails.map (Template.before values)) (.run m)
            (.constant [c])) := by
      rw [Part.map₂_constant_right]
      exact .call (by decide) (by decide) (.inl rfl) (before us whole)
    rw [pairConstant]
    by_cases empty : c.isNil = true
    · rw [if_pos empty, if_pos rfl, ← List.append_nil fs]
      refine listed ?_
      rw [isNil_iff.mp empty]
      exact eval_list .nil
    · rw [if_neg empty, if_pos rfl]
      cases only : c.only with
      | some e =>
        refine listed ?_
        rw [only_eq_some.mp only]
        change eval user (.cons (.atom .list) (.list1 e.kwote.object)) = pure (.cons e.object .nil)
        rw [eval_list, evalArgs_single, object_kwote, eval_kwote]
        rfl
      | none =>
        exact .call (by decide) (by decide) (.inr (by simp)) joined
  | splice appends own few agrees =>
    rename_i k fs m s
    obtain ⟨quote, eval, -⟩ := Kind.appending_apart appends
    rw [pairConstant]
    by_cases empty : c.isNil = true
    · rw [if_pos empty] at own
      cases own
      obtain ⟨f, rfl⟩ := few rfl
      rw [if_pos empty, if_neg eval, isNil_iff.mp empty, Part.map₂_constant_right]
      exact .eval (spliced_last agrees)
    · rw [if_neg empty, if_neg eval]
      refine .call (Kind.joined_call _).1 (Kind.joined_call _).2 (.inr (by simp)) ?_
      rw [operands, if_neg quote] at joined
      exact joined

theorem expandPair_stands {car cdr : Template}
    (stands : StandsCar user (if cdr.isNil then .last else .followed) (expandCar expandAgain car) p)
    (stands' : StandsCdr user (expandCdr expandAgain cdr) q)
    (copied : (expandCdr expandAgain cdr).1 = .quote → q = .constant [cdr]) :
    StandsCdr user (expandCdr expandAgain (.cons car cdr))
      (Part.map₂ (fun values tails => tails.map (before values)) p q) := by
  rw [expandCdr, ← expandCar]
  have literal := (@expandCar_quote expandAgain cdr).2
  generalize expandCdr expandAgain cdr = r' at stands' copied literal
  generalize expandCar expandAgain car = r at stands
  have run : r'.1 ≠ .quote → ∃ m : Run σ ε (List Template),
      Part.map₂ (fun values tails => tails.map (before values)) p q = .run m := by
    intro evaluated
    cases stands' with
    | quote copy => exact absurd rfl evaluated
    | eval agrees => exact Part.map₂_run _ p _
    | call quote eval more agrees => exact Part.map₂_run _ p _
  unfold expandPair
  by_cases quote' : r'.1 = .quote
  · rw [if_pos quote', literal quote', copied quote']
    by_cases quote : r.1 = .quote
    · rw [if_pos quote]
      cases stands with
      | quote copy => exact .quote (.cons _ cdr)
      | eval few agrees => cases quote
      | splice appends own few agrees => exact absurd quote (Kind.appending_apart appends).1
    · rw [if_neg quote]
      exact pairConstant_stands quote stands
  · rw [if_neg quote']
    cases stands' with
    | quote => exact absurd rfl quote'
    | eval agrees =>
      rw [if_pos rfl]
      exact standsCdr_joined (q := .run _) stands agrees (run quote')
    | call quote eval more agrees =>
      rename_i k ts m'
      rw [if_neg eval]
      by_cases merges : r.1.merges k = true
      · rw [if_pos merges]
        have takes : r.1.Takes k := by
          cases k <;> simp_all [Kind.merges, Kind.Takes]
        have merged := standsCar_call (q := .run m') stands takes more agrees
        obtain ⟨m, whole⟩ := run quote'
        rw [whole] at merged ⊢
        exact .call quote eval (more.imp_right fun more => by simp [more]) merged
      · rw [if_neg merges]
        exact standsCdr_joined (q := .run _) stands agrees (run quote')

theorem asElement_stands {d : Expanded} (stands : StandsCdr user d p) :
    StandsCar user slot (asElement d) p := by
  cases stands with
  | quote t => exact .quote (.same t)
  | eval agrees => exact .eval (fun _ => ⟨_, rfl⟩) (agrees_single.mp agrees)
  | call quote eval more agrees =>
    rw [asElement, if_neg (not_or.mpr ⟨quote, eval⟩)]
    exact .eval (fun _ => ⟨_, rfl⟩) (agrees_single.mp agrees)

variable {fromReader : Prop} {limit : Nat} {y : Template}

theorem expandQuasi_stands (clear : y.Clear fromReader 1 (.element .single))
    (stands : StandsCar user slot (expandAgain y) ((expand y).read user 0)) :
    StandsCar user slot (expandCar expandAgain (.quasi y)) (y.quasi.read user 0) := by
  have good : (y.fill user 0).Always Good := clear.fill
  rw [expand_filled clear] at stands
  rw [expandCar, expandCarOf, expandQuasi, Template.read, clear.read_succ]
  generalize expandAgain y = r at stands
  cases filled : y.fill user 0 with
  | constant t =>
    have same : t = y := by
      have whole : y.read user 1 = .constant [t] := by
        rw [clear.read_succ, filled]
        rfl
      exact (List.cons.inj (read_constant whole)).1
    subst same
    rw [filled] at stands
    cases stands with
    | quote copy => exact .quote (.expanded clear.outer.any copy)
  | run m =>
    rw [filled] at stands good
    have copied {forms : Run σ ε (List Obj)}
        (agrees : Agrees (Forall₂ Copied) forms ((fun t => [expand t]) <$> m)) :
        Agrees (Forall₂ Copied) forms ((fun t => [quasi t]) <$> m) :=
      agrees.results fun vs t result copies => by
        cases copies with
        | cons copy rest =>
          exact .cons (.expanded (good _ t _ result.choose_spec.choose_spec) copy) rest
    rw [Part.map_map]
    cases stands with
    | eval few agrees => exact .eval few (copied agrees)
    | splice appends own few agrees =>
      rw [if_neg (Kind.appending_apart appends).1]
      exact .splice appends own few (copied agrees)

theorem copies_form (vs : List Obj) : Forall₂ Copied vs (vs.map form) := by
  induction vs with
  | nil => exact .nil
  | cons v vs ih => exact .cons (.same (form v)) ih

theorem agrees_form {m : Run σ ε (List Obj)} : Agrees (Forall₂ Copied) m (do
    let vs ← m
    return vs.map form) := by
  have whole : Agrees (Forall₂ Copied) (m >>= pure) (m >>= fun vs => pure (vs.map form)) :=
    (Agrees.refl m).bind fun vs vs' same => by
      subst same
      exact .pure (copies_form vs)
  rwa [bind_pure] at whole

theorem expand_stands (inside : ∀ y : Template, y.quasiquotes < limit →
      ∀ slot, y.Clear fromReader 0 (.element slot) →
      StandsCar user slot (expandCar expandAgain y) (y.read user 0)) (t : Template) :
    t.quasiquotes ≤ limit →
      (∀ slot, t.Clear fromReader 0 (.element slot) →
        StandsCar user slot (expandCar expandAgain t) (t.read user 0)) ∧
      (t.Clear fromReader 0 .tail →
        StandsCdr user (expandCdr expandAgain t) (t.read user 0)) := by
  induction t with
  | atom a plain => exact fun _ => ⟨fun _ _ => .quote (.same _), fun _ => .quote _⟩
  | form x => exact fun _ => ⟨fun _ _ => .quote (.same _), fun _ => .quote _⟩
  | cons car cdr ihCar ihCdr =>
    intro enough
    rw [quasiquotes] at enough
    have tails (clear : (Template.cons car cdr).Clear fromReader 0 .tail) :
        StandsCdr user (expandCdr expandAgain (.cons car cdr))
          ((Template.cons car cdr).read user 0) := by
      have rest := (ihCdr (by omega)).2 clear.2
      refine expandPair_stands ((ihCar (by omega)).1 _ clear.1) rest fun quote => ?_
      obtain ⟨t, copied⟩ := rest.copied quote
      rw [copied, read_constant copied]
    refine ⟨fun slot clear => ?_, tails⟩
    rw [expandCar_eq_asElement]
    exact asElement_stands (tails clear)
  | quasi y _ =>
    refine fun enough => ⟨fun slot clear => ?_, fun clear => by cases clear.1.choose_spec⟩
    refine expandQuasi_stands clear.2 ?_
    rw [expandAgain_eq]
    exact inside _ (Nat.lt_of_le_of_lt (expand_quasiquotes y) enough) slot
      (expand_clear clear.2 slot)
  | unquote forms _ =>
    refine fun _ => ⟨?_, ?_⟩
    · rintro slot ⟨s, own, ts, rfl, one⟩
      cases own
      rw [expandCar, expandCarOf, toList_list]
      exact .eval (fun single => List.length_eq_one_iff.mp (one (.inl single))) agrees_form
    · rintro ⟨s, own, ts, rfl, one⟩
      cases own
      obtain ⟨f, rfl⟩ := List.length_eq_one_iff.mp (one (.inl rfl))
      exact .eval (agrees_single.mpr agrees_form)
  | splice k forms _ =>
    refine fun _ => ⟨?_, ?_⟩
    · rintro slot ⟨s, own, ts, rfl, one⟩
      have appends : k.kind = .append ∨ k.kind = .nconc := by
        cases k
        · exact .inl rfl
        · exact .inr rfl
      have spliced := agrees_form (m := do
        let vs ← evalArgs user (list ts).object
        let lists ← Run.ofOption (vs.mapM elements)
        return lists.flatten)
      simp only [bind_assoc, pure_bind] at spliced
      rw [expandCar, expandCarOf, toList_list]
      exact .splice appends own (fun single => List.length_eq_one_iff.mp (one (.inl single)))
        spliced
    · rintro ⟨s, own, -⟩
      cases own

theorem finish_stands (stands : StandsCar user .single r p) :
    Agrees (Copies expand Good) (eval user (finish r).object) p.value := by
  cases stands with
  | quote copy =>
    rw [finish, if_pos rfl, object_kwote, eval_kwote]
    exact .pure ⟨_, rfl, copy⟩
  | eval few agrees =>
    obtain ⟨f, rfl⟩ := few rfl
    exact agrees_single.mpr agrees
  | splice appends own few agrees => cases own

theorem stands_all (limit : Nat) (y : Template) : y.quasiquotes < limit →
    ∀ slot, y.Clear fromReader 0 (.element slot) →
      StandsCar user slot (expandCar expandAgain y) (y.read user 0) := by
  induction limit generalizing y with
  | zero => exact fun never => absurd never (Nat.not_lt_zero _)
  | succ limit inside => exact fun enough => (expand_stands inside y (Nat.le_of_lt_succ enough)).1

theorem expand_value {t : Template} (clear : t.Clear fromReader 0 (.element .single)) :
    Agrees (Copies expand Good) (eval user (expand t).object) (t.read user 0).value :=
  finish_stands (stands_all _ t (Nat.lt_succ_self _) _ clear)

end Ecl.Backquote
