import Ecl.Backquote.Fill

/- Evaluation of the calls in expansions. -/
namespace Ecl.Backquote

open Template

variable {σ ε : Type}

section Agreement

variable {α β γ δ : Type} {related : α → β → Prop} {run : Run σ ε α} {reference : Run σ ε β}

theorem Agrees.bind {related' : γ → δ → Prop} {k : α → Run σ ε γ} {k' : β → Run σ ε δ}
    (first : Agrees related run reference)
    (rest : ∀ a b, related a b → Agrees related' (k a) (k' b)) :
    Agrees related' (run >>= k) (reference >>= k') := by
  intro s
  have own := first s
  rw [bind_apply, bind_apply]
  rcases result : reference s with ⟨e | b, s'⟩
  · rw [result] at own
    rcases own with fault | same
    · exact .inl fault
    · rw [same]
      exact .inr rfl
  · rw [result] at own
    obtain ⟨a, same, rel⟩ := own
    rw [same]
    exact rest a b rel s'

theorem Agrees.pure {a : α} {b : β} (rel : related a b) :
    Agrees related (Pure.pure a : Run σ ε α) (Pure.pure b) :=
  fun _ => ⟨a, rfl, rel⟩

theorem Agrees.refl (run : Run σ ε α) : Agrees Eq run run := by
  intro s
  rcases run s with ⟨e | a, s'⟩
  · exact .inr rfl
  · exact ⟨a, rfl, rfl⟩

theorem Agrees.map {related' : γ → δ → Prop} {f : α → γ} {g : β → δ}
    (agrees : Agrees related run reference) (rel : ∀ a b, related a b → related' (f a) (g b)) :
    Agrees related' (f <$> run) (g <$> reference) := by
  rw [map_eq_pure_bind, map_eq_pure_bind]
  exact agrees.bind fun a b same => .pure (rel a b same)

theorem Agrees.mono {related' : α → β → Prop} (agrees : Agrees related run reference)
    (rel : ∀ a b, related a b → related' a b) : Agrees related' run reference := by
  have whole := agrees.map (f := id) (g := id) rel
  rwa [id_map, id_map] at whole

theorem Agrees.results {related : α → γ → Prop} {related' : α → δ → Prop} {f : β → γ} {g : β → δ}
    (agrees : Agrees related run (f <$> reference))
    (rel : ∀ a b, (∃ s s', reference s = (.ok b, s')) → related a (f b) → related' a (g b)) :
    Agrees related' run (g <$> reference) := by
  intro s
  have own := agrees s
  rw [map_apply] at own ⊢
  rcases result : reference s with ⟨e | b, s'⟩
  · rw [result] at own
    exact own
  · rw [result] at own
    obtain ⟨a, same, related⟩ := own
    exact ⟨a, same, rel a b ⟨s, s', result⟩ related⟩

theorem Agrees.of_map {f : α → γ} {related : γ → β → Prop}
    (agrees : Agrees related (f <$> run) reference) :
    Agrees (fun a b => related (f a) b) run reference := by
  intro s
  have own := agrees s
  rw [map_apply] at own
  rcases result : reference s with ⟨e | b, s'⟩
  · rw [result] at own
    refine own.imp_right fun same => ?_
    rcases result' : run s with ⟨e' | a, s''⟩ <;> rw [result'] at same <;> cases same
    rfl
  · rw [result] at own
    obtain ⟨c, same, rel⟩ := own
    rcases result' : run s with ⟨e' | a, s''⟩ <;> rw [result'] at same <;> cases same
    exact ⟨a, rfl, rel⟩

theorem Agrees.of_fault {run' : Run σ ε α} (agrees : Agrees related run reference)
    (same : ∀ s, run' s = run s ∨ ∃ s', run s = (.error .notList, s')) :
    Agrees related run' reference := by
  intro s
  have own := agrees s
  rcases same s with same | ⟨s', fault⟩
  · rw [same]
    exact own
  · rw [fault] at own
    rcases result : reference s with ⟨e | b, s''⟩
    · rw [result] at own
      rcases own with excused | never
      · exact .inl excused
      · exact .inl (Except.error.inj (Prod.mk.inj never).1).symm
    · rw [result] at own
      obtain ⟨a, never, -⟩ := own
      cases never

theorem Agrees.late {ζ : Type} {x : Run σ ε γ} {f : γ → Option δ} {tail : Run σ ε ζ}
    {g : ζ → δ → α}
    (early : Agrees related (do
      let a ← x
      let b ← Run.ofOption (f a)
      let t ← tail
      return g t b) reference) :
    Agrees related (do
      let a ← x
      let t ← tail
      Run.ofOption ((f a).map (g t))) reference := by
  refine early.of_fault fun s => ?_
  rw [bind_apply, bind_apply]
  rcases x s with ⟨e | a, s'⟩
  · exact .inl rfl
  · cases found : f a with
    | some b =>
      refine .inl ?_
      simp only [found]
      rfl
    | none =>
      refine .inr ⟨s', ?_⟩
      simp only [found]
      rfl

end Agreement

section Calls

variable {user : Obj → Run σ ε Obj}

theorem eval_kwote (x : Obj) : eval user x.kwote = pure x := by
  cases x with
  | cons car cdr => rfl
  | atom a => cases a <;> rfl

theorem eval_list (args : Obj) : eval user (.cons (.atom .list) args) = do
    let vs ← evalArgs user args
    return listOf vs := by
  rw [eval, if_neg (by decide), if_pos (by decide)]
  rfl

theorem eval_listStar (args : Obj) : eval user (.cons (.atom .listStar) args) = do
    let vs ← evalArgs user args
    return listStarOf vs := by
  rw [eval, if_neg (by decide), if_pos (by decide)]
  rfl

variable {op : Atom}

theorem eval_append (appends : op = .append ∨ op = .nconc) (args : Obj) :
    eval user (.cons (.atom op) args) = (do
      let vs ← evalArgs user args
      Run.ofOption (appendOf vs)) := by
  obtain rfl | rfl := appends
  · rw [eval, if_neg (by decide), if_pos (by decide)]
    rfl
  · rw [eval, if_neg (by decide), if_pos (by decide)]
    rfl

theorem evalArgs_cons (f args : Obj) : evalArgs user (.cons f args) = do
    let v ← eval user f
    let vs ← evalArgs user args
    return v :: vs := by
  rw [evalArgs]

theorem evalArgs_nil : evalArgs user .nil = pure [] := by
  rw [evalArgs, if_pos rfl]

theorem evalArgs_list_cons (t : Template) (ts : List Template) :
    evalArgs user (list (t :: ts)).object = do
      let v ← eval user t.object
      let vs ← evalArgs user (list ts).object
      return v :: vs :=
  evalArgs_cons _ _

theorem ofOption_bind {α β : Type} (o : Option α) (k : α → Option β) :
    (Run.ofOption (o.bind k) : Run σ ε β) = Run.ofOption o >>= fun a => Run.ofOption (k a) := by
  cases o with
  | none => rfl
  | some a => simp only [Option.bind_some, Run.ofOption, pure_bind]

variable {k : Kind} {ts us : List Template}

theorem eval_listing (lists : k = .list ∨ k = .listStar) (more : k = .list ∨ us ≠ []) :
    eval user (call k (ts ++ us)).object = do
      let vs ← evalArgs user (list ts).object
      let t ← eval user (call k us).object
      return vs.foldr .cons t := by
  induction ts with
  | nil => simp [list, before, object, evalArgs_nil]
  | cons t ts ih =>
    have step : eval user (call k (t :: (ts ++ us))).object = do
        let v ← eval user t.object
        let rest ← eval user (call k (ts ++ us)).object
        return .cons v rest := by
      obtain rfl | rfl := lists
      · change eval user (.cons (.atom .list) (.cons t.object (list (ts ++ us)).object)) = do
          let v ← eval user t.object
          let rest ← eval user (.cons (.atom .list) (list (ts ++ us)).object)
          return .cons v rest
        simp only [eval_list, evalArgs_cons, bind_assoc, pure_bind, listOf]
      · obtain ⟨u, rest, same⟩ := List.exists_cons_of_ne_nil
          (List.append_ne_nil_of_right_ne_nil ts (more.resolve_left (by decide)))
        rw [same]
        change eval user
          (.cons (.atom .listStar) (.cons t.object (.cons u.object (list rest).object))) = do
          let v ← eval user t.object
          let rest ← eval user (.cons (.atom .listStar) (.cons u.object (list rest).object))
          return .cons v rest
        simp only [eval_listStar, evalArgs_cons, bind_assoc, pure_bind, listStarOf]
    rw [List.cons_append, step, ih, evalArgs_list_cons]
    simp only [bind_assoc, pure_bind, List.foldr_cons]

theorem eval_appending (appends : k = .append ∨ k = .nconc) (more : us ≠ []) :
    eval user (call k (ts ++ us)).object = (do
      let vs ← evalArgs user (list ts).object
      let t ← eval user (call k us).object
      Run.ofOption ((vs.mapM elements).map fun lists => lists.flatten.foldr .cons t)) := by
  have operator : k.operator = .append ∨ k.operator = .nconc := by
    obtain rfl | rfl := appends
    · exact .inl rfl
    · exact .inr rfl
  induction ts with
  | nil => simp [list, before, object, evalArgs_nil, Run.ofOption]
  | cons t ts ih =>
    have step : eval user (call k (t :: (ts ++ us))).object = (do
        let v ← eval user t.object
        let rest ← eval user (call k (ts ++ us)).object
        Run.ofOption ((elements v).map fun values => values.foldr .cons rest)) := by
      obtain ⟨u, rest, same⟩ := List.exists_cons_of_ne_nil
        (List.append_ne_nil_of_right_ne_nil ts more)
      rw [same]
      change eval user
        (.cons (.atom k.operator) (.cons t.object (.cons u.object (list rest).object))) = (do
        let v ← eval user t.object
        let rest ← eval user (.cons (.atom k.operator) (.cons u.object (list rest).object))
        Run.ofOption ((elements v).map fun values => values.foldr .cons rest))
      simp only [eval_append operator, evalArgs_cons, bind_assoc, pure_bind, appendOf]
      refine bind_congr fun v => bind_congr fun w => bind_congr fun vs => ?_
      cases elements v <;> cases appendOf (w :: vs) <;> rfl
    rw [List.cons_append, step, ih, evalArgs_list_cons]
    simp only [bind_assoc, pure_bind]
    refine bind_congr fun v => bind_congr fun vs => bind_congr fun t => ?_
    rw [List.mapM_cons]
    cases elements v <;> cases List.mapM elements vs <;> simp [Run.ofOption]

end Calls

end Ecl.Backquote
