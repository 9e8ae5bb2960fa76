import Ecl.Lambda.ProcessList

/- A lambda list has at most one division into sections. -/
namespace Ecl.Lambda

open List Option Prod

/-- No lambda list keyword. -/
def Obj.Plain (v : Obj) : Prop := ∀ k, v ≠ .keyword k

/-- Nothing, or something that begins with a lambda list keyword. -/
def Headed (xs : List Obj) : Prop := ∀ v ∈ xs.head?, ∃ k, v = .keyword k

@[simp] theorem headed_nil : Headed [] := by simp [Headed]

@[simp] theorem headed_cons (v : Obj) (xs : List Obj) :
    Headed (v :: xs) ↔ ∃ k, v = .keyword k := by simp [Headed]

theorem headed_append {xs ys : List Obj} (hxs : Headed xs) (hys : Headed ys) :
    Headed (xs ++ ys) := by
  cases xs with
  | nil => exact hys
  | cons x xs => simpa using hxs

theorem plain_append_unique {xs xs' ys ys' : List Obj} (hxs : ∀ v ∈ xs, v.Plain)
    (hxs' : ∀ v ∈ xs', v.Plain) (hys : Headed ys) (hys' : Headed ys')
    (same : xs ++ ys = xs' ++ ys') : xs = xs' ∧ ys = ys' := by
  induction xs generalizing xs' with
  | nil =>
    cases xs' with
    | nil => exact ⟨rfl, same⟩
    | cons x' xs' =>
      rw [nil_append] at same
      subst same
      obtain ⟨k, hk⟩ := (headed_cons x' (xs' ++ ys')).mp hys
      exact absurd hk (hxs' x' (by simp) k)
  | cons x xs ih =>
    cases xs' with
    | nil =>
      rw [nil_append] at same
      subst same
      obtain ⟨k, hk⟩ := (headed_cons x (xs ++ ys)).mp hys'
      exact absurd hk (hxs x (by simp) k)
    | cons x' xs' =>
      simp only [cons_append, List.cons.injEq] at same
      have rest := ih (fun v hv => hxs v (by simp [hv])) (fun v hv => hxs' v (by simp [hv])) same.2
      exact ⟨by rw [same.1, rest.1], rest.2⟩

/-- Where the object of an entry says what the entry is, the objects of some entries say it. -/
theorem map_unique {α : Type} {object : α → Obj} {W : α → Prop}
    (one : ∀ a b, W a → W b → object a = object b → a = b) {as bs : List α}
    (has : ∀ a ∈ as, W a) (hbs : ∀ b ∈ bs, W b) (same : as.map object = bs.map object) :
    as = bs := by
  induction as generalizing bs with
  | nil => simpa using same.symm
  | cons a as ih =>
    cases bs with
    | nil => simp at same
    | cons b bs =>
      simp only [map_cons, List.cons.injEq] at same
      rw [one a b (has a (by simp)) (hbs b (by simp)) same.1,
        ih (fun a ha => has a (by simp [ha])) (fun b hb => hbs b (by simp [hb])) same.2]

section

variable {h : Heap}

@[simp] theorem Heap.segment_nil {l l' : Obj} : h.Segment l [] l' ↔ l = l' := Iff.rfl

@[simp] theorem Heap.segment_cons {l l' x : Obj} {xs : List Obj} :
    h.Segment l (x :: xs) l' ↔ ∃ a, l = .cons a ∧ h.car a = x ∧ h.Segment (h.cdr a) xs l' :=
  Iff.rfl

theorem Heap.segment_append {l l' : Obj} {xs ys : List Obj} :
    h.Segment l (xs ++ ys) l' ↔ ∃ m, h.Segment l xs m ∧ h.Segment m ys l' := by
  induction xs generalizing l with
  | nil => simp
  | cons x xs ih =>
    simp only [cons_append, segment_cons, ih]
    constructor
    · rintro ⟨a, hl, hx, m, h1, h2⟩
      exact ⟨m, ⟨a, hl, hx, h1⟩, h2⟩
    · rintro ⟨m, ⟨a, hl, hx, h1⟩, h2⟩
      exact ⟨a, hl, hx, m, h1, h2⟩

theorem Heap.listOf_unique {l : Obj} {xs ys : List Obj} (hx : h.ListOf l xs)
    (hy : h.ListOf l ys) : xs = ys := by
  induction xs generalizing l ys with
  | nil =>
    cases ys with
    | nil => rfl
    | cons y ys => simp_all [ListOf]
  | cons x xs ih =>
    cases ys with
    | nil => simp_all [ListOf]
    | cons y ys =>
      obtain ⟨a, rfl, rfl, hx⟩ := hx
      obtain ⟨b, hb, rfl, hy⟩ := hy
      cases hb
      rw [ih hx hy]

theorem Heap.not_listOf_atom {l x : Obj} {xs : List Obj} (atom : ∀ a, l ≠ .cons a) :
    ¬h.ListOf l (x :: xs) := by
  intro hl
  obtain ⟨a, ha, _⟩ := hl
  exact atom a ha

theorem Heap.specifier_unique {l v v' init init' : Obj} {flag flag' : Option Obj}
    (hs : h.Specifier l v init flag) (hs' : h.Specifier l v' init' flag') :
    v = v' ∧ init = init' ∧ flag = flag' := by
  cases hs with
  | atom atom =>
    cases hs' with
    | atom _ => simp
    | var written => exact absurd written (not_listOf_atom atom)
    | init written => exact absurd written (not_listOf_atom atom)
    | flag written => exact absurd written (not_listOf_atom atom)
  | var written =>
    cases hs' with
    | atom atom => exact absurd written (not_listOf_atom atom)
    | var written' => simpa using listOf_unique written written'
    | init written' => simpa using listOf_unique written written'
    | flag written' => simpa using listOf_unique written written'
  | init written =>
    cases hs' with
    | atom atom => exact absurd written (not_listOf_atom atom)
    | var written' => simpa using listOf_unique written written'
    | init written' => simpa using listOf_unique written written'
    | flag written' => simpa using listOf_unique written written'
  | flag written =>
    cases hs' with
    | atom atom => exact absurd written (not_listOf_atom atom)
    | var written' => simpa using listOf_unique written written'
    | init written' => simpa using listOf_unique written written'
    | flag written' => simpa using listOf_unique written written'

theorem Heap.keyName_unique {l key key' v v' : Obj} (hk : h.KeyName l key v)
    (hk' : h.KeyName l key' v') : key = key' ∧ v = v' := by
  cases hk with
  | var atom =>
    cases hk' with
    | var _ => simp
    | both written _ => exact absurd written (not_listOf_atom atom)
  | both written _ =>
    cases hk' with
    | var atom => exact absurd written (not_listOf_atom atom)
    | both written' _ => simpa using listOf_unique written written'

theorem OptParameter.object_unique (p q : OptParameter) (hp : p.Written h) (hq : q.Written h)
    (same : p.object = q.object) : p = q := by
  have hs := hp.specifier
  rw [same] at hs
  have parts := Heap.specifier_unique hs hq.specifier
  cases p
  cases q
  simp_all

theorem KeyParameter.object_unique (p q : KeyParameter) (hp : p.Written h) (hq : q.Written h)
    (same : p.object = q.object) : p = q := by
  obtain ⟨name, hs, hk⟩ := hp.specifier
  obtain ⟨name', hs', hk'⟩ := hq.specifier
  rw [same] at hs
  have parts := Heap.specifier_unique hs hs'
  rw [parts.1] at hk
  have names := Heap.keyName_unique hk hk'
  cases p
  cases q
  simp_all

theorem AuxVariable.object_unique (p q : AuxVariable) (hp : p.Written h) (hq : q.Written h)
    (same : p.object = q.object) : p = q := by
  have hs := hp.specifier
  rw [same] at hs
  have parts := Heap.specifier_unique hs hq.specifier
  cases p
  cases q
  simp_all

end

theorem headed_auxPart (auxs : Option (List AuxVariable)) : Headed (Sections.auxPart auxs) := by
  cases auxs <;> simp [Sections.auxPart]

theorem headed_otherPart (others : Option (List AuxVariable)) :
    Headed (Sections.otherPart others) := by
  cases others <;> simp [Sections.otherPart]

theorem headed_keyPart (keys : Option (List KeyParameter × Option (List AuxVariable))) :
    Headed (Sections.keyPart keys) := by
  cases keys <;> simp [Sections.keyPart]

theorem headed_restPart (rest : Option Obj) : Headed (Sections.restPart rest) := by
  cases rest <;> simp [Sections.restPart]

theorem headed_optPart (opts : Option (List OptParameter)) : Headed (Sections.optPart opts) := by
  cases opts <;> simp [Sections.optPart]

theorem part_unique {α : Type} {k : LambdaKeyword} {object : α → Obj} {W : α → Prop}
    (part : Option (List α) → List Obj) (none_eq : part none = [])
    (some_eq : ∀ ps, part (some ps) = .keyword k :: ps.map object)
    (plain : ∀ a, W a → (object a).Plain)
    (one : ∀ a b, W a → W b → object a = object b → a = b) {o o' : Option (List α)}
    (ho : ∀ a ∈ o.getD [], W a) (ho' : ∀ a ∈ o'.getD [], W a) {ys ys' : List Obj}
    (hys : Headed ys) (hys' : Headed ys') (other : ys.head? ≠ some (.keyword k))
    (other' : ys'.head? ≠ some (.keyword k)) (same : part o ++ ys = part o' ++ ys') :
    o = o' ∧ ys = ys' := by
  cases o with
  | none =>
    cases o' with
    | none => simpa [none_eq] using same
    | some ps' =>
      rw [none_eq, some_eq, nil_append] at same
      simp [same] at other
  | some ps =>
    cases o' with
    | none =>
      rw [none_eq, some_eq, nil_append] at same
      simp [← same] at other'
    | some ps' =>
      simp only [some_eq, cons_append, List.cons.injEq, true_and] at same
      simp only [getD_some] at ho ho'
      have parts := plain_append_unique
        (forall_mem_map.mpr fun a ha => plain a (ho a ha))
        (forall_mem_map.mpr fun a ha => plain a (ho' a ha)) hys hys' same
      exact ⟨congrArg some (map_unique one ho ho' parts.1), parts.2⟩

theorem restPart_unique {o o' : Option Obj} {ys ys' : List Obj}
    (other : ys.head? ≠ some (.keyword .rest)) (other' : ys'.head? ≠ some (.keyword .rest))
    (same : Sections.restPart o ++ ys = Sections.restPart o' ++ ys') : o = o' ∧ ys = ys' := by
  cases o with
  | none =>
    cases o' with
    | none => simpa [Sections.restPart] using same
    | some v => simp_all [Sections.restPart]
  | some v =>
    cases o' with
    | none =>
      simp only [Sections.restPart, nil_append] at same
      simp [← same] at other'
    | some v' => simpa [Sections.restPart] using same

theorem keyPart_unique {h : Heap} {o o' : Option (List KeyParameter × Option (List AuxVariable))}
    (ho : ∀ p ∈ (o.map fst).getD [], p.Written h)
    (ho' : ∀ p ∈ (o'.map fst).getD [], p.Written h)
    (hothers : ∀ p ∈ (o.bind snd).getD [], p.Written h)
    (hothers' : ∀ p ∈ (o'.bind snd).getD [], p.Written h)
    {auxs auxs' : Option (List AuxVariable)}
    (same : Sections.keyPart o ++ Sections.auxPart auxs =
      Sections.keyPart o' ++ Sections.auxPart auxs') :
    o = o' ∧ Sections.auxPart auxs = Sections.auxPart auxs' := by
  cases o with
  | none =>
    cases o' with
    | none => simpa [Sections.keyPart] using same
    | some keys => cases auxs <;> simp [Sections.keyPart, Sections.auxPart] at same
  | some keys =>
    cases o' with
    | none => cases auxs' <;> simp [Sections.keyPart, Sections.auxPart] at same
    | some keys' =>
      obtain ⟨ps, others⟩ := keys
      obtain ⟨ps', others'⟩ := keys'
      simp only [Sections.keyPart, cons_append, append_assoc, List.cons.injEq,
        true_and] at same
      simp only [map_some, getD_some, bind_some] at ho ho' hothers hothers'
      have parts := plain_append_unique
        (forall_mem_map.mpr fun p hp => (ho p hp).plain)
        (forall_mem_map.mpr fun p hp => (ho' p hp).plain)
        (headed_append (headed_otherPart others) (headed_auxPart auxs))
        (headed_append (headed_otherPart others') (headed_auxPart auxs')) same
      have ends := part_unique Sections.otherPart rfl (fun _ => rfl)
        (fun p (hp : p.Written h) => hp.plain) AuxVariable.object_unique hothers hothers'
        (headed_auxPart auxs) (headed_auxPart auxs')
        (by cases auxs <;> simp [Sections.auxPart]) (by cases auxs' <;> simp [Sections.auxPart])
        parts.2
      rw [map_unique KeyParameter.object_unique ho ho' parts.1, ends.1]
      exact ⟨rfl, ends.2⟩

theorem Heap.divided_unique {h : Heap} {l : Obj} {s s' : Sections} (hs : h.Divided l s)
    (hs' : h.Divided l s') : s = s' := by
  obtain ⟨written, valid⟩ := hs
  obtain ⟨written', valid'⟩ := hs'
  have same := listOf_unique written written'
  obtain ⟨reqs, opts, rest, keys, auxs⟩ := s
  obtain ⟨reqs', opts', rest', keys', auxs'⟩ := s'
  have keysHeaded := headed_append (headed_keyPart keys) (headed_auxPart auxs)
  have keysHeaded' := headed_append (headed_keyPart keys') (headed_auxPart auxs')
  have restHeaded := headed_append (headed_restPart rest) keysHeaded
  have restHeaded' := headed_append (headed_restPart rest') keysHeaded'
  obtain ⟨reqsSame, same⟩ := plain_append_unique (fun v hv => (valid.reqs v hv).1)
    (fun v hv => (valid'.reqs v hv).1) (headed_append (headed_optPart opts) restHeaded)
    (headed_append (headed_optPart opts') restHeaded') same
  obtain ⟨optsSame, same⟩ := part_unique Sections.optPart rfl (fun _ => rfl)
    (fun p (hp : p.Written h) => hp.plain) OptParameter.object_unique valid.opts valid'.opts
    restHeaded restHeaded'
    (by cases rest <;> cases keys <;> cases auxs <;>
      simp [Sections.restPart, Sections.keyPart, Sections.auxPart])
    (by cases rest' <;> cases keys' <;> cases auxs' <;>
      simp [Sections.restPart, Sections.keyPart, Sections.auxPart]) same
  obtain ⟨restSame, same⟩ := restPart_unique
    (by cases keys <;> cases auxs <;> simp [Sections.keyPart, Sections.auxPart])
    (by cases keys' <;> cases auxs' <;> simp [Sections.keyPart, Sections.auxPart]) same
  obtain ⟨keysSame, same⟩ := keyPart_unique valid.keys valid'.keys valid.others valid'.others same
  obtain ⟨auxsSame, _⟩ := part_unique Sections.auxPart rfl (fun _ => rfl)
    (fun p (hp : p.Written h) => hp.plain) AuxVariable.object_unique valid.auxs valid'.auxs
    headed_nil headed_nil (by simp) (by simp) (congrArg (· ++ []) same)
  simp only [Sections.mk.injEq]
  exact ⟨reqsSame, optsSame, restSame, keysSame, auxsSame⟩

end Ecl.Lambda
