import Ecl.Lists.Heap

/- SUBST, NSUBST, SUBLIS and NSUBLIS of list.d, on trees of conses in memory. -/
namespace Ecl.Lists

open Function Option Nat

variable {α β : Type}

/-- A tree of conses, which are marked; its leaves are any objects. -/
inductive Tree (ι α : Type) where
  | leaf (x : Object Nat α)
  | cons (i : ι) (t u : Tree ι α)

def Tree.size {ι : Type} : Tree ι α → Nat
  | .leaf _ => 0
  | .cons _ t u => t.size + u.size + 1

def Tree.cells : Tree Nat α → List Nat
  | .leaf _ => []
  | .cons c t u => c :: (t.cells ++ u.cells)

theorem mem_front {c d : Nat} {front back : List Nat} (member : d ∈ front) :
    d ∈ c :: (front ++ back) :=
  List.mem_cons_of_mem _ (List.mem_append_left _ member)

theorem mem_back {c d : Nat} {front back : List Nat} (member : d ∈ back) :
    d ∈ c :: (front ++ back) :=
  List.mem_cons_of_mem _ (List.mem_append_right _ member)

/-- The tree that an object is, marked with the addresses of its conses. -/
def Stands (h : Heap α) : Tree Nat α → Object Nat α → Prop
  | .leaf y, x => x = y ∧ y.consp = false
  | .cons c t u, x => x = .cons c ∧ Stands h t (h.car c) ∧ Stands h u (h.cdr c)

/-- An object that is a tree made of conses of a set; a leaf is the object itself. -/
def Reads (h : Heap α) (S : Nat → Prop) : Tree Unit α → Object Nat α → Prop
  | .leaf y, x => x = y
  | .cons _ t u, x => ∃ c, x = .cons c ∧ S c ∧ Reads h S t (h.car c) ∧ Reads h S u (h.cdr c)

/-- The conses of a set are as before. -/
def Agree (S : Nat → Prop) (h h' : Heap α) :
    Prop := ∀ c, S c → h'.car c = h.car c ∧ h'.cdr c = h.cdr c

/-- A function of the tree that an object is, as long as the conses at home are as in h0. -/
def PureTest (h0 : Heap α) (home : Nat → Prop) (run : Heap α → Object Nat α → β)
    (answer : Tree Nat α → β) : Prop :=
  ∀ {h : Heap α} {t : Tree Nat α} {x : Object Nat α}, Agree home h0 h → Stands h t x →
    run h x = answer t

/-- A tree that is the same but for its conses, whose answers are the same. -/
def Copy (answer : Tree Nat α → β) : Tree Nat α → Tree Nat α → Prop
  | .leaf x, t' => t' = .leaf x
  | .cons c t u, t' => ∃ c' t'' u'', t' = .cons c' t'' u'' ∧ answer t' = answer (.cons c t u) ∧
      Copy answer t t'' ∧ Copy answer u u''

section Trees

variable {h h' h'' : Heap α} {S S' : Nat → Prop} {x : Object Nat α}

theorem Agree.refl (S : Nat → Prop) (h : Heap α) : Agree S h h := fun _ _ => ⟨rfl, rfl⟩

theorem Agree.trans (first : Agree S h h') (second : Agree S h' h'') : Agree S h h'' :=
  fun c inside =>
    ⟨(second c inside).1.trans (first c inside).1, (second c inside).2.trans (first c inside).2⟩

theorem Agree.mono (agree : Agree S h h') (less : ∀ c, S' c → S c) : Agree S' h h' :=
  fun c inside => agree c (less c inside)

theorem Reads.frame {t : Tree Unit α} (reads : Reads h S t x) (agree : Agree S h h')
    (more : ∀ c, S c → S' c) : Reads h' S' t x := by
  induction t generalizing x with
  | leaf y => exact reads
  | cons i t u iht ihu =>
    obtain ⟨c, rfl, inside, first, second⟩ := reads
    refine ⟨c, rfl, more c inside, ?_, ?_⟩
    · rw [(agree c inside).1]
      exact iht first
    · rw [(agree c inside).2]
      exact ihu second

theorem Reads.mono {t : Tree Unit α} (reads : Reads h S t x) (more : ∀ c, S c → S' c) :
    Reads h S' t x :=
  reads.frame (Agree.refl S h) more

theorem Stands.frame {t : Tree Nat α} (stands : Stands h t x) (agree : Agree (· ∈ t.cells) h h') :
    Stands h' t x := by
  induction t generalizing x with
  | leaf y => exact stands
  | cons c t u iht ihu =>
    obtain ⟨rfl, first, second⟩ := stands
    have here := agree c List.mem_cons_self
    refine ⟨rfl, ?_, ?_⟩
    · rw [here.1]
      exact iht first (agree.mono fun d member => mem_front member)
    · rw [here.2]
      exact ihu second (agree.mono fun d member => mem_back member)

end Trees

/-- What becomes of a node that is found is known by the answer; other nodes are rebuilt of what
becomes of their car and their cdr. -/
def replace (find : Tree Nat α → Option (Object Nat α)) : Tree Nat α → Tree Unit α
  | .leaf x => .leaf ((find (.leaf x)).getD x)
  | .cons c t u =>
    match find (.cons c t u) with
    | some y => .leaf y
    | none => .cons () (replace find t) (replace find u)

/-- new_obj, if TEST(t, x). -/
def ifTest (newObj : Object Nat α) (test : β → Bool) (x : β) : Option (Object Nat α) :=
  if test x then some newObj else none

/-- do_assoc, with the cdr of the pair that it finds; pairs that are NIL are passed over. -/
def doAssoc :
    List (Option (Object Nat α × Object Nat α)) → (Object Nat α → Bool) → Option (Object Nat α)
  | [], _ => none
  | none :: alist, test => doAssoc alist test
  | some (key, value) :: alist, test => if test key then some value else doAssoc alist test

/-- The search for KEY(t, x), which the test compares to the keys. -/
def ifAssoc (alist : List (Option (Object Nat α × Object Nat α)))
    (test : β → Object Nat α → Bool) (x : β) :
    Option (Object Nat α) := doAssoc alist (test x)

section Code

/-- The cons of a step of the loop, which is the head or follows the tail; the head. -/
def link (h : Heap α) (cons tree : Object Nat α) : Option (Nat × Nat) → Heap α × Nat
  | none => (h.cons cons tree, h.free)
  | some (head, tail) => ((h.cons cons tree).rplacd tail (.cons h.free), head)

variable (run : Heap α → Object Nat α → Option (Object Nat α))

/-- The end of the loop, where the test of the tail may put an end to it. -/
def substRest (substLoop : Heap α → Nat → Option (Nat × Nat) → Option (Heap α × Object Nat α))
    (h : Heap α) (tree : Object Nat α) (head new : Nat) : Option (Heap α × Object Nat α) :=
  match run h tree with
  | some newObj => some (h.rplacd new newObj, .cons head)
  | none =>
    match tree with
    | .cons c => substLoop h c (some (head, new))
    | _ => some (h, .cons head)

mutual

/-- The function subst, with its loop; spine is head and tail of the new list. -/
def subst : Nat → Heap α → Object Nat α → Option (Heap α × Object Nat α)
  | 0, _, _ => none
  | fuel + 1, h, tree =>
    match run h tree with
    | some newObj => some (h, newObj)
    | none =>
      match tree with
      | .cons c => substLoop fuel h c none
      | tree => some (h, tree)

def substLoop : Nat → Heap α → Nat → Option (Nat × Nat) → Option (Heap α × Object Nat α)
  | 0, _, _, _ => none
  | fuel + 1, h, c, spine => do
    let (h, cons) ← subst fuel h (h.car c)
    let tree := h.cdr c
    let new := h.free
    let (h, head) := link h cons tree spine
    substRest run (substLoop fuel) h tree head new

end

/-- What nsubst_cons does with o, the car or the cdr of l. -/
def nsubstPart (nsubstCons : Heap α → Nat → Option (Heap α)) (h : Heap α) (o : Object Nat α)
    (store : Object Nat α → Heap α) : Option (Heap α) :=
  match run h o with
  | some newObj => some (store newObj)
  | none =>
    match o with
    | .cons c => nsubstCons h c
    | _ => some h

/-- The loop over l, whose test comes last. -/
def nsubstCons : Nat → Heap α → Nat → Option (Heap α)
  | 0, _, _ => none
  | fuel + 1, h, l => do
    let h ← nsubstPart run (nsubstCons fuel) h (h.car l) (h.rplaca l)
    nsubstPart run (nsubstCons fuel) h (h.cdr l) (h.rplacd l)

def nsubst (fuel : Nat) (h : Heap α) (tree : Object Nat α) : Option (Heap α × Object Nat α) :=
  match run h tree with
  | some newObj => some (h, newObj)
  | none =>
    match tree with
    | .cons c => (nsubstCons run fuel h c).map (·, tree)
    | _ => some (h, tree)

def sublis : Nat → Heap α → Object Nat α → Option (Heap α × Object Nat α)
  | 0, _, _ => none
  | fuel + 1, h, tree =>
    match run h tree with
    | some value => some (h, value)
    | none =>
      match tree with
      | .cons c => do
        let (h, car) ← sublis fuel h (h.car c)
        let (h, cdr) ← sublis fuel h (h.cdr c)
        some (h.cons car cdr, .cons h.free)
      | tree => some (h, tree)

def nsublis : Nat → Heap α → Object Nat α → Option (Heap α × Object Nat α)
  | 0, _, _ => none
  | fuel + 1, h, tree =>
    match run h tree with
    | some value => some (h, value)
    | none =>
      match tree with
      | .cons c => do
        let (h, car) ← nsublis fuel h (h.car c)
        let h := h.rplaca c car
        let (h, cdr) ← nsublis fuel h (h.cdr c)
        some (h.rplacd c cdr, tree)
      | tree => some (h, tree)

end Code

section Answers

variable {find : Tree Nat α → Option (Object Nat α)} {t : Tree Nat α}

theorem replace_some {y : Object Nat α} (found : find t = some y) : replace find t = .leaf y := by
  cases t <;> rw [replace, found]
  rfl

theorem replace_leaf {x : Object Nat α} (kept : find (.leaf x) = none) :
    replace find (.leaf x) = .leaf x := by
  rw [replace, kept]
  rfl

theorem replace_cons {c : Nat} {t u : Tree Nat α} (kept : find (.cons c t u) = none) :
    replace find (.cons c t u) = .cons () (replace find t) (replace find u) := by rw [replace, kept]

theorem Copy.size_eq {t' : Tree Nat α} (copy : Copy find t t') : t'.size = t.size := by
  induction t generalizing t' with
  | leaf x => rw [show t' = .leaf x from copy]
  | cons c t u iht ihu =>
    obtain ⟨c', t'', u'', rfl, _, first, second⟩ := copy
    rw [Tree.size, Tree.size, iht first, ihu second]

theorem Copy.replace_eq {t' : Tree Nat α} (copy : Copy find t t') :
    replace find t' = replace find t := by
  induction t generalizing t' with
  | leaf x => rw [show t' = .leaf x from copy]
  | cons c t u iht ihu =>
    obtain ⟨c', t'', u'', rfl, same, first, second⟩ := copy
    rw [replace, replace, same, iht first, ihu second]

end Answers

/-- The conses that were allocated. -/
def Fresh (h h' : Heap α) (c : Nat) : Prop := h.free ≤ c ∧ c < h'.free

theorem Fresh.mono {h h' g g' : Heap α} (first : h.free ≤ g.free)
    (last : g'.free ≤ h'.free) (c : Nat)
    (fresh : Fresh g g' c) : Fresh h h' c :=
  ⟨Nat.le_trans first fresh.1, Nat.lt_of_lt_of_le fresh.2 last⟩

/-- A tree of new conses is returned, and nothing is stored to older ones. -/
def Made (h : Heap α) (t : Tree Unit α) (result : Option (Heap α × Object Nat α)) : Prop :=
  ∃ h' y, result = some (h', y) ∧ h.free ≤ h'.free ∧ Agree (· < h.free) h h' ∧
    Reads h' (Fresh h h') t y

theorem Made.leaf (h : Heap α) (y : Object Nat α) : Made h (.leaf y) (some (h, y)) :=
  ⟨h, y, rfl, Nat.le_refl _, Agree.refl _ h, rfl⟩

theorem Heap.cons_car (h : Heap α) (a d : Object Nat α) : (h.cons a d).car h.free = a :=
  update_self _ _ _

theorem Heap.cons_cdr (h : Heap α) (a d : Object Nat α) : (h.cons a d).cdr h.free = d :=
  update_self _ _ _

theorem Heap.cons_agree (h : Heap α) (a d : Object Nat α) : Agree (· < h.free) h (h.cons a d) :=
  fun _ below => ⟨update_of_ne (Nat.ne_of_lt below) _ _, update_of_ne (Nat.ne_of_lt below) _ _⟩

section Law

variable {h0 : Heap α} {home : Nat → Prop} {run : Heap α → Object Nat α → Option (Object Nat α)}
  {find : Tree Nat α → Option (Object Nat α)} (pure : PureTest h0 home run find) {b : Nat}
  (homeOld : ∀ c, home c → c < b)

include pure homeOld

theorem sublis_made {h : Heap α} {t : Tree Nat α} {x : Object Nat α} (bound : b ≤ h.free)
    (old : ∀ c ∈ t.cells, c < b) (agree : Agree home h0 h) (stands : Stands h t x) (fuel : Nat)
    (enough : t.size < fuel) : Made h (replace find t) (sublis run fuel h x) := by
  induction fuel generalizing h t x with
  | zero => cases enough
  | succ fuel ih =>
    unfold sublis
    rw [pure agree stands]
    cases found : find t with
    | some y =>
      rw [replace_some found]
      exact .leaf h y
    | none =>
      cases t with
      | leaf y =>
        obtain ⟨rfl, atom⟩ := stands
        rw [replace_leaf found]
        cases x with
        | cons c => cases atom
        | nil => exact .leaf h _
        | atom a => exact .leaf h _
      | cons c t u =>
        obtain ⟨rfl, first, second⟩ := stands
        rw [replace_cons found]
        rw [Tree.size] at enough
        have older : ∀ d ∈ c :: (t.cells ++ u.cells), d < h.free := fun d member =>
          Nat.lt_of_lt_of_le (old d member) bound
        obtain ⟨h1, a, run1, free1, agree1, reads1⟩ := ih bound
          (fun d member => old d (mem_front member)) agree first (by omega)
        have second1 : Stands h1 u (h1.cdr c) := by
          rw [(agree1 c (older c List.mem_cons_self)).2]
          exact second.frame (agree1.mono fun d member =>
            older d (mem_back member))
        obtain ⟨h2, d, run2, free2, agree2, reads2⟩ := ih (Nat.le_trans bound free1)
          (fun d member => old d (mem_back member))
          (agree.trans (agree1.mono fun c inside => Nat.lt_of_lt_of_le (homeOld c inside) bound))
            second1 (by omega)
        have free := Nat.le_trans free1 free2
        have later : Agree (· < h1.free) h1 (h2.cons a d) :=
          agree2.trans ((h2.cons_agree a d).mono fun c below => Nat.lt_of_lt_of_le below free2)
        refine ⟨h2.cons a d, .cons h2.free, ?_, le_succ_of_le free,
          agree1.trans (later.mono fun c below => Nat.lt_of_lt_of_le below free1), h2.free, rfl,
          ⟨free, h2.free.lt_succ_self⟩, ?_, ?_⟩
        · simp only [run1, run2, bind_eq_bind, bind_some]
        · rw [Heap.cons_car]
          exact reads1.frame (later.mono fun c fresh => fresh.2)
            (Fresh.mono (Nat.le_refl _) (le_succ_of_le free2))
        · rw [Heap.cons_cdr]
          exact reads2.frame ((h2.cons_agree a d).mono fun c fresh => fresh.2)
            (Fresh.mono free1 h2.free.le_succ)

end Law

section Stores

variable {h h1 : Heap α} {S : Nat → Prop} {t : Tree Unit α} {a : Object Nat α} {c : Nat}
  {cells : List Nat}

theorem Agree.rplaca (agree : Agree (· ∉ cells) h h1) (c : Nat) (a : Object Nat α) :
    Agree (· ∉ c :: cells) h (h1.rplaca c a) := by
  intro d out
  obtain ⟨other, out⟩ := not_or.mp (List.mem_cons.not.mp out)
  exact ⟨(update_of_ne other _ _).trans (agree d out).1, (agree d out).2⟩

theorem Agree.rplacd (agree : Agree (· ∉ cells) h h1) (c : Nat) (a : Object Nat α) :
    Agree (· ∉ c :: cells) h (h1.rplacd c a) := by
  intro d out
  obtain ⟨other, out⟩ := not_or.mp (List.mem_cons.not.mp out)
  exact ⟨(agree d out).1, (update_of_ne other _ _).trans (agree d out).2⟩

theorem Reads.rplaca (reads : Reads h S t a) (out : ¬ S c) :
    Reads (h.rplaca c a) S t ((h.rplaca c a).car c) := by
  rw [show (h.rplaca c a).car c = a from update_self _ _ _]
  refine reads.frame (fun d inside => ⟨update_of_ne ?_ _ _, rfl⟩) fun _ inside => inside
  rintro rfl
  exact out inside

theorem Reads.rplacd (reads : Reads h S t a) (out : ¬ S c) :
    Reads (h.rplacd c a) S t ((h.rplacd c a).cdr c) := by
  rw [show (h.rplacd c a).cdr c = a from update_self _ _ _]
  refine reads.frame (fun d inside => ⟨rfl, update_of_ne ?_ _ _⟩) fun _ inside => inside
  rintro rfl
  exact out inside

end Stores

/-- A new list is returned, or the rest of one, which is stored into its last cons. -/
def Spliced (h : Heap α) (spine : Option (Nat × Nat)) (t : Tree Unit α)
    (result : Option (Heap α × Object Nat α)) : Prop :=
  match spine with
  | none => Made h t result
  | some (head, tail) => ∃ h', result = some (h', .cons head) ∧ h.free ≤ h'.free ∧
      Agree (fun c => c < h.free ∧ c ≠ tail) h h' ∧ h'.car tail = h.car tail ∧
      Reads h' (Fresh h h') t (h'.cdr tail)

/-- The tail is a new cons. -/
def Newer (b : Nat) (h : Heap α) (spine : Option (Nat × Nat)) : Prop :=
  ∀ head tail, spine = some (head, tail) → b ≤ tail ∧ tail < h.free

theorem link_spec {b : Nat} {h : Heap α} (a d : Object Nat α) (spine : Option (Nat × Nat))
    (bound : b ≤ h.free)
    (newer : Newer b h spine) : (link h a d spine).1.free = h.free + 1 ∧
      (link h a d spine).1.cdr h.free = d ∧ Agree (· < b) h (link h a d spine).1 := by
  have agree := (h.cons_agree a d).mono fun c (below : c < b) => Nat.lt_of_lt_of_le below bound
  cases spine with
  | none => exact ⟨rfl, h.cons_cdr a d, agree⟩
  | some spine =>
    obtain ⟨above, below⟩ := newer spine.1 spine.2 rfl
    refine ⟨rfl, (update_of_ne (Nat.ne_of_gt below) _ _).trans (h.cons_cdr a d), fun c inside => ?_⟩
    have other : c ≠ spine.2 := Nat.ne_of_lt (Nat.lt_of_lt_of_le inside above)
    exact ⟨(agree c inside).1, (update_of_ne other _ _).trans (agree c inside).2⟩

section Splice

variable {b : Nat} {h h1 : Heap α} {t u : Tree Unit α} {a d : Object Nat α}
  (free1 : h.free ≤ h1.free)
  (agree1 : Agree (· < h.free) h h1) (reads1 : Reads h1 (Fresh h h1) t a)

include free1 agree1 reads1

theorem spliced_of_rest (spine : Option (Nat × Nat)) (newer : Newer b h spine)
    {result : Option (Heap α × Object Nat α)}
    (rest : Spliced (link h1 a d spine).1 (some ((link h1 a d spine).2, h1.free)) u result) :
    Spliced h spine (.cons () t u) result := by
  cases spine with
  | none =>
    obtain ⟨h4, returned, free4, agree4, car4, reads4⟩ := rest
    have later : Agree (· < h1.free) h1 h4 := (h1.cons_agree a d).trans
      (agree4.mono fun c below => ⟨lt_succ_of_lt below, Nat.ne_of_lt below⟩)
    have free : h1.free < h4.free := free4
    refine ⟨h4, _, returned, Nat.le_of_lt (Nat.lt_of_le_of_lt free1 free),
      agree1.trans (later.mono fun c below => Nat.lt_of_lt_of_le below free1), h1.free, rfl,
      ⟨free1, free⟩, ?_, ?_⟩
    · rw [car4, link, h1.cons_car]
      exact reads1.frame (later.mono fun c fresh => fresh.2)
        (Fresh.mono (Nat.le_refl _) (Nat.le_of_lt free))
    · exact reads4.mono (Fresh.mono (le_succ_of_le free1) (Nat.le_refl _))
  | some spine =>
    obtain ⟨head, tail⟩ := spine
    obtain ⟨_, below⟩ := newer head tail rfl
    obtain ⟨h4, returned, free4, agree4, car4, reads4⟩ := rest
    have below1 : tail < h1.free := Nat.lt_of_lt_of_le below free1
    have later : Agree (fun c => c < h1.free ∧ c ≠ tail) h1 h4 := by
      intro c inside
      have stored := agree4 c ⟨lt_succ_of_lt inside.1, Nat.ne_of_lt inside.1⟩
      have linked := h1.cons_agree a d c inside.1
      exact ⟨stored.1.trans linked.1, stored.2.trans ((update_of_ne inside.2 _ _).trans linked.2)⟩
    have free : h1.free < h4.free := free4
    have link4 := agree4 tail ⟨lt_succ_of_lt below1, Nat.ne_of_lt below1⟩
    have pointer : h4.cdr tail = .cons h1.free := link4.2.trans (update_self _ _ _)
    refine ⟨h4, returned, Nat.le_of_lt (Nat.lt_of_le_of_lt free1 free),
      (agree1.mono fun _ inside => inside.1).trans
        (later.mono fun c inside => ⟨Nat.lt_of_lt_of_le inside.1 free1, inside.2⟩),
      (link4.1.trans (h1.cons_agree a d tail below1).1).trans (agree1 tail below).1, ?_⟩
    rw [pointer]
    refine ⟨h1.free, rfl, ⟨free1, free⟩, ?_, ?_⟩
    · rw [car4, link]
      rw [show ((h1.cons a d).rplacd tail (.cons h1.free)).car h1.free = a from h1.cons_car a d]
      exact reads1.frame
        (later.mono fun c fresh => ⟨fresh.2, Nat.ne_of_gt (Nat.lt_of_lt_of_le below fresh.1)⟩)
        (Fresh.mono (Nat.le_refl _) (Nat.le_of_lt free))
    · exact reads4.mono (Fresh.mono (le_succ_of_le free1) (Nat.le_refl _))

end Splice

section Law

variable {h0 : Heap α} {home : Nat → Prop} {run : Heap α → Object Nat α → Option (Object Nat α)}
  {find : Tree Nat α → Option (Object Nat α)} (pure : PureTest h0 home run find)

include pure

theorem rest_spliced {h : Heap α} {u : Tree Nat α} {x : Object Nat α} {head new fuel : Nat}
    (agree : Agree home h0 h) (stands : Stands h u x) (linked : h.cdr new = x)
    (loop : ∀ c t v, u = .cons c t v → Spliced h (some (head, new))
      (.cons () (replace find t) (replace find v)) (substLoop run fuel h c (some (head, new)))) :
    Spliced h (some (head, new)) (replace find u)
      (substRest run (substLoop run fuel) h x head new) := by
  unfold substRest
  rw [pure agree stands]
  cases found : find u with
  | some y =>
    rw [replace_some found]
    exact ⟨h.rplacd new y, rfl, Nat.le_refl _, fun c inside =>
      ⟨rfl, update_of_ne inside.2 _ _⟩, rfl,
      update_self _ _ _⟩
  | none =>
    cases u with
    | leaf y =>
      obtain ⟨rfl, atom⟩ := stands
      rw [replace_leaf found]
      have same : Spliced h (some (head, new)) (.leaf x) (some (h, .cons head)) :=
        ⟨h, rfl, Nat.le_refl _, Agree.refl _ h, rfl, linked⟩
      cases x with
      | cons c => cases atom
      | nil => exact same
      | atom a => exact same
    | cons c t v =>
      obtain ⟨rfl, _⟩ := stands
      rw [replace_cons found]
      exact loop c t v rfl

/-- The induction is on the fuel of both functions; conses below b are those that are read. -/
theorem subst_made {b : Nat} (homeOld : ∀ c, home c → c < b) (fuel : Nat) :
    (∀ (h : Heap α) (t : Tree Nat α) (x : Object Nat α), b ≤ h.free → (∀ c ∈ t.cells, c < b) →
      Agree home h0 h → Stands h t x → 2 * t.size < fuel →
        Made h (replace find t) (subst run fuel h x)) ∧
    ∀ (h : Heap α) (c : Nat) (t u : Tree Nat α) (spine : Option (Nat × Nat)), b ≤ h.free →
      (∀ d ∈ (Tree.cons c t u).cells, d < b) → Agree home h0 h → Stands h (.cons c t u) (.cons c) →
      Newer b h spine → 2 * (Tree.cons c t u).size ≤ fuel →
      Spliced h spine (.cons () (replace find t) (replace find u))
        (substLoop run fuel h c spine) := by
  induction fuel with
  | zero =>
    constructor
    · intro h t x _ _ _ _ enough
      omega
    · intro h c t u spine _ _ _ _ _ enough
      rw [Tree.size] at enough
      omega
  | succ fuel ih =>
    constructor
    · intro h t x bound old agree stands enough
      unfold subst
      rw [pure agree stands]
      cases found : find t with
      | some y =>
        rw [replace_some found]
        exact .leaf h y
      | none =>
        cases t with
        | leaf y =>
          obtain ⟨rfl, atom⟩ := stands
          rw [replace_leaf found]
          cases x with
          | cons c => cases atom
          | nil => exact .leaf h _
          | atom a => exact .leaf h _
        | cons c t u =>
          have pointer := stands.1
          cases pointer
          rw [replace_cons found]
          exact ih.2 h c t u none bound old agree stands
            (fun _ _ never => by cases never) (by omega)
    · intro h c t u spine bound old agree stands newer enough
      obtain ⟨_, first, second⟩ := stands
      rw [Tree.size] at enough
      have old1 : ∀ d ∈ t.cells, d < b := fun d member =>
        old d (mem_front member)
      have old2 : ∀ d ∈ u.cells, d < b := fun d member =>
        old d (mem_back member)
      obtain ⟨h1, a, run1, free1, agree1, reads1⟩ := ih.1 h t _ bound old1 agree first (by omega)
      simp only [substLoop, run1, bind_eq_bind, bind_some]
      apply spliced_of_rest free1 agree1 reads1 spine newer
      have bound1 := Nat.le_trans bound free1
      have newer1 : Newer b h1 spine := fun head tail same =>
        (newer head tail same).imp_right fun below => Nat.lt_of_lt_of_le below free1
      obtain ⟨free2, ends, agree2⟩ := link_spec a (h1.cdr c) spine bound1 newer1
      have kept : Agree (· < b) h (link h1 a (h1.cdr c) spine).1 :=
        (agree1.mono fun c below => Nat.lt_of_lt_of_le below bound).trans agree2
      have second2 := second.frame (kept.mono old2)
      rw [← (agree1 c (Nat.lt_of_lt_of_le (old c List.mem_cons_self) bound)).2] at second2
      have agree' := agree.trans (kept.mono homeOld)
      apply rest_spliced pure agree' second2 ends
      rintro c' t' v rfl
      rw [Tree.size] at enough
      refine ih.2 _ c' t' v _ ?_ old2 agree' ⟨rfl, second2.2⟩ ?_ (by rw [Tree.size]; omega)
      · rw [free2]
        exact le_succ_of_le bound1
      · intro head tail same
        cases same
        exact ⟨bound1, free2 ▸ h1.free.lt_succ_self⟩

end Law

/-- A tree is returned that is made of its own conses, and nothing is stored to other ones. -/
def Changed (cells : List Nat) (h : Heap α) (t : Tree Unit α)
    (result : Option (Heap α × Object Nat α)) : Prop :=
  ∃ h' y, result = some (h', y) ∧ Agree (· ∉ cells) h h' ∧ Reads h' (· ∈ cells) t y

theorem Changed.leaf (cells : List Nat) (h : Heap α) (y : Object Nat α) :
    Changed cells h (.leaf y) (some (h, y)) :=
  ⟨h, y, rfl, Agree.refl _ h, rfl⟩

section Halves

variable {h0 h h1 h2 : Heap α} {home : Nat → Prop} {c : Nat} {front back : List Nat}
  (nodup : (c :: (front ++ back)).Nodup) (agree1 : Agree (· ∉ c :: front) h h1)

include nodup agree1

theorem second_half {u : Tree Nat α} (apart : ∀ d ∈ c :: (front ++ back), ¬ home d)
    (agree : Agree home h0 h)
    (kept : h1.cdr c = h.cdr c) (same : u.cells = back) (stands : Stands h u (h.cdr c)) :
    Agree home h0 h1 ∧ Stands h1 u (h1.cdr c) := by
  obtain ⟨fresh, nodup⟩ := List.nodup_cons.mp nodup
  obtain ⟨_, _, disjoint⟩ := List.nodup_append.mp nodup
  constructor
  · exact agree.trans (agree1.mono fun d inside member =>
      apart d (List.cons_subset_cons _ (List.subset_append_left _ _) member) inside)
  · rw [kept]
    refine stands.frame (agree1.mono fun d member again => ?_)
    rw [same] at member
    rcases List.mem_cons.mp again with rfl | inFront
    · exact fresh (List.mem_append_right _ member)
    · exact disjoint d inFront d member rfl

theorem both_halves {t u : Tree Unit α} (reads1 : Reads h1 (· ∈ front) t (h1.car c))
    (agree2 : Agree (· ∉ c :: back) h1 h2) (kept : h2.car c = h1.car c)
    (reads2 : Reads h2 (· ∈ back) u (h2.cdr c)) :
    Agree (· ∉ c :: (front ++ back)) h h2 ∧
      Reads h2 (· ∈ c :: (front ++ back)) (.cons () t u) (.cons c) := by
  obtain ⟨fresh, nodup⟩ := List.nodup_cons.mp nodup
  obtain ⟨_, _, disjoint⟩ := List.nodup_append.mp nodup
  have less1 : ∀ d, d ∉ c :: (front ++ back) → d ∉ c :: front := fun d out member =>
    out (List.cons_subset_cons _ (List.subset_append_left _ _) member)
  have less2 : ∀ d, d ∉ c :: (front ++ back) → d ∉ c :: back := fun d out member =>
    out (List.cons_subset_cons _ (List.subset_append_right _ _) member)
  refine ⟨(agree1.mono less1).trans (agree2.mono less2), c, rfl, List.mem_cons_self, ?_, ?_⟩
  · rw [kept]
    refine reads1.frame (agree2.mono fun d inFront member => ?_) fun d member =>
      mem_front member
    rcases List.mem_cons.mp member with rfl | inBack
    · exact fresh (List.mem_append_left _ inFront)
    · exact disjoint d inFront d inBack rfl
  · exact reads2.mono fun d member => mem_back member

end Halves

section Law

variable {h0 : Heap α} {home : Nat → Prop} {run : Heap α → Object Nat α → Option (Object Nat α)}
  {find : Tree Nat α → Option (Object Nat α)} (pure : PureTest h0 home run find) {h : Heap α}

include pure

theorem nsublis_changed {t : Tree Nat α} {x : Object Nat α} (apart : ∀ c ∈ t.cells, ¬ home c)
    (nodup : t.cells.Nodup) (agree : Agree home h0 h) (stands : Stands h t x) (fuel : Nat)
    (enough : t.size < fuel) : Changed t.cells h (replace find t) (nsublis run fuel h x) := by
  induction fuel generalizing h t x with
  | zero => cases enough
  | succ fuel ih =>
    unfold nsublis
    rw [pure agree stands]
    cases found : find t with
    | some y =>
      rw [replace_some found]
      exact .leaf _ h y
    | none =>
      cases t with
      | leaf y =>
        obtain ⟨rfl, atom⟩ := stands
        rw [replace_leaf found]
        cases x with
        | cons c => cases atom
        | nil => exact .leaf _ h _
        | atom a => exact .leaf _ h _
      | cons c t u =>
        obtain ⟨rfl, first, second⟩ := stands
        rw [replace_cons found]
        rw [Tree.size] at enough
        obtain ⟨nodup1, nodup2, _⟩ := List.nodup_append.mp (List.nodup_cons.mp nodup).2
        obtain ⟨freshFront, freshBack⟩ :=
          not_or.mp (List.mem_append.not.mp (List.nodup_cons.mp nodup).1)
        obtain ⟨h1, a, run1, agree1, reads1⟩ := ih (fun d member =>
          apart d (mem_front member)) nodup1 agree first (by omega)
        have agreeCar := agree1.rplaca c a
        obtain ⟨agree', second'⟩ :=
          second_half nodup agreeCar apart agree (agree1 c freshFront).2 rfl second
        obtain ⟨h2, d, run2, agree2, reads2⟩ := ih (fun d member =>
          apart d (mem_back member)) nodup2 agree' second' (by omega)
        obtain ⟨whole, parts⟩ :=
          both_halves nodup agreeCar (reads1.rplaca freshFront) (agree2.rplacd c d)
          (agree2 c freshBack).1 (reads2.rplacd freshBack)
        refine ⟨h2.rplacd c d, .cons c, ?_, whole, parts⟩
        simp only [run1, run2, bind_eq_bind, bind_some]

theorem nsubstPart_changed {t : Tree Nat α} {x : Object Nat α} (agree : Agree home h0 h)
    (stands : Stands h t x)
    (nsubstCons : Heap α → Nat → Option (Heap α)) (c : Nat) (store : Object Nat α → Heap α)
    (field other : Heap α → Object Nat α)
    (fields : ∀ h', Agree (· ∉ t.cells) h h' → field h' = x ∧ other h' = other h)
    (stored : ∀ y, Agree (· ∉ c :: t.cells) h (store y) ∧ other (store y) = other h ∧
      field (store y) = y)
    (parts : ∀ d v w, t = .cons d v w → ∃ h', nsubstCons h d = some h' ∧ Agree (· ∉ t.cells) h h' ∧
      Reads h' (· ∈ t.cells) (.cons () (replace find v) (replace find w)) (.cons d)) :
    ∃ h', nsubstPart run nsubstCons h x store = some h' ∧ Agree (· ∉ c :: t.cells) h h' ∧
      other h' = other h ∧ Reads h' (· ∈ t.cells) (replace find t) (field h') := by
  unfold nsubstPart
  rw [pure agree stands]
  cases found : find t with
  | some y =>
    obtain ⟨agree', kept, value⟩ := stored y
    rw [replace_some found]
    exact ⟨store y, rfl, agree', kept, value⟩
  | none =>
    cases t with
    | leaf y =>
      obtain ⟨rfl, atom⟩ := stands
      rw [replace_leaf found]
      have same : field h = x ∧ other h = other h := fields h (Agree.refl _ h)
      cases x with
      | cons c => cases atom
      | nil => exact ⟨h, rfl, Agree.refl _ h, rfl, same.1⟩
      | atom a => exact ⟨h, rfl, Agree.refl _ h, rfl, same.1⟩
    | cons d v w =>
      obtain ⟨rfl, _⟩ := stands
      obtain ⟨h', run', agree', reads⟩ := parts d v w rfl
      obtain ⟨pointer, kept⟩ := fields h' agree'
      rw [replace_cons found]
      exact ⟨h', run', agree'.mono fun e out member => out (List.mem_cons_of_mem _ member), kept,
        pointer ▸ reads⟩

theorem nsubstCons_changed {c : Nat} {t u : Tree Nat α}
    (apart : ∀ d ∈ (Tree.cons c t u).cells, ¬ home d)
    (nodup : (Tree.cons c t u).cells.Nodup) (agree : Agree home h0 h)
    (stands : Stands h (.cons c t u) (.cons c))
    (fuel : Nat) (enough : (Tree.cons c t u).size ≤ fuel) :
    ∃ h', nsubstCons run fuel h c = some h' ∧ Agree (· ∉ (Tree.cons c t u).cells) h h' ∧
      Reads h' (· ∈ (Tree.cons c t u).cells) (.cons () (replace find t) (replace find u))
        (.cons c) := by
  induction fuel generalizing h c t u with
  | zero => cases enough
  | succ fuel ih =>
    obtain ⟨_, first, second⟩ := stands
    rw [Tree.size] at enough
    obtain ⟨nodup1, nodup2, _⟩ := List.nodup_append.mp (List.nodup_cons.mp nodup).2
    obtain ⟨freshFront, freshBack⟩ :=
      not_or.mp (List.mem_append.not.mp (List.nodup_cons.mp nodup).1)
    obtain ⟨h1, run1, agree1, kept1, reads1⟩ := nsubstPart_changed pure agree first _ c (h.rplaca c)
      (fun h => h.car c) (fun h => h.cdr c) (fun _ agree' => agree' c freshFront)
      (fun y => ⟨(Agree.refl _ h).rplaca c y, rfl, update_self _ _ _⟩) (by
        rintro d v w rfl
        have pointer := first.1
        exact ih (fun e member => apart e (mem_front member)) nodup1 agree
          (pointer ▸ first) (by omega))
    obtain ⟨agree', second'⟩ := second_half nodup agree1 apart agree kept1 rfl second
    obtain ⟨h2, run2, agree2, kept2, reads2⟩ :=
      nsubstPart_changed pure agree' second' _ c (h1.rplacd c)
      (fun h => h.cdr c) (fun h => h.car c) (fun _ agree' => (agree' c freshBack).symm)
      (fun y => ⟨(Agree.refl _ h1).rplacd c y, rfl, update_self _ _ _⟩) (by
        rintro d v w rfl
        have pointer := second'.1
        exact ih (fun e member => apart e (mem_back member)) nodup2 agree'
          (pointer ▸ second') (by omega))
    obtain ⟨whole, parts⟩ := both_halves nodup agree1 reads1 agree2 kept2 reads2
    refine ⟨h2, ?_, whole, parts⟩
    simp only [nsubstCons, run1, run2, bind_eq_bind, bind_some]

theorem nsubst_changed {t : Tree Nat α} {x : Object Nat α} (apart : ∀ c ∈ t.cells, ¬ home c)
    (nodup : t.cells.Nodup) (agree : Agree home h0 h) (stands : Stands h t x) (fuel : Nat)
    (enough : t.size ≤ fuel) : Changed t.cells h (replace find t) (nsubst run fuel h x) := by
  unfold nsubst
  rw [pure agree stands]
  cases found : find t with
  | some y =>
    rw [replace_some found]
    exact .leaf _ h y
  | none =>
    cases t with
    | leaf y =>
      obtain ⟨rfl, atom⟩ := stands
      rw [replace_leaf found]
      cases x with
      | cons c => cases atom
      | nil => exact .leaf _ h _
      | atom a => exact .leaf _ h _
    | cons c t u =>
      have pointer := stands.1
      cases pointer
      rw [replace_cons found]
      obtain ⟨h', returned, agree', reads⟩ :=
        nsubstCons_changed pure apart nodup agree stands fuel enough
      exact ⟨h', .cons c, congrArg (Option.map (·, Object.cons c)) returned, agree', reads⟩

end Law

section Claim

variable {h : Heap α} {home : Nat → Prop} {t t' : Tree Nat α} {x x' : Object Nat α}
  (homeOld : ∀ c, home c → c < h.free) (stands : Stands h t x) (old : ∀ c ∈ t.cells, c < h.free)
  (stands' : Stands h t' x') (unshared : t'.cells.Nodup) (apart : ∀ c ∈ t'.cells, ¬ home c)

include homeOld stands old stands' unshared apart

/-- The lists subst and sublis make are the tree that nsubst and nsublis make of an unshared copy.
-/
theorem subst_sublis {test : Heap α → Object Nat α → Bool} {holds : Tree Nat α → Bool}
    (pure : PureTest h home test holds) (newObj : Object Nat α)
    (copy : Copy (ifTest newObj holds) t t')
    {tests : Heap α → Object Nat α → Object Nat α → Bool} {hits : Tree Nat α → Object Nat α → Bool}
    (pures : PureTest h home tests hits) (alist : List (Option (Object Nat α × Object Nat α)))
    (copies : Copy (ifAssoc alist hits) t t') (fuel : Nat) (enough : 2 * t.size < fuel) :
    (Made h (replace (ifTest newObj holds) t) (subst (fun h => ifTest newObj (test h)) fuel h x) ∧
      Changed t'.cells h (replace (ifTest newObj holds) t)
        (nsubst (fun h => ifTest newObj (test h)) fuel h x')) ∧
    Made h (replace (ifAssoc alist hits) t) (sublis (fun h => ifAssoc alist (tests h)) fuel h x) ∧
      Changed t'.cells h (replace (ifAssoc alist hits) t)
        (nsublis (fun h => ifAssoc alist (tests h)) fuel h x') := by
  have found : PureTest h home (fun h => ifTest newObj (test h)) (ifTest newObj holds) := by
    intro h' t x agree stands
    simp only [ifTest, pure agree stands]
  have assoc : PureTest h home (fun h => ifAssoc alist (tests h)) (ifAssoc alist hits) := by
    intro h' t x agree stands
    simp only [ifAssoc, pures agree stands]
  have same := Agree.refl home h
  have size := copy.size_eq
  refine ⟨⟨?_, ?_⟩, ?_, ?_⟩
  · exact (subst_made found homeOld fuel).1 h t x (Nat.le_refl _) old same stands enough
  · rw [← copy.replace_eq]
    exact nsubst_changed found apart unshared same stands' fuel (by omega)
  · exact sublis_made assoc homeOld (Nat.le_refl _) old same stands fuel (by omega)
  · rw [← copies.replace_eq]
    exact nsublis_changed assoc apart unshared same stands' fuel (by omega)

end Claim

def Tree.top : Tree Nat α → Object Nat α
  | .leaf x => x
  | .cons c _ _ => .cons c

theorem Stands.top {h : Heap α} {t : Tree Nat α} {x : Object Nat α} (stands : Stands h t x) :
    t.top = x := by
  cases t with
  | leaf y => exact stands.1.symm
  | cons c t u => exact stands.1.symm

theorem eq_pure [DecidableEq α] (h0 : Heap α) (home : Nat → Prop) :
    PureTest h0 home (fun _ x item => decide (item = x)) (fun t item => decide (item = t.top)) := by
  intro h t x _ stands
  simp only [stands.top]

/-- The lists (1 2) at 0 and at 2. -/
def twoLists : Heap Nat :=
  Heap.mk (fun c => .atom (c % 2 + 1)) (fun c => if c % 2 = 0 then .cons (c + 1) else .nil) 4

/-- With 9 for 2, the list becomes (1 9). -/
theorem subst_sublis_nine :
    Made twoLists (.cons () (.leaf (.atom 1)) (.cons () (.leaf (.atom 9)) (.leaf .nil)))
    (subst (fun _ => ifTest (.atom 9) fun x => decide (.atom 2 = x)) 5 twoLists (.cons 0)) ∧ Changed
    [2, 3] twoLists
    (.cons () (.leaf (.atom 1)) (.cons () (.leaf (.atom 9)) (.leaf .nil)))
    (nsublis
      (fun _ => ifAssoc [none, some (.atom 2, .atom 9)] fun x item => decide (item = x)) 5 twoLists
      (.cons 2)) := by
  let t (c : Nat) : Tree Nat Nat :=
    .cons c (.leaf (.atom 1)) (.cons (c + 1) (.leaf (.atom 2)) (.leaf .nil))
  have stands (c : Nat) (even : c % 2 = 0) : Stands twoLists (t c) (.cons c) := by
    have odd : (c + 1) % 2 = 1 := by omega
    simp [t, Stands, twoLists, even, odd, Object.consp]
  have pure : PureTest twoLists (fun _ => False) (fun _ x => decide (Object.atom 2 = x))
      (fun t => decide (.atom 2 = t.top)) :=
        fun agree stands => congrFun (eq_pure _ _ agree stands) _
  have copy : Copy (ifTest (.atom 9) fun t => decide (Object.atom 2 = t.top)) (t 0) (t 2) :=
    ⟨2, _, _, rfl, rfl, rfl, 3, _, _, rfl, rfl, rfl, rfl⟩
  have copies :
    Copy (ifAssoc [none, some (.atom 2, .atom 9)] fun t item => decide (item = t.top))
    (t 0) (t 2) :=
    ⟨2, _, _, rfl, rfl, rfl, 3, _, _, rfl, rfl, rfl, rfl⟩
  have made :=
    subst_sublis (fun _ never => by cases never) (stands 0 rfl) (by decide)
    (stands 2 rfl) (by decide)
    (fun _ _ never => never) pure (.atom 9) copy (eq_pure _ _) _ copies 5 (by decide)
  exact ⟨made.1.1, made.2.2⟩
end Ecl.Lists
