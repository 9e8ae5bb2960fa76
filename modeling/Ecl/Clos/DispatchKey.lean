import Ecl.Clos.MethodOrder

/- The vector of classes and objects under which an effective method is kept. -/
namespace Ecl.Clos

open List

/-- An entry of the spec-how list: NIL, a class, or the objects of the EQL
specializers. -/
inductive SpecHow (Obj : Type) where
  | nil
  | ofClass (c : Obj)
  | eqls (objects : List Obj)

def SpecHow.objects {Obj : Type} : SpecHow Obj → List Obj
  | .eqls objects => objects
  | _ => []

/-- The union of an entry and the specializer of one more method. -/
def SpecHow.update {Obj : Type} : SpecHow Obj → Option (Specializer Obj) → SpecHow Obj
  | .eqls objects, some (.eql x) => .eqls (x :: objects)
  | _, some (.eql x) => .eqls [x]
  | .eqls objects, _ => .eqls objects
  | _, some (.ofClass c) => .ofClass c
  | old, none => old

def nupdateSpecHowList {Obj : Type} (specHowList : List (SpecHow Obj))
    (specializers : List (Option (Specializer Obj))) : Except Failure (List (SpecHow Obj)) :=
  match specHowList with
  | [] => .ok (specializers.map (SpecHow.update .nil))
  | _ =>
    if specHowList.length = specializers.length then
      .ok (List.zipWith SpecHow.update specHowList specializers)
    else .error .badSpecializers

/-- The dimension of method_spec_vector. -/
def specVectorSize : Nat := 64

namespace GenericFunction

variable {Obj Meth Sym : Type} [DecidableEq Sym]

/-- The loop of COMPUTE-G-F-SPEC-LIST over the methods. -/
def specHowList (gf : GenericFunction Obj Meth Sym) : Except Failure (List (SpecHow Obj)) :=
  gf.methods.foldlM (fun how method => nupdateSpecHowList how (gf.specializers method)) []

/-- generic-function-spec-list: the entries other than NIL, each with the
position of its parameter in the argument precedence order. -/
def specList (gf : GenericFunction Obj Meth Sym) : Except Failure (List (SpecHow Obj × Nat)) := do
  let how ← gf.specHowList
  return (how.zip gf.required).filterMap fun (type, name) =>
    match type with
    | .nil => none
    | type => some (type, gf.argumentPrecedenceOrder.idxOf name)

end GenericFunction

section Vector

variable {Obj : Type} (image : Image Obj)

/-- The word stored for an argument. -/
def specWord (type : SpecHow Obj) (arg : Obj) : Obj :=
  match type with
  | .eqls objects => if objects.any (image.eql arg) then arg else image.classOf arg
  | _ => image.classOf arg

/-- The loop of get_spec_vector; the vector is stored backwards. -/
def specVectorLoop (args : List Obj) :
    List (SpecHow Obj × Nat) → List Obj → Except Failure (Option (List Obj))
  | [], stored => .ok (some stored.reverse)
  | (type, position) :: rest, stored =>
    match args[position]? with
    | none => .error .wrongNumArguments
    | some arg =>
      if specVectorSize < stored.length + 1 then .ok none
      else specVectorLoop args rest (specWord image type arg :: stored)

end Vector

/-- get_spec_vector; `none` for OBJNULL. -/
def GenericFunction.getSpecVector {Obj Meth Sym : Type} [DecidableEq Sym] (image : Image Obj)
    (gf : GenericFunction Obj Meth Sym) (args : List Obj) :
    Except Failure (Option (List Obj)) := do
  specVectorLoop image args (← gf.specList) [gf.self]

section Entries

variable {Obj : Type}

variable {how : SpecHow Obj} {spec : Option (Specializer Obj)}

theorem SpecHow.mem_update {x : Obj} :
    x ∈ (how.update spec).objects ↔ spec = some (.eql x) ∨ x ∈ how.objects := by
  rcases how with - | c | l <;> rcases spec with - | d | y <;>
    simp [update, objects, eq_comm]

theorem SpecHow.update_eq_nil (isNil : how.update spec = .nil) : how = .nil ∧ spec = none := by
  rcases how with - | c | l <;> rcases spec with - | d | y <;>
    simp [update] at isNil ⊢

variable {Meth : Type} (specializers : Meth → List (Option (Specializer Obj)))

/-- An entry stands for the specializers of the given methods in one place. -/
structure Covers (methods : List Meth) (i : Nat) (how : SpecHow Obj) : Prop where
  objects : ∀ x, x ∈ how.objects ↔ ∃ m ∈ methods, (specializers m)[i]? = some (some (.eql x))
  isNil : how = .nil → ∀ m ∈ methods, (specializers m)[i]? = some none

variable {specializers}

theorem Covers.update {methods : List Meth} {i : Nat}
    (covers : Covers specializers methods i how) {m : Meth}
    (found : (specializers m)[i]? = some spec) :
    Covers specializers (methods ++ [m]) i (how.update spec) := by
  refine ⟨fun x => ?_, fun isNil m' member => ?_⟩
  · rw [SpecHow.mem_update, covers.objects]
    simp only [mem_append, mem_singleton]
    constructor
    · rintro (rfl | ⟨m', member, found'⟩)
      · exact ⟨m, .inr rfl, found⟩
      · exact ⟨m', .inl member, found'⟩
    · rintro ⟨m', member | rfl, found'⟩
      · exact .inr ⟨m', member, found'⟩
      · rw [found] at found'
        exact .inl (Option.some.inj found')
  · obtain ⟨wasNil, rfl⟩ := SpecHow.update_eq_nil isNil
    rcases mem_append.mp member with member | member
    · exact covers.isNil wasNil m' member
    · cases mem_singleton.mp member
      exact found

theorem Covers.none {i : Nat} : Covers specializers [] i .nil :=
  ⟨fun x => by simp [SpecHow.objects], fun _ _ member => by cases member⟩

/-- The spec-how list after some methods. -/
def CoversAll (specializers : Meth → List (Option (Specializer Obj))) (size : Nat)
    (methods : List Meth) (how : List (SpecHow Obj)) : Prop :=
  how.length = size ∧ ∀ i entry, how[i]? = some entry → Covers specializers methods i entry

theorem nupdateSpecHowList_covers {size : Nat} {methods : List Meth} {how : List (SpecHow Obj)}
    (covers : methods = [] ∧ how = [] ∨ CoversAll specializers size methods how) {m : Meth}
    (length : (specializers m).length = size) :
    ∃ next, nupdateSpecHowList how (specializers m) = .ok next ∧
      CoversAll specializers size (methods ++ [m]) next := by
  have fresh : ∀ {methods : List Meth}, (∀ i < size, Covers specializers methods i .nil) →
      CoversAll specializers size (methods ++ [m])
        ((specializers m).map (SpecHow.update .nil)) := by
    intro methods covers
    refine ⟨by rw [length_map, length], fun i entry found => ?_⟩
    rw [List.getElem?_map, Option.map_eq_some_iff] at found
    obtain ⟨spec, found, rfl⟩ := found
    exact (covers i (by rw [← length]; exact (List.getElem?_eq_some_iff.mp found).1)).update found
  cases how with
  | nil =>
    refine ⟨_, rfl, fresh fun i inside => ?_⟩
    rcases covers with ⟨rfl, -⟩ | ⟨empty, -⟩
    · exact .none
    · rw [← empty] at inside
      exact absurd inside (Nat.not_lt_zero i)
  | cons first how =>
    obtain ⟨same, covers⟩ := covers.resolve_left fun start => by cases start.2
    have equal : (first :: how).length = (specializers m).length := by rw [same, length]
    refine ⟨List.zipWith SpecHow.update (first :: how) (specializers m), ?_, ?_, ?_⟩
    · unfold nupdateSpecHowList
      exact if_pos equal
    · rw [length_zipWith, ← equal, Nat.min_self, same]
    · intro i entry found
      rw [List.getElem?_zipWith_eq_some] at found
      obtain ⟨old, spec, foundOld, foundSpec, rfl⟩ := found
      exact (covers i old foundOld).update foundSpec

theorem foldlM_covers {size : Nat} (rest : List Meth) : ∀ {methods : List Meth}
    {how : List (SpecHow Obj)}, (∀ m ∈ rest, (specializers m).length = size) →
    (methods = [] ∧ how = [] ∨ CoversAll specializers size methods how) →
    ∃ final, rest.foldlM (fun how m => nupdateSpecHowList how (specializers m)) how = .ok final ∧
      (methods ++ rest = [] ∧ final = [] ∨
        CoversAll specializers size (methods ++ rest) final) := by
  induction rest with
  | nil =>
    intro methods how _ covers
    exact ⟨how, rfl, by simpa using covers⟩
  | cons m rest ih =>
    intro methods how lengths covers
    obtain ⟨length, lengths⟩ := forall_mem_cons.mp lengths
    obtain ⟨next, updated, coversNext⟩ := nupdateSpecHowList_covers covers length
    obtain ⟨final, returned, coversFinal⟩ := ih lengths (.inr coversNext)
    refine ⟨final, ?_, by simpa using coversFinal⟩
    rw [foldlM_cons, updated]
    exact returned

end Entries

section Words

variable {Obj : Type} {image : Image Obj}

theorem specVectorLoop_words {args : List Obj} (specs : List (SpecHow Obj × Nat)) :
    ∀ {stored vector : List Obj}, specVectorLoop image args specs stored = .ok (some vector) →
      ∃ words, vector = stored.reverse ++ words ∧
        List.Forall₂ (fun spec word => ∃ arg, args[spec.2]? = some arg ∧
          word = specWord image spec.1 arg) specs words := by
  induction specs with
  | nil =>
    intro stored vector built
    cases built
    exact ⟨[], (append_nil _).symm, .nil⟩
  | cons spec specs ih =>
    intro stored vector built
    obtain ⟨type, position⟩ := spec
    simp only [specVectorLoop] at built
    split at built
    · cases built
    · rename_i arg found
      split at built
      · cases built
      · obtain ⟨words, rfl, all⟩ := ih built
        exact ⟨specWord image type arg :: words, by simp, .cons ⟨arg, found, rfl⟩ all⟩

theorem specVectorLoop_same {a b : List Obj} {specs : List (SpecHow Obj × Nat)}
    {stored vector : List Obj} (builtA : specVectorLoop image a specs stored = .ok (some vector))
    (builtB : specVectorLoop image b specs stored = .ok (some vector)) :
    ∀ spec ∈ specs, ∃ arg arg', a[spec.2]? = some arg ∧ b[spec.2]? = some arg' ∧
      specWord image spec.1 arg = specWord image spec.1 arg' := by
  obtain ⟨words, split, wordsA⟩ := specVectorLoop_words specs builtA
  obtain ⟨words', split', wordsB⟩ := specVectorLoop_words specs builtB
  have same : words = words' := append_cancel_left (split.symm.trans split')
  subst same
  clear split split' builtA builtB
  induction wordsA with
  | nil => intro spec member; cases member
  | cons hereA _ ih =>
    cases wordsB with
    | cons hereB laterB =>
      intro spec member
      rcases mem_cons.mp member with rfl | member
      · obtain ⟨arg, found, word⟩ := hereA
        obtain ⟨arg', found', word'⟩ := hereB
        exact ⟨arg, arg', found, found', word.symm.trans word'⟩
      · exact ih laterB spec member

theorem specWord_eq (type : SpecHow Obj) (arg : Obj) :
    specWord image type arg =
      if type.objects.any (image.eql arg) then arg else image.classOf arg := by
  cases type <;> rfl

theorem length_zipWithAll {α β γ : Type} {f : Option α → Option β → γ} {l : List α} :
    ∀ {l' : List β}, (List.zipWithAll f l l').length = max l.length l'.length := by
  induction l with
  | nil => simp
  | cons x l ih =>
    intro l'
    cases l' with
    | nil => simp
    | cons y l' => simp [ih, Nat.succ_max_succ]

theorem compareSpecializersPairs_congr [DecidableEq Obj]
    (pairs : List (Option (Specializer Obj) × Option (Specializer Obj))) :
    ∀ {classes classes' : List Obj}, (∀ i < pairs.length, classes[i]? = classes'[i]?) →
      compareSpecializersPairs image pairs classes =
        compareSpecializersPairs image pairs classes' := by
  induction pairs with
  | nil => intros; rfl
  | cons pair pairs ih =>
    intro classes classes' same
    have head : classes.head? = classes'.head? := by
      rw [List.head?_eq_getElem?, List.head?_eq_getElem?]
      exact same 0 (Nat.zero_lt_succ _)
    have tail : compareSpecializersPairs image pairs classes.tail =
        compareSpecializersPairs image pairs classes'.tail := ih fun i inside => by
      rw [List.getElem?_tail, List.getElem?_tail]
      exact same (i + 1) (Nat.succ_lt_succ inside)
    simp only [compareSpecializersPairs, head, tail]

end Words

namespace GenericFunction

variable {Obj Meth Sym : Type} [DecidableEq Sym] {image : Image Obj}
  {gf : GenericFunction Obj Meth Sym}

/-- An argument is EQL to an object for which a method is specialized on the
named parameter. -/
def Listed (image : Image Obj) (gf : GenericFunction Obj Meth Sym) (name : Sym) (arg : Obj) :
    Prop :=
  ∃ m ∈ gf.methods, ∃ x, (gf.specializers m)[gf.required.idxOf name]? = some (some (.eql x)) ∧
    image.eql arg x = true

/-- The arguments of two calls in one place are not confused by the key. The word
for it is looked up among the objects of the parameter `looked`, which may be
another one than its own. -/
structure Unconfused (image : Image Obj) (gf : GenericFunction Obj Meth Sym) (own looked : Sym)
    (arg arg' : Obj) : Prop where
  /-- Two arguments outside the list are EQL to the same objects of their own
  parameter. -/
  outside : ¬ gf.Listed image looked arg → ¬ gf.Listed image looked arg' →
    ∀ m ∈ gf.methods, ∀ x, (gf.specializers m)[gf.required.idxOf own]? = some (some (.eql x)) →
      image.eql arg x = image.eql arg' x
  /-- A listed argument is not the class of an argument outside the list. -/
  left : gf.Listed image looked arg → ¬ gf.Listed image looked arg' → arg ≠ image.classOf arg'
  right : gf.Listed image looked arg' → ¬ gf.Listed image looked arg → arg' ≠ image.classOf arg

/-- No place confuses the arguments of two calls. -/
def Clear (image : Image Obj) (gf : GenericFunction Obj Meth Sym) (a b : List Obj) : Prop :=
  ∀ (i : Nat) (own looked : Sym) (arg arg' : Obj), gf.required[i]? = some own →
    gf.argumentPrecedenceOrder[i]? = some looked → a[i]? = some arg → b[i]? = some arg' →
    gf.Unconfused image own looked arg arg'

/-- Two arguments that no method tells apart in the given place. -/
def Alike (image : Image Obj) (gf : GenericFunction Obj Meth Sym) (i : Nat) (arg arg' : Obj) :
    Prop :=
  image.classOf arg = image.classOf arg' ∧
    ∀ m ∈ gf.methods, ∀ x, (gf.specializers m)[i]? = some (some (.eql x)) →
      image.eql arg x = image.eql arg' x

/-- The arguments of two calls are alike in every place. -/
def AlikeArgs (image : Image Obj) (gf : GenericFunction Obj Meth Sym) (a b : List Obj) : Prop :=
  ∀ i < gf.required.length, ∃ arg arg', a[i]? = some arg ∧ b[i]? = some arg' ∧
    gf.Alike image i arg arg'

theorem alike_of_word {own looked : Sym} {arg arg' : Obj} {how : SpecHow Obj}
    (covers : Covers gf.specializers gf.methods (gf.required.idxOf looked) how)
    (clear : Unconfused image gf own looked arg arg')
    (word : specWord image how arg = specWord image how arg') :
    gf.Alike image (gf.required.idxOf own) arg arg' := by
  have listed : ∀ arg, how.objects.any (image.eql arg) = true ↔ gf.Listed image looked arg := by
    intro arg
    rw [any_eq_true]
    constructor
    · rintro ⟨x, member, same⟩
      obtain ⟨m, present, found⟩ := (covers.objects x).mp member
      exact ⟨m, present, x, found, same⟩
    · rintro ⟨m, present, x, found, same⟩
      exact ⟨x, (covers.objects x).mpr ⟨m, present, found⟩, same⟩
  have word_of : ∀ {arg}, gf.Listed image looked arg → specWord image how arg = arg :=
    fun {arg} inside => by rw [specWord_eq, if_pos ((listed arg).mpr inside)]
  have class_of : ∀ {arg}, ¬ gf.Listed image looked arg →
      specWord image how arg = image.classOf arg :=
    fun {arg} inside => by rw [specWord_eq, if_neg (mt (listed arg).mp inside)]
  by_cases inside : gf.Listed image looked arg
  · by_cases inside' : gf.Listed image looked arg'
    · rw [word_of inside, word_of inside'] at word
      subst word
      exact ⟨rfl, fun _ _ _ _ => rfl⟩
    · rw [word_of inside, class_of inside'] at word
      exact absurd word (clear.left inside inside')
  · by_cases inside' : gf.Listed image looked arg'
    · rw [class_of inside, word_of inside'] at word
      exact absurd word.symm (clear.right inside' inside)
    · rw [class_of inside, class_of inside'] at word
      exact ⟨word, clear.outside inside inside'⟩

/-- Every required argument has an entry in the spec list, under the parameter
at its place in the argument precedence order. -/
theorem exists_spec {how : List (SpecHow Obj)} (returned : gf.specHowList = .ok how)
    (covers : CoversAll gf.specializers gf.required.length gf.methods how)
    {method : Meth} (present : method ∈ gf.methods)
    (specialized : ∀ s ∈ gf.specializers method, s ≠ none) {i : Nat} {looked : Sym}
    (found : gf.argumentPrecedenceOrder[i]? = some looked) :
    ∃ specs entry, gf.specList = .ok specs ∧ (entry, i) ∈ specs ∧
      Covers gf.specializers gf.methods (gf.required.idxOf looked) entry := by
  have member : looked ∈ gf.argumentPrecedenceOrder := mem_of_getElem? found
  have inside := gf.idxOf_lt member
  have named : gf.required[gf.required.idxOf looked]? = some looked := by
    rw [List.getElem?_eq_getElem inside, getElem_idxOf]
  obtain ⟨entry, filled⟩ : ∃ entry, how[gf.required.idxOf looked]? = some entry :=
    ⟨_, List.getElem?_eq_getElem (by rw [covers.1]; exact inside)⟩
  have coversEntry := covers.2 _ entry filled
  have ranked : gf.argumentPrecedenceOrder.idxOf looked = i := by
    obtain ⟨bound, rfl⟩ := List.getElem?_eq_some_iff.mp found
    exact (gf.order_perm.nodup_iff.mpr gf.required_nodup).idxOf_getElem i bound
  have notNil : entry ≠ .nil := by
    intro isNil
    have unspecialized := coversEntry.isNil isNil method present
    exact specialized none (mem_of_getElem? unspecialized) rfl
  refine ⟨_, entry, by rw [specList, returned]; rfl, ?_, coversEntry⟩
  refine mem_filterMap.mpr ⟨(entry, looked), ?_, ?_⟩
  · refine mem_of_getElem? (i := gf.required.idxOf looked) ?_
    rw [List.getElem?_zip_eq_some]
    exact ⟨filled, named⟩
  · cases entry with
    | nil => exact absurd rfl notNil
    | ofClass c => simp only [ranked]
    | eqls objects => simp only [ranked]

omit [DecidableEq Sym] in
theorem specHowList_covers (gf : GenericFunction Obj Meth Sym) :
    ∃ how, gf.specHowList = .ok how ∧
      (gf.methods = [] ∨ CoversAll gf.specializers gf.required.length gf.methods how) := by
  have start : ([] : List Meth) = [] ∧ ([] : List (SpecHow Obj)) = [] ∨
      CoversAll gf.specializers gf.required.length [] [] := .inl ⟨rfl, rfl⟩
  obtain ⟨how, returned, covers⟩ := foldlM_covers gf.methods gf.congruent start
  exact ⟨how, returned, covers.imp And.left id⟩

theorem alike_of_same_key {a b vector : List Obj}
    (specialized : ∀ m ∈ gf.methods, ∀ s ∈ gf.specializers m, s ≠ none)
    (builtA : gf.getSpecVector image a = .ok (some vector))
    (builtB : gf.getSpecVector image b = .ok (some vector))
    (clear : gf.Clear image a b) {method : Meth} (present : method ∈ gf.methods)
    {i : Nat} (inside : i < gf.required.length) :
    ∃ arg arg', a[i]? = some arg ∧ b[i]? = some arg' ∧ gf.Alike image i arg arg' := by
  obtain ⟨how, returned, empty | covers⟩ := gf.specHowList_covers
  · rw [empty] at present
    cases present
  · have bound : i < gf.argumentPrecedenceOrder.length := by
      rw [gf.order_perm.length_eq]
      exact inside
    have found := List.getElem?_eq_getElem bound
    obtain ⟨specs, entry, spec, member, coversEntry⟩ :=
      exists_spec returned covers present (specialized method present) found
    rw [getSpecVector, spec] at builtA builtB
    obtain ⟨arg, arg', foundA, foundB, word⟩ := specVectorLoop_same builtA builtB _ member
    have named := List.getElem?_eq_getElem inside
    have alike := alike_of_word coversEntry (clear i _ _ arg arg' named found foundA foundB) word
    rw [gf.required_nodup.idxOf_getElem i inside] at alike
    exact ⟨arg, arg', foundA, foundB, alike⟩

section Same

variable [DecidableEq Obj] {a b : List Obj}

variable {m : Meth}

omit [DecidableEq Sym] in
theorem Alike.satisfies_eq {i : Nat} {arg arg' : Obj} (alike : gf.Alike image i arg arg')
    (present : m ∈ gf.methods) {spec : Option (Specializer Obj)}
    (found : (gf.specializers m)[i]? = some spec) :
    satisfies image arg spec = satisfies image arg' spec := by
  rcases spec with - | c | x
  · rfl
  · simp only [satisfies, ofClassP, alike.1]
  · exact alike.2 m present x found

omit [DecidableEq Obj] [DecidableEq Sym] in
theorem AlikeArgs.symm (alike : gf.AlikeArgs image a b) : gf.AlikeArgs image b a := by
  intro i inside
  obtain ⟨arg, arg', foundA, foundB, same⟩ := alike i inside
  exact ⟨arg', arg, foundB, foundA, same.1.symm, fun m present x found =>
    (same.2 m present x found).symm⟩

omit [DecidableEq Sym] in
theorem AlikeArgs.applicable (alike : gf.AlikeArgs image a b)
    (present : m ∈ gf.methods) (applies : Clos.applicable image a (gf.specializers m) = true) :
    Clos.applicable image b (gf.specializers m) = true := by
  refine applicable_iff.mpr fun i arg' spec foundB found => ?_
  have inside : i < gf.required.length := by
    rw [← gf.congruent m present]
    exact (List.getElem?_eq_some_iff.mp found).1
  obtain ⟨arg, other, foundA, foundOther, same⟩ := alike i inside
  rw [foundB] at foundOther
  cases foundOther
  rw [Applies, ← same.satisfies_eq present found]
  exact applicable_iff.mp applies i arg spec foundA found

theorem AlikeArgs.replaces_eq (alike : gf.AlikeArgs image a b) {m' : Meth}
    (present : m ∈ gf.methods) (present' : m' ∈ gf.methods) :
    gf.replaces image a m m' = gf.replaces image b m m' := by
  have classes : ∀ i < gf.required.length,
      (a.map image.classOf)[i]? = (b.map image.classOf)[i]? := by
    intro i inside
    obtain ⟨arg, arg', foundA, foundB, same⟩ := alike i inside
    rw [List.getElem?_map, List.getElem?_map, foundA, foundB]
    exact congrArg some same.1
  have length : ∀ l : List (Option (Specializer Obj)),
      (gf.inOrder l).length ≤ gf.required.length := by
    intro l
    rw [← gf.order_perm.length_eq]
    exact length_filterMap_le _ _
  simp only [replaces, compareMethods, aPOFunction_eq (gf.congruent m present),
    aPOFunction_eq (gf.congruent m' present')]
  refine congrArg (Except.map _) ?_
  refine compareSpecializersPairs_congr _ fun i inside => classes i ?_
  rw [length_zipWithAll] at inside
  have := length (gf.specializers m)
  have := length (gf.specializers m')
  omega

/-- Calls with the same key have the same applicable methods in the same
order. -/
theorem same_key_same_methods [DecidableEq Meth] (gf : GenericFunction Obj Meth Sym)
    {a b vector : List Obj}
    (specialized : ∀ m ∈ gf.methods, ∀ s ∈ gf.specializers m, s ≠ none)
    (builtA : gf.getSpecVector image a = .ok (some vector))
    (builtB : gf.getSpecVector image b = .ok (some vector)) (clear : gf.Clear image a b) :
    gf.computeApplicableMethods image a = gf.computeApplicableMethods image b := by
  by_cases empty : gf.methods = []
  · simp only [computeApplicableMethods, applicableMethods, empty, filter_nil,
      reverse_nil]
    rfl
  · obtain ⟨method, present⟩ := exists_mem_of_ne_nil _ empty
    have alike : gf.AlikeArgs image a b := fun i inside =>
      alike_of_same_key specialized builtA builtB clear present inside
    have methods : gf.applicableMethods image a = gf.applicableMethods image b := by
      refine filter_congr fun m member => ?_
      rw [Bool.eq_iff_iff]
      exact ⟨alike.applicable member, alike.symm.applicable member⟩
    have inside : ∀ m ∈ (gf.applicableMethods image b).reverse, m ∈ gf.methods := fun m member =>
      (mem_filter.mp (mem_reverse.mp member)).1
    rw [computeApplicableMethods, computeApplicableMethods, methods]
    exact Select.select_congr fun m member m' member' =>
      alike.replaces_eq (inside m member) (inside m' member')

end Same

end GenericFunction

/-- A method on one object in the first parameter, and a default method. -/
def onObject (required order : List Nat) (nodup : required.Nodup) (perm : order.Perm required)
    (x : Nat) : GenericFunction Nat Bool Nat where
  self := 9
  required := required
  argumentPrecedenceOrder := order
  methods := [false, true]
  specializers m :=
    required.map fun name => some (if name = 0 ∧ m = false then .eql x else .ofClass 1)
  required_nodup := nodup
  order_perm := perm
  methods_nodup := twoMethods_nodup
  congruent _ _ := length_map _

theorem onObject_specialized {required order : List Nat} {nodup : required.Nodup}
    {perm : order.Perm required} {x : Nat} :
    ∀ m ∈ (onObject required order nodup perm x).methods,
      ∀ s ∈ (onObject required order nodup perm x).specializers m, s ≠ none := by
  intro m _ s member
  obtain ⟨name, -, rfl⟩ := mem_map.mp member
  exact Option.some_ne_none _

theorem same_key_same_methods_outside :
    (onObject [0] [0] (by decide) (.refl _) 4).computeApplicableMethods diamond [10] =
      (onObject [0] [0] (by decide) (.refl _) 4).computeApplicableMethods diamond [11] := by
  have builtA : (onObject [0] [0] (by decide) (.refl _) 4).getSpecVector diamond [10] =
      .ok (some [9, 6]) := by decide
  refine GenericFunction.same_key_same_methods _ onObject_specialized builtA (by decide) ?_
  have only : ∀ (m : Bool) (x : Nat), ((onObject [0] [0] (by decide) (.refl _) 4).specializers
      m)[0]? = some (some (.eql x)) → x = 4 := by
    intro m x found
    cases m
    · simpa [onObject, eq_comm] using found
    · simp [onObject] at found
  intro i own looked arg arg' isOwn isLooked isArg isArg'
  cases i with
  | zero =>
    cases isOwn
    cases isLooked
    cases isArg
    cases isArg'
    have outside : ∀ arg, arg ≠ 4 →
        ¬ (onObject [0] [0] (by decide) (.refl _) 4).Listed diamond 0 arg := by
      rintro arg differ ⟨m, -, x, found, same⟩
      rw [only m x found] at same
      exact differ (of_decide_eq_true same)
    refine ⟨fun _ _ m _ x found => ?_, fun listed _ => absurd listed (outside 10 (by decide)),
      fun listed _ => absurd listed (outside 11 (by decide))⟩
    rw [only m x found]
    rfl
  | succ i => cases isOwn

/-- The class C and an instance of C have the same key where a method is
specialized on C as an object; and when the precedence order of two parameters is
exchanged, an object of the first parameter is looked up in the second. -/
theorem same_key_other_methods :
    ((onObject [0] [0] (by decide) (.refl _) 4).getSpecVector diamond [4] = .ok (some [9, 4]) ∧
      (onObject [0] [0] (by decide) (.refl _) 4).getSpecVector diamond [8] = .ok (some [9, 4]) ∧
      (onObject [0] [0] (by decide) (.refl _) 4).computeApplicableMethods diamond [4] =
        .ok [false, true] ∧
      (onObject [0] [0] (by decide) (.refl _) 4).computeApplicableMethods diamond [8] =
        .ok [true]) ∧
    (onObject [0, 1] [1, 0] (by decide) (.swap _ _ _) 10).getSpecVector diamond [10, 7] =
        .ok (some [9, 5, 6]) ∧
      (onObject [0, 1] [1, 0] (by decide) (.swap _ _ _) 10).getSpecVector diamond [11, 7] =
        .ok (some [9, 5, 6]) ∧
      (onObject [0, 1] [1, 0] (by decide) (.swap _ _ _) 10).computeApplicableMethods diamond
        [10, 7] = .ok [false, true] ∧
      (onObject [0, 1] [1, 0] (by decide) (.swap _ _ _) 10).computeApplicableMethods diamond
        [11, 7] = .ok [true] := by
  decide

end Ecl.Clos
