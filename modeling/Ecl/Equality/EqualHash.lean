import Ecl.Equality.Equal

/- Objects that are EQL or EQUAL have the same hash. -/
namespace Ecl.Equality

open List BitVec

theorem andAlso_eq_true {first second : Option Bool} :
    andAlso first second = some true ↔ first = some true ∧ second = some true := by
  cases first with
  | none => simp [andAlso]
  | some b => cases b <;> simp [andAlso]

theorem eq_of_same_sign {k x y : Nat} (zeroX : x % 2 ^ k = 0) (zeroY : y % 2 ^ k = 0)
    (sign : x / 2 ^ k = y / 2 ^ k) : x = y := by
  rw [← Nat.div_add_mod x (2 ^ k), ← Nat.div_add_mod y (2 ^ k), zeroX, zeroY, sign]

theorem eq_of_floatEql {e m x y : Nat} (eql : floatEql e m x y = true) : x = y := by
  unfold floatEql at eql
  split at eql
  · rename_i same
    simp only [floatEq, isZero, Bool.and_eq_true, Bool.or_eq_true, beq_iff_eq] at same eql
    rcases same.2 with same | ⟨zeroX, zeroY⟩
    · exact same
    · exact eq_of_same_sign zeroX zeroY eql
  · split at eql
    · exact beq_iff_eq.mp eql
    · cases eql

variable {heap : Heap}

theorem hashParts_congr {hash hash' : Word → Ref → Option Word} {xs ys : List Ref}
    (length : xs.length = ys.length)
    (same : ∀ pair ∈ xs.zip ys, ∀ h, hash h pair.1 = hash' h pair.2) :
    ∀ h, hashParts hash xs h = hashParts hash' ys h := by
  induction xs generalizing ys with
  | nil =>
    intro h
    cases eq_nil_of_length_eq_zero length.symm
    rfl
  | cons x xs ih =>
    intro h
    cases ys with
    | nil => cases length
    | cons y ys =>
      rw [hashParts, hashParts, same (x, y) mem_cons_self h]
      congr 1
      funext h'
      exact ih (Nat.succ.inj length) (fun pair member => same pair (mem_cons_of_mem _ member))
        h'

theorem hashParts_pair {hash hash' : Word → Ref → Option Word} {x y x' y' : Ref}
    (first : ∀ h, hash h x = hash' h x') (second : ∀ h, hash h y = hash' h y') (h : Word) :
    hashParts hash [x, y] h = hashParts hash' [x', y'] h := by
  have length : [x, y].length = [x', y'].length := rfl
  refine hashParts_congr length (fun pair member => ?_) h
  rcases mem_cons.mp member with rfl | member
  · exact first
  · cases mem_singleton.mp member
    exact second

theorem eclEql_succ {n : Nat} {x y : Ref} (eql : eclEql heap (n + 1) x y = some true) :
    x = y ∨
      (∃ value, heap.look x = .bignum value ∧ heap.look y = .bignum value) ∨
      (∃ num den num' den', heap.look x = .ratio num den ∧ heap.look y = .ratio num' den' ∧
        eclEql heap n num num' = some true ∧ eclEql heap n den den' = some true) ∨
      (∃ re im re' im', heap.look x = .complex re im ∧ heap.look y = .complex re' im' ∧
        eclEql heap n re re' = some true ∧ eclEql heap n im im' = some true) ∨
      (∃ bits, heap.look x = .singleFloat bits ∧ heap.look y = .singleFloat bits) ∨
      (∃ bits, heap.look x = .doubleFloat bits ∧ heap.look y = .doubleFloat bits) ∨
      (∃ code, heap.look x = .character code ∧ heap.look y = .character code) := by
  rw [eclEql] at eql
  split at eql
  · exact .inl ‹_›
  · refine .inr ?_
    split at eql
    · rename_i a b lookX lookY
      cases beq_iff_eq.mp (Option.some.inj eql)
      exact .inl ⟨a, lookX, lookY⟩
    · rename_i num den num' den' lookX lookY
      exact .inr (.inl ⟨num, den, num', den', lookX, lookY, andAlso_eq_true.mp eql⟩)
    · rename_i a b lookX lookY
      cases eq_of_toNat_eq (eq_of_floatEql (Option.some.inj eql))
      exact .inr (.inr (.inr (.inl ⟨a, lookX, lookY⟩)))
    · rename_i a b lookX lookY
      cases eq_of_toNat_eq (eq_of_floatEql (Option.some.inj eql))
      exact .inr (.inr (.inr (.inr (.inl ⟨a, lookX, lookY⟩))))
    · rename_i re im re' im' lookX lookY
      exact .inr (.inr (.inl ⟨re, im, re', im', lookX, lookY, andAlso_eq_true.mp eql⟩))
    · rename_i a b lookX lookY
      cases beq_iff_eq.mp (Option.some.inj eql)
      exact .inr (.inr (.inr (.inr (.inr ⟨a, lookX, lookY⟩))))
    · cases eql

theorem hashEql_of_eql {n : Nat} : ∀ {x y : Ref}, eclEql heap n x y = some true →
    ∀ m h, hashEql heap m h x = hashEql heap m h y := by
  induction n with
  | zero =>
    intro x y eql
    cases eql
  | succ n ih =>
    intro x y eql m h
    cases m with
    | zero => rfl
    | succ m =>
      rcases eclEql_succ eql with rfl | ⟨_, lookX, lookY⟩ |
        ⟨_, _, _, _, lookX, lookY, first, second⟩ | ⟨_, _, _, _, lookX, lookY, first, second⟩ |
        ⟨_, lookX, lookY⟩ | ⟨_, lookX, lookY⟩ | ⟨_, lookX, lookY⟩
      · rfl
      · rw [hashEql, hashEql, lookX, lookY]
      · rw [hashEql, hashEql, lookX, lookY]
        exact hashParts_pair (ih first m) (ih second m) h
      · rw [hashEql, hashEql, lookX, lookY]
        exact hashParts_pair (ih first m) (ih second m) h
      · rw [hashEql, hashEql, lookX, lookY]
      · rw [hashEql, hashEql, lookX, lookY]
      · rw [hashEql, hashEql, lookX, lookY]

theorem hashEqual_of_eql {n : Nat} : ∀ {x y : Ref}, eclEql heap n x y = some true →
    ∀ m depth h, hashEqual heap m depth h x = hashEqual heap m depth h y := by
  induction n with
  | zero =>
    intro x y eql
    cases eql
  | succ n ih =>
    intro x y eql m depth h
    cases m with
    | zero => rfl
    | succ m =>
      rcases eclEql_succ eql with rfl | ⟨_, lookX, lookY⟩ |
        ⟨_, _, _, _, lookX, lookY, first, second⟩ | ⟨_, _, _, _, lookX, lookY, first, second⟩ |
        ⟨_, lookX, lookY⟩ | ⟨_, lookX, lookY⟩ | ⟨_, lookX, lookY⟩
      · rfl
      · rw [hashEqual, hashEqual, lookX, lookY]
        exact hashEql_of_eql eql m h
      · rw [hashEqual, hashEqual, lookX, lookY]
        exact hashEql_of_eql eql m h
      · rw [hashEqual, hashEqual, lookX, lookY]
        exact hashParts_pair (ih first m depth) (ih second m depth) h
      · rw [hashEqual, hashEqual, lookX, lookY]
      · rw [hashEqual, hashEqual, lookX, lookY]
      · rw [hashEqual, hashEqual, lookX, lookY]
        exact hashEql_of_eql eql m h

theorem stringCodes_of_eq {x y : Object} (same : eclStringEq x y = true) :
    ∃ codes, stringCodes x = some codes ∧ stringCodes y = some codes := by
  cases x with
  | baseString s =>
    cases y with
    | baseString t =>
      simp only [eclStringEq, Bool.and_eq_true, beq_iff_eq] at same
      exact ⟨_, rfl, by rw [stringCodes, same.2]⟩
    | string t =>
      simp only [eclStringEq, Bool.and_eq_true, beq_iff_eq] at same
      exact ⟨_, rfl, by rw [stringCodes, same.2]⟩
    | _ => simp [eclStringEq] at same
  | string s =>
    cases y with
    | baseString t =>
      simp only [eclStringEq, Bool.and_eq_true, beq_iff_eq] at same
      exact ⟨_, rfl, by rw [stringCodes, same.2]⟩
    | string t =>
      simp only [eclStringEq, Bool.and_eq_true, beq_iff_eq] at same
      exact ⟨_, rfl, by rw [stringCodes, same.2]⟩
    | _ => simp [eclStringEq] at same
  | _ => simp [eclStringEq] at same

theorem hashEqual_string {x : Ref} {codes : List Word}
    (string : stringCodes (heap.look x) = some codes) (m : Nat) (depth : Int) (h : Word) :
    hashEqual heap (m + 1) depth h x = some (hashCodes codes h) := by
  rw [hashEqual]
  cases look : heap.look x with
  | baseString s =>
    rw [look] at string
    cases string
    rfl
  | string s =>
    rw [look] at string
    cases string
    rfl
  | _ =>
    rw [look] at string
    cases string

theorem byte_eq_of_masks {b b' : Byte}
    (same : ∀ k < 8, b &&& (0x80#8 >>> k) = b' &&& (0x80#8 >>> k)) :
    b = b' := by
  refine eq_of_getLsbD_eq fun i inside => ?_
  have bit := congrArg (·.getLsbD i) (same (7 - i) (by omega))
  have mask : (0x80#8).getLsbD (7 - i + i) = true := by
    rw [Nat.sub_add_cancel (by omega)]
    rfl
  simpa only [getLsbD_and, getLsbD_ushiftRight, mask, Bool.and_true] using bit

theorem take_eq_of_sameBits {v v' : Bits} (same : sameBits v v' = true) (offset : v.offset = 0)
    (offset' : v'.offset = 0) : v.self.take (v.fillp / 8) = v'.self.take (v'.fillp / 8) := by
  simp only [sameBits, Bool.and_eq_true, beq_iff_eq, all_eq_true, mem_range] at same
  obtain ⟨fillp, bits⟩ := same
  have enough := v.enough
  have enough' := v'.enough
  have length : (v.self.take (v.fillp / 8)).length = v.fillp / 8 := by
    rw [length_take]
    omega
  have length' : (v'.self.take (v'.fillp / 8)).length = v.fillp / 8 := by
    rw [length_take]
    omega
  refine ext_getElem (length.trans length'.symm) fun j inside inside' => ?_
  rw [length] at inside
  have here : j < v.self.length := by omega
  have here' : j < v'.self.length := by omega
  rw [getElem_take, getElem_take]
  refine byte_eq_of_masks fun k bound => ?_
  have bit := bits (8 * j + k) (by omega)
  have quotient : (8 * j + k) / 8 = j := by omega
  have remainder : (8 * j + k) % 8 = k := by omega
  simp only [Bits.masked, offset, offset', Nat.add_zero, quotient, remainder] at bit
  rwa [← getElem_eq_getD 0, ← getElem_eq_getD 0] at bit

theorem eclEqual_succ {n : Nat} {x y : Ref} (equal : eclEqual heap (n + 1) x y = some true) :
    eclEql heap (n + 1) x y = some true ∨
      (∃ car cdr car' cdr', heap.look x = .cons car cdr ∧ heap.look y = .cons car' cdr' ∧
        eclEqual heap n car car' = some true ∧ eclEqual heap n cdr cdr' = some true) ∨
      (∃ codes, stringCodes (heap.look x) = some codes ∧ stringCodes (heap.look y) = some codes) ∨
      (∃ v v', heap.look x = .bitVector v ∧ heap.look y = .bitVector v' ∧ sameBits v v' = true) ∨
      (∃ p p', heap.look x = .pathname p ∧ heap.look y = .pathname p' ∧
        ∀ part ∈ p.parts.zip p'.parts, eclEqual heap n part.1 part.2 = some true) ∨
      (∃ data, heap.look x = .foreign data ∧ heap.look y = .foreign data) := by
  rw [eclEqual] at equal
  split at equal
  · rename_i same
    exact .inl (by rw [eclEql, if_pos same])
  · rename_i differ
    have numeric : ∀ {o : Option Bool}, eclEql heap (n + 1) x y = o → o = some true →
        eclEql heap (n + 1) x y = some true := fun step eql => step.trans eql
    split at equal
    · rename_i car cdr car' cdr' lookX lookY
      exact .inr (.inl ⟨car, cdr, car', cdr', lookX, lookY, andAlso_eq_true.mp equal⟩)
    iterate 6
      rename_i lookX lookY
      exact .inl (numeric (by rw [eclEql, if_neg differ, lookX, lookY]) equal)
    iterate 4
      rename_i lookX lookY
      rw [lookX, lookY]
      exact .inr (.inr (.inl (stringCodes_of_eq (Option.some.inj equal))))
    · rename_i v v' lookX lookY
      exact .inr (.inr (.inr (.inl ⟨v, v', lookX, lookY, Option.some.inj equal⟩)))
    · rename_i p p' lookX lookY
      simp only [andAlso_eq_true] at equal
      obtain ⟨host, device, directory, name, type, version⟩ := equal
      refine .inr (.inr (.inr (.inr (.inl ⟨p, p', lookX, lookY, fun part member => ?_⟩))))
      simp only [Pathname.parts, zip_cons_cons, zip_nil_left, mem_cons,
        not_mem_nil, or_false] at member
      rcases member with rfl | rfl | rfl | rfl | rfl | rfl
      · exact directory
      · exact name
      · exact type
      · exact host
      · exact device
      · exact version
    · rename_i data data' lookX lookY
      cases beq_iff_eq.mp (Option.some.inj equal)
      exact .inr (.inr (.inr (.inr (.inr ⟨data, lookX, lookY⟩))))
    · cases equal

variable (heap) in
/-- The pairs of objects at the same place of two objects that the hash function
reaches. -/
inductive Meets : Int → Ref → Ref → Ref → Ref → Prop where
  | here (depth : Int) (x y : Ref) : Meets depth x y x y
  | car {depth : Int} {x y u v car cdr car' cdr' : Ref} (lookX : heap.look x = .cons car cdr)
      (lookY : heap.look y = .cons car' cdr') (deep : depth - 1 ≠ 0)
      (rest : Meets (depth - 1) car car' u v) : Meets depth x y u v
  | cdr {depth : Int} {x y u v car cdr car' cdr' : Ref} (lookX : heap.look x = .cons car cdr)
      (lookY : heap.look y = .cons car' cdr') (deep : depth - 1 ≠ 0)
      (rest : Meets (depth - 1) cdr cdr' u v) : Meets depth x y u v
  | part {depth : Int} {x y u v q q' : Ref} {p p' : Pathname}
      (lookX : heap.look x = .pathname p) (lookY : heap.look y = .pathname p')
      (member : (q, q') ∈ p.parts.zip p'.parts) (rest : Meets 0 q q' u v) : Meets depth x y u v

/-- The objects are no foreign pointers to the same place, and no bit vectors that are
shifted and start with other bytes. -/
def HashedAlike : Object → Object → Prop
  | .foreign data, .foreign data' => data ≠ data'
  | .bitVector v, .bitVector v' =>
    v.offset = 0 ∧ v'.offset = 0 ∨ v.self.take (v.fillp / 8) = v'.self.take (v'.fillp / 8)
  | _, _ => True

variable (heap) in
/-- Different objects at the same place of the two are hashed alike. -/
def HashClear (depth : Int) (x y : Ref) : Prop :=
  ∀ u v, Meets heap depth x y u v → u ≠ v → HashedAlike (heap.look u) (heap.look v)

theorem hashEqual_of_equal {n : Nat} : ∀ {depth : Int} {x y : Ref}, HashClear heap depth x y →
    eclEqual heap n x y = some true →
      ∀ m h, hashEqual heap m depth h x = hashEqual heap m depth h y := by
  induction n with
  | zero =>
    intro depth x y _ equal
    cases equal
  | succ n ih =>
    intro depth x y clear equal m h
    cases m with
    | zero => rfl
    | succ m =>
      by_cases same : x = y
      · rw [same]
      have alike := clear x y (.here depth x y) same
      rcases eclEqual_succ equal with eql | ⟨_, _, _, _, lookX, lookY, first, second⟩ |
        ⟨_, codes, codes'⟩ | ⟨v, v', lookX, lookY, bits⟩ | ⟨_, _, lookX, lookY, parts⟩ |
        ⟨_, lookX, lookY⟩
      · exact hashEqual_of_eql eql (m + 1) depth h
      · rw [hashEqual, hashEqual, lookX, lookY]
        dsimp only
        split
        · rfl
        · rename_i deep
          exact hashParts_pair
            (ih (fun u v meets => clear u v (.car lookX lookY deep meets)) first m)
            (ih (fun u v meets => clear u v (.cdr lookX lookY deep meets)) second m) h
      · rw [hashEqual_string codes, hashEqual_string codes']
      · rw [lookX, lookY] at alike
        have bytes : v.self.take (v.fillp / 8) = v'.self.take (v'.fillp / 8) :=
          alike.elim (fun ⟨offset, offset'⟩ => take_eq_of_sameBits bits offset offset') id
        rw [hashEqual, hashEqual, lookX, lookY]
        dsimp only
        rw [bytes]
      · rename_i p p'
        have length : p.parts.length = p'.parts.length := rfl
        rw [hashEqual, hashEqual, lookX, lookY]
        refine hashParts_congr length (fun part member => ?_) h
        exact ih (fun u v meets => clear u v (.part lookX lookY member meets))
          (parts part member) m
      · rw [lookX, lookY] at alike
        exact absurd rfl alike

/-- Objects that are EQL have the same hash, and so have objects that are EQUAL, unless
they have different foreign pointers or shifted bit vectors at the same place. -/
theorem equal_objects_same_hash (heap : Heap) (x y : Ref) (h : Word) :
    ((∃ n, eclEql heap n x y = some true) → ∀ m, hashEql heap m h x = hashEql heap m h y) ∧
      (HashClear heap 3 x y → (∃ n, eclEqual heap n x y = some true) →
        ∀ m, hashEqual heap m 3 h x = hashEqual heap m 3 h y) :=
  ⟨fun ⟨_, eql⟩ m => hashEql_of_eql eql m h,
    fun clear ⟨_, equal⟩ m => hashEqual_of_equal clear equal m h⟩

def listsOfStrings : Heap := fun address =>
  if address = 16 then .baseString ⟨[0x61], 1⟩
  else if address = 32 then .string ⟨[0x61], 1⟩
  else if address = 48 then .cons (.pointer 16) .nil
  else .cons (.pointer 32) .nil

theorem listsOfStrings_clear : HashClear listsOfStrings 3 (.pointer 48) (.pointer 64) := by
  intro u v meets differ
  cases meets with
  | here => trivial
  | car lookX lookY deep rest =>
    cases lookX
    cases lookY
    cases rest with
    | here => trivial
    | car lookX => cases lookX
    | cdr lookX => cases lookX
    | part lookX => cases lookX
  | cdr lookX lookY deep rest =>
    cases lookX
    cases lookY
    cases rest with
    | here => trivial
    | car lookX => cases lookX
    | cdr lookX => cases lookX
    | part lookX => cases lookX
  | part lookX => cases lookX

theorem equal_objects_same_hash_strings :
    eclEqual listsOfStrings 5 (.pointer 48) (.pointer 64) = some true ∧
      ∀ m, hashEqual listsOfStrings m 3 0 (.pointer 48) =
        hashEqual listsOfStrings m 3 0 (.pointer 64) :=
  ⟨by decide +kernel, (equal_objects_same_hash listsOfStrings (.pointer 48) (.pointer 64) 0).2
    listsOfStrings_clear ⟨5, by decide +kernel⟩⟩

/-- Two foreign pointers to the same place. -/
def foreignPointers : Heap := fun _ => .foreign 4096

theorem equal_foreign_pointers_differ :
    ¬ ∀ (heap : Heap) (x y : Ref) (h : Word), (∃ n, eclEqual heap n x y = some true) →
      ∀ m, hashEqual heap m 3 h x = hashEqual heap m 3 h y := by
  intro claim
  have same := claim foreignPointers (.pointer 16) (.pointer 32) 0 ⟨1, by decide +kernel⟩ 2
  revert same
  decide +kernel

end Ecl.Equality
