import Mathlib.Data.List.Nodup
import Ecl.Reader.Graph

/- do_patch_sharp on a structure that is a tree apart from the pairs in place of references. -/
namespace Ecl.Reader

open List Option Function

/-- What the traversal puts in place of a value, by the entries of the pairs in its table. -/
def resolve (pairs : Nat → Option Value) : Value → Value
  | .atom a => .atom a
  | .object p => (pairs p).getD (.object p)

/-- The table after so many objects were visited. -/
def marked (pairs : Nat → Option Value) (xs : List Nat) (y : Nat) : Option Value :=
  if y ∈ xs then some (.object y) else pairs y

/-- Exactly the fields of the given objects were replaced. -/
def Patched (pairs : Nat → Option Value) (xs : List Nat) (heap heap' : List Cell) : Prop :=
  ∀ y, heap'[y]? = if y ∈ xs then heap[y]?.map (·.map (resolve pairs)) else heap[y]?

/-- A reference stands for an entry of the table. -/
def Placed (pairs : Nat → Option Value) (_ : Nat) (v : Value) : Prop :=
  ∃ p w, v = .object p ∧ pairs p = some w

theorem doPatchSharp_found {fuel x : Nat} {s : Patch} {y : Value} (found : s.table x = some y) :
    doPatchSharp (fuel + 1) (.object x) s = some (y, s) := by
  simp only [doPatchSharp, found]

theorem doPatchSharp_fields {fuel x : Nat} {s s' : Patch} {c : Cell} (absent : s.table x = none)
    (cell : s.heap[x]? = some c)
    (run : patchFields (doPatchSharp fuel) x c.fields.length 0 s = some s') :
    doPatchSharp (fuel + 1) (.object x) s =
      some (.object x, { s' with table := update s'.table x (some (.object x)) }) := by
  simp only [doPatchSharp, absent, cell, bind_eq_bind, bind_some, run]

theorem Shapes.length_eq {refers labels : Nat → Value → Prop} {heap : List Cell}
    {es : List Expression} : ∀ {vs : List Value} {xs : List Nat},
      Shapes refers labels heap es vs xs → vs.length = es.length := by
  induction es with
  | nil =>
    intro vs xs shapes
    cases shapes
    rfl
  | cons e es ih =>
    intro vs xs shapes
    cases shapes with
    | cons first rest => rw [length_cons, length_cons, ih rest]

variable {pairs : Nat → Option Value}

theorem update_marked (xs ys : List Nat) (x : Nat) :
    update (marked pairs (xs ++ ys)) x (some (.object x)) = marked pairs (xs ++ x :: ys) := by
  funext y
  by_cases same : y = x
  · rw [same, update_self, marked, if_pos (by simp)]
  · rw [update_of_ne same]
    simp [marked, same]

/-- What the traversal does to the value of an expression. -/
def Patches (pairs : Nat → Option Value) (e : Expression) : Prop :=
  ∀ v xs visited heap fuel, Shape (Placed pairs) (fun _ _ => True) heap e v xs →
    (visited ++ xs).Nodup → (∀ y ∈ visited ++ xs, pairs y = none) → e.subs.length ≤ fuel →
    ∃ heap', doPatchSharp fuel v ⟨heap, marked pairs visited⟩ =
      some (resolve pairs v, ⟨heap', marked pairs (visited ++ xs)⟩) ∧ Patched pairs xs heap heap'

theorem Patched.refl (heap : List Cell) : Patched pairs [] heap heap := by
  intro y
  rw [if_neg (not_mem_nil)]

theorem patchFields_patches {x fuel : Nat} {es : List Expression}
    (all : ∀ e ∈ es, Patches pairs e) :
    ∀ {vs before : List Value} {xs visited : List Nat} {heap : List Cell} {c : Cell},
      Shapes (Placed pairs) (fun _ _ => True) heap es vs xs → heap[x]? = some c →
      c.fields = before ++ vs → x ∉ xs → (visited ++ xs).Nodup →
      (∀ y ∈ visited ++ xs, pairs y = none) → (Expression.allSubs es).length ≤ fuel →
      ∃ heap' c', patchFields (doPatchSharp fuel) x es.length before.length
          ⟨heap, marked pairs visited⟩ = some ⟨heap', marked pairs (visited ++ xs)⟩ ∧
        heap'[x]? = some c' ∧ c'.isVector = c.isVector ∧
        c'.fields = before ++ vs.map (resolve pairs) ∧
        ∀ y ≠ x, heap'[y]? =
          if y ∈ xs then heap[y]?.map (·.map (resolve pairs)) else heap[y]? := by
  induction es with
  | nil =>
    intro vs before xs visited heap c shapes cell fields _ _ _ _
    cases shapes
    rw [append_nil] at fields ⊢
    refine ⟨heap, c, rfl, cell, rfl, by simp [fields], ?_⟩
    intro y _
    rw [if_neg (not_mem_nil)]
  | cons e es ih =>
    intro vs before zs visited heap c shapes cell fields outside nodup clean enough
    cases shapes with
    | @cons _ _ v vs xs ys first rest =>
      have outsideFirst : x ∉ xs := fun member => outside (mem_append_left _ member)
      have outsideRest : x ∉ ys := fun member => outside (mem_append_right _ member)
      rw [Expression.allSubs, length_append] at enough
      rw [← append_assoc] at nodup clean ⊢
      obtain ⟨nodupFirst, _, apart⟩ := nodup_append.mp nodup
      obtain ⟨heap₁, patched, exact₁⟩ := all e (by simp) v xs visited heap fuel first nodupFirst
        (fun y member => clean y (mem_append_left _ member)) (by omega)
      have cell₁ : heap₁[x]? = some c := by rw [exact₁, if_neg outsideFirst, cell]
      let heap₂ := heap₁.modify x (·.setField before.length (resolve pairs v))
      have cell₂ : heap₂[x]? = some (c.setField before.length (resolve pairs v)) := by
        simp only [heap₂, List.getElem?_modify_eq, cell₁]
        rfl
      have other₂ : ∀ y ≠ x, heap₂[y]? = heap₁[y]? := fun y other =>
        List.getElem?_modify_ne _ _ (Ne.symm other)
      have fields₂ : (c.setField before.length (resolve pairs v)).fields =
          (before ++ [resolve pairs v]) ++ vs := by
        rw [Cell.fields_setField, fields, set_append_right _ _ (Nat.le_refl _)]
        simp
      have rest₂ : Shapes (Placed pairs) (fun _ _ => True) heap₂ es vs ys := by
        apply Shapes.of_all _ rest
        · intro y member
          have notFirst : y ∉ xs := fun member' =>
            apart y (mem_append_right _ member') y member rfl
          have other : y ≠ x := fun same => outsideRest (same ▸ member)
          rw [other₂ y other, exact₁, if_neg notFirst]
        · exact fun e' _ w ws shape same =>
            Shape.mono (fun _ _ h => h) (fun _ _ h => h) e' w ws shape same
      obtain ⟨heap', c', run, cell', kind, fields', exact'⟩ :=
        ih (fun e' member => all e' (by simp [member])) rest₂ cell₂ fields₂ outsideRest nodup
          clean (by omega)
      have found : c.fields[before.length]? = some v := by simp [fields]
      refine ⟨heap', c', ?_, cell', ?_, ?_, ?_⟩
      · rw [length_append, length_singleton] at run
        simp only [length_cons, patchFields, cell, bind_eq_bind, bind_some,
          found, patched]
        exact run
      · rw [kind, Cell.isVector_setField]
      · rw [fields']
        simp
      · intro y other
        rw [exact' y other, other₂ y other, exact₁]
        by_cases inFirst : y ∈ xs
        · have notRest : y ∉ ys := fun member =>
            apart y (mem_append_right _ inFirst) y member rfl
          simp [inFirst, notRest]
        · simp [inFirst]

/-- By induction on the text: every object of the tree is visited once, and nothing else. -/
theorem doPatchSharp_patches (e : Expression) : Patches pairs e := by
  induction e using Expression.induct with
  | atom a =>
    intro v xs visited heap fuel shape _ _ enough
    cases fuel with
    | zero => simp [Expression.subs] at enough
    | succ fuel =>
      cases shape with
      | atom =>
        rw [append_nil]
        exact ⟨heap, rfl, .refl heap⟩
      | node parts => cases parts
  | node e es parts ih =>
    intro v xs visited heap fuel shape nodup clean enough
    obtain ⟨x, c, ys, rfl, rfl, cell, kind, fields⟩ := shape.parts_inv parts
    rw [Expression.subs_of_parts parts] at enough
    cases fuel with
    | zero => simp at enough
    | succ fuel =>
      obtain ⟨freshTail, fresh⟩ := nodup_middle.mp nodup |> nodup_cons.mp
      have unmarked : marked pairs visited x = none := by
        have notVisited : x ∉ visited := fun member =>
          freshTail (mem_append_left _ member)
        rw [marked, if_neg notVisited]
        exact clean x (by simp)
      have notField : x ∉ ys := fun member => freshTail (mem_append_right _ member)
      have cleanFields : ∀ y ∈ visited ++ ys, pairs y = none := by
        intro y member
        apply clean
        simp only [mem_append, mem_cons] at member ⊢
        tauto
      obtain ⟨heap', c', run, cell', kind', fields', exact'⟩ :=
        @patchFields_patches pairs x fuel es ih c.fields [] ys visited heap c fields cell rfl
          notField fresh cleanFields (by simpa using enough)
      rw [length_nil, ← fields.length_eq] at run
      have resolved : resolve pairs (.object x) = .object x := by
        rw [resolve, clean x (by simp)]
        rfl
      refine ⟨heap', ?_, ?_⟩
      · rw [doPatchSharp_fields unmarked cell run, resolved, update_marked]
      · intro y
        by_cases same : y = x
        · have whole : c' = c.map (resolve pairs) := by
            apply Cell.ext_fields
            · rw [kind', Cell.isVector_map]
            · rw [fields', Cell.fields_map, nil_append]
          rw [same, cell', if_pos mem_cons_self, cell, whole]
          rfl
        · rw [exact' y same]
          simp [same]
  | label n e ih =>
    intro v xs visited heap fuel shape nodup clean enough
    cases shape with
    | node parts => cases parts
    | label labelled shape =>
      exact ih v xs visited heap fuel shape nodup clean (by simp [Expression.subs] at enough; omega)
  | ref n =>
    intro v xs visited heap fuel shape _ clean enough
    cases fuel with
    | zero => simp [Expression.subs] at enough
    | succ fuel =>
      cases shape with
      | node parts => cases parts
      | ref referred =>
        obtain ⟨p, w, rfl, entry⟩ := referred
        have notVisited : p ∉ visited := by
          intro member
          rw [clean p (by simp [member])] at entry
          cases entry
        have found : marked pairs visited p = some w := by
          rw [marked, if_neg notVisited, entry]
        rw [append_nil]
        refine ⟨heap, ?_, .refl heap⟩
        rw [doPatchSharp_found found, resolve, entry]
        rfl

end Ecl.Reader
