import Ecl.Backquote.Stands

/- The macro si::quasiquote. -/
namespace Ecl.Backquote

open Template

/-- The kinds of elements. -/
def Kind.isElement : Kind → Bool
  | .list | .listStar => false
  | _ => true

theorem backqForm_no_botch {a : Kind} (element : a.isElement = true) (ax dx : Obj) :
    backqForm a ax dx ≠ .error .botch := by
  cases a with
  | list => cases element
  | listStar => cases element
  | _ => rintro ⟨⟩

theorem backqPair_no_botch {a : Kind} (element : a.isElement = true) (x ax : Obj) (d : Kind)
    (dx : Obj) : backqPair x a ax d dx ≠ .error .botch := by
  have form := backqForm_no_botch element ax
  have ok (r : Kind × Obj) : (.ok r : Expansion) ≠ .error .botch := by rintro ⟨⟩
  cases d with
  | quote =>
    cases a with
    | quote => exact ok _
    | eval =>
      rw [backqPair]
      split
      · exact ok _
      · split <;> exact ok _
    | append =>
      rw [backqPair]
      split <;> exact ok _
    | nconc =>
      rw [backqPair]
      split <;> exact ok _
    | list => cases element
    | listStar => cases element
  | eval => exact form dx
  | list | listStar =>
    rw [backqPair]
    split
    · exact ok _
    · split
      · exact ok _
      · split
        · exact ok _
        · exact form _
  | append | nconc =>
    rw [backqPair]
    split
    · exact ok _
    · exact form _

/-- An element is not refused by a botch, and is of a kind of elements. -/
def Element : Expansion → Prop
  | .ok (a, _) => a.isElement = true
  | .error e => e ≠ .botch

section Botch

variable {again : Obj → Expansion} (inside : ∀ y, Element (again y))

include inside

theorem backqCarOf_element (x : Obj) {d : Expansion} (tail : d ≠ .error .botch) :
    Element (backqCarOf again x d) := by
  cases x with
  | atom b => rfl
  | cons op rest =>
    rw [backqCarOf]
    split
    · exact inside _
    · split
      · rfl
      · split
        · rfl
        · split
          · rfl
          · cases d with
            | error e => exact fun botch => tail (by rw [botch])
            | ok r =>
              obtain ⟨k, f⟩ := r
              cases k <;> rfl

theorem backqCdr_no_botch (x : Obj) : backqCdr again x ≠ .error .botch := by
  induction x with
  | atom b => exact nofun
  | cons op rest ihOp ihRest =>
    rw [backqCdr]
    split
    · rintro ⟨⟩
    · split
      · rintro ⟨⟩
      · have first := backqCarOf_element inside op ihOp
        generalize backqCarOf again op (backqCdr again op) = a at first
        generalize backqCdr again rest = d at ihRest
        cases a with
        | error e => exact fun botch => first (Except.error.inj botch)
        | ok r =>
          cases d with
          | error e => exact ihRest
          | ok r' => exact backqPair_no_botch first _ _ _ _

theorem backqCar_element (x : Obj) : Element (backqCar again x) :=
  backqCarOf_element inside x (backqCdr_no_botch inside x)

theorem backq_no_botch (x : Obj) : backq again x ≠ .error .botch := by
  have element := backqCar_element inside x
  rw [backq]
  generalize backqCar again x = r at element
  cases r with
  | error e => exact fun botch => element (Except.error.inj botch)
  | ok r =>
    change (if r.1 = .append ∨ r.1 = .nconc then _ else _) ≠ _
    split
    · rintro ⟨⟩
    · split <;> rintro ⟨⟩

end Botch

theorem nested_element (n : Nat) (y : Obj) : Element (nested n y) := by
  induction n generalizing y with
  | zero => exact nofun
  | succ n ih =>
    have whole := backq_no_botch ih y
    rw [nested]
    generalize backq (nested n) y = x at whole
    cases x with
    | error e => exact fun botch => whole (by rw [botch])
    | ok x => exact backqCar_element ih x

/-- The macro answers clear templates with forms that evaluate to what they stand for, and no
object is refused by a botch. -/
theorem quasiquote_preserved (t : Template) :
    (t.Clear True 0 (.element .single) → t.Preserved) ∧
      ∀ n, quasiquote n t.object ≠ .error .botch :=
  ⟨fun clear => ⟨expand, Good, fun _ _ => expand_value, clear.any,
    fun _ => quasiquote_expand clear⟩, fun n => backq_no_botch (nested_element n) _⟩

section Copies

variable {choice : Template → Template} {good : Template → Prop} {v : Obj}

theorem copy_atom {a : Atom} {plain : a.isMark = false}
    (copy : Copy choice good v (.atom a plain)) : v = .atom a := by
  generalize whole : Template.atom a plain = t at copy
  cases copy with
  | same t =>
    subst whole
    rfl
  | cons first rest => cases whole
  | expanded own copy => cases whole

theorem copy_cons {t u : Template} (copy : Copy choice good v (.cons t u)) :
    ∃ w x, v = .cons w x ∧ Copy choice good w t ∧ Copy choice good x u := by
  generalize whole : Template.cons t u = t' at copy
  cases copy with
  | same t' =>
    subst whole
    exact ⟨_, _, rfl, .same t, .same u⟩
  | cons first rest =>
    cases whole
    exact ⟨_, _, rfl, first, rest⟩
  | expanded own copy => cases whole

end Copies

/-- (A `(B ,@,X C)) -/
def nestedSplice : Template :=
  list [.atom (.symbol 0) rfl, .quasi (list [.atom (.symbol 1) rfl,
    .splice .splice (list1 (.unquote (list1 (.atom (.symbol 2) rfl)))), .atom (.symbol 3) rfl])]

theorem quasiquote_preserved_nestedSplice : nestedSplice.Preserved := by
  refine (quasiquote_preserved nestedSplice).1 ?_
  refine ⟨nofun, ⟨⟨⟨_, rfl⟩, nofun, ⟨?_, nofun, nofun⟩⟩, nofun⟩⟩
  exact ⟨.followed, rfl, rfl, .followed, rfl, [_], rfl, fun _ => rfl⟩

/-- (A `(,@,@X)) -/
def dropped : Template :=
  list [.atom (.symbol 0) rfl, .quasi (list1 (.splice .splice (list1
    (.splice .splice (list1 (.atom (.symbol 1) rfl))))))]

/-- User's forms that all evaluate to a list of two elements. -/
def toTwo (_ : Obj) : Run Unit Empty Obj := pure (listOf [.atom (.keyword 0), .atom (.keyword 1)])

/-- The nested template is one form, but both elements of the list that X evaluates to appear in
the outer list. -/
theorem quasiquote_preserved_dropped : ¬dropped.Preserved := by
  rintro ⟨choice, good, right, own, answers⟩
  have form : (choice dropped).object = .cons (.atom .listStar) (.cons
      (.cons (.atom .quote) (.list1 (.atom (.symbol 0)))) (.list1 (.atom (.symbol 1)))) :=
    (Except.ok.inj (answers 1 (by decide))).symm
  have agrees := right toTwo own ()
  rw [form] at agrees
  obtain ⟨v, same, t, one, copy⟩ := agrees
  cases same
  cases one
  obtain ⟨_, rest, whole, -, tail⟩ := copy_cons copy
  cases whole
  obtain ⟨_, rest, whole, -, tail⟩ := copy_cons tail
  cases whole
  cases copy_atom tail

end Ecl.Backquote
