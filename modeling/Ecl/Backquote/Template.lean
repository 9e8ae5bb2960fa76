import Ecl.Backquote.Backq

/- Templates, and what they stand for without regard to how they are expanded. -/
namespace Ecl.Backquote

inductive Fault (ε : Type) where
  /-- A value that is spliced is no proper list. -/
  | notList
  /-- A call with dotted arguments. -/
  | dottedCall
  | user (e : ε)

/-- Evaluation of user's forms, with a state and errors. -/
abbrev Run (σ ε α : Type) : Type := ExceptT (Fault ε) (StateM σ) α

variable {σ ε : Type}

def listOf : List Obj → Obj
  | [] => .nil
  | v :: vs => .cons v (listOf vs)

/-- LIST*. -/
def listStarOf : List Obj → Obj
  | [] => .nil
  | [v] => v
  | v :: w :: vs => .cons v (listStarOf (w :: vs))

/-- The elements of a proper list. -/
def elements : Obj → Option (List Obj)
  | .atom a => if a = .nil then some [] else none
  | .cons v vs => (elements vs).map (v :: ·)

/-- APPEND, and NCONC of fresh lists: all but the last are proper lists. -/
def appendOf : List Obj → Option Obj
  | [] => some .nil
  | [v] => some v
  | v :: w :: vs => do
    let values ← elements v
    let tail ← appendOf (w :: vs)
    return values.foldr .cons tail

/-- A result, or the fault that a value is not a list. -/
def Run.ofOption {α : Type} : Option α → Run σ ε α
  | some v => pure v
  | none => throw .notList

/-- Numbers, characters, strings and keywords. -/
def Atom.selfEvaluating : Atom → Bool
  | .nil | .keyword _ | .vector _ | .other _ => true
  | _ => false

/-- The functions that an expansion calls. -/
def Obj.isFunction (op : Obj) : Bool :=
  op = .atom .list || op = .atom .listStar || op = .atom .append || op = .atom .nconc

/-- One of these functions, on the values of its arguments. -/
def apply (op : Obj) (vs : List Obj) : Run σ ε Obj :=
  if op = .atom .list then pure (listOf vs)
  else if op = .atom .listStar then pure (listStarOf vs)
  else Run.ofOption (appendOf vs)

mutual

/-- Evaluation: constants, the functions of expansions, and all other forms as the user likes. -/
def eval (user : Obj → Run σ ε Obj) : Obj → Run σ ε Obj
  | .atom a => if a.selfEvaluating then pure (.atom a) else user (.atom a)
  | .cons op args =>
    if op = .atom .quote then pure (Obj.cons op args).cadr
    else if op.isFunction then do
      let vs ← evalArgs user args
      apply op vs
    else user (.cons op args)

/-- The values of the arguments, from the left to the right. -/
def evalArgs (user : Obj → Run σ ε Obj) : Obj → Run σ ε (List Obj)
  | .atom a => if a = .nil then pure [] else throw .dottedCall
  | .cons f args => do
      let v ← eval user f
      let vs ← evalArgs user args
      return v :: vs

end

/-- The symbols that the reader puts in front of what is marked. -/
def Atom.isMark : Atom → Bool
  | .quasiquote | .unquote | .unquoteSplice | .unquoteNsplice => true
  | _ => false

/-- ,@ and ,. -/
inductive Splicing where
  | splice
  | nsplice

def Splicing.mark : Splicing → Atom
  | .splice => .unquoteSplice
  | .nsplice => .unquoteNsplice

/-- A template. The reader puts one form behind a comma; where the commas of an outer template are
filled in there may be more or none. -/
inductive Template where
  | atom (a : Atom) (plain : a.isMark = false)
  /-- An object that is not read as a template: a form, or a value that is filled in. -/
  | form (x : Obj)
  | cons (car cdr : Template)
  | quasi (y : Template)
  | unquote (forms : Template)
  | splice (k : Splicing) (forms : Template)

namespace Template

abbrev nil : Template := .atom .nil rfl

abbrev list1 (t : Template) : Template := .cons t nil

def isNil : Template → Bool
  | .atom a _ => a = .nil
  | _ => false

/-- What the reader makes of it. -/
def object : Template → Obj
  | .atom a _ => .atom a
  | .form x => x
  | .cons car cdr => .cons car.object cdr.object
  | .quasi y => .cons (.atom .quasiquote) (.list1 y.object)
  | .unquote forms => .cons (.atom .unquote) forms.object
  | .splice k forms => .cons (.atom k.mark) forms.object

/-- Templates in front of a tail, and as a list. -/
def before (ts : List Template) (tail : Template) : Template := ts.foldr .cons tail

abbrev list (ts : List Template) : Template := before ts nil

end Template

/-- What is there already, or what is found by evaluation. -/
inductive Part (σ ε α : Type) where
  | constant (a : α)
  | run (m : Run σ ε α)

namespace Part

variable {α β γ : Type}

def value : Part σ ε α → Run σ ε α
  | .constant a => pure a
  | .run m => m

def map (f : α → β) : Part σ ε α → Part σ ε β
  | .constant a => .constant (f a)
  | .run m => .run (f <$> m)

/-- Two parts, of which the first one is evaluated first. -/
def map₂ (f : α → β → γ) : Part σ ε α → Part σ ε β → Part σ ε γ
  | .constant a, .constant b => .constant (f a b)
  | p, q => .run do
      let a ← p.value
      let b ← q.value
      return f a b

end Part

/-- What stands in the place of an element or a tail: one value, or several ones for a splice.
The commas of `level` backquotes around the template are left alone, with the commas of the
outermost one filled in. -/
def Template.read (user : Obj → Run σ ε Obj) : Template → Nat → Part σ ε (List Template)
  | .atom a plain, _ => .constant [.atom a plain]
  | .form x, _ => .constant [.form x]
  | .cons car cdr, level =>
    .map₂ (fun values tails => tails.map (before values)) (car.read user level)
      (cdr.read user level)
  | .quasi y, level => (y.read user (level + 1)).map (List.map .quasi)
  | .unquote forms, 0 => .run do
      let vs ← evalArgs user forms.object
      return vs.map .form
  | .unquote forms, level + 1 => (forms.read user level).map (List.map .unquote)
  | .splice _ forms, 0 => .run do
      let vs ← evalArgs user forms.object
      let lists ← Run.ofOption (vs.mapM elements)
      return lists.flatten.map .form
  | .splice k forms, level + 1 => (forms.read user level).map (List.map (.splice k))

/-- An object that equals a template, but that a nested template may stand there as the form that
is chosen for it. -/
inductive Copy (choice : Template → Template) (good : Template → Prop) : Obj → Template → Prop where
  | same (t : Template) : Copy choice good t.object t
  | cons {v w : Obj} {t u : Template} :
      Copy choice good v t → Copy choice good w u → Copy choice good (.cons v w) (.cons t u)
  | expanded {v : Obj} {y : Template} :
      good y → Copy choice good v (choice y) → Copy choice good v (.quasi y)

/-- The one value of a whole template. -/
def Copies (choice : Template → Template) (good : Template → Prop) (v : Obj)
    (values : List Template) : Prop :=
  ∃ t, values = [t] ∧ Copy choice good v t

/-- The same state and related results, unless something is spliced that is no list. -/
def Agrees {α β : Type} (related : α → β → Prop) (run : Run σ ε α) (reference : Run σ ε β) : Prop :=
  ∀ s : σ, match reference s with
    | (.ok b, s') => ∃ a, run s = (.ok a, s') ∧ related a b
    | (.error e, s') => e = .notList ∨ run s = (.error e, s')

/-- Where a template stands: in front of another element, as the last element of a list, or where
there is room for one form only. -/
inductive Slot where
  | followed
  | last
  | single
  deriving DecidableEq

/-- An element, a tail, or the forms behind a comma. -/
inductive Place where
  | element (slot : Slot)
  | tail
  | forms (slot : Slot)

/-- The slot of the form behind a comma: that of the comma. -/
def Place.unquoted : Place → Option Slot
  | .element slot => some slot
  | .tail => some .single
  | .forms _ => none

/-- The slot of the form behind ,@ or ,. of which the last one in a list is not copied. -/
def Place.spliced : Place → Option Slot
  | .element .followed => some .followed
  | .element .last => some .single
  | _ => none

/-- A list of forms, one of them where there is no room for more or the reader has made it. -/
def Template.Forms (fromReader : Prop) (slot : Slot) (forms : Template) : Prop :=
  ∃ ts, forms = list ts ∧ (slot = .single ∨ fromReader → ts.length = 1)

/-- No ,@ or ,. stands in the place of a tail or of a single form, also where it comes to stand
there because it is the form behind other commas. -/
def Template.Clear (fromReader : Prop) : Template → Nat → Place → Prop
  | .atom _ _, _, place => ∀ slot, place ≠ .forms slot
  | .form _, _, place => ¬fromReader ∧ ∀ slot, place ≠ .forms slot
  | .cons car cdr, level, place =>
    match place with
    | .forms slot => cdr.isNil ∧ car.Clear fromReader level (.element slot)
    | _ => car.Clear fromReader level (.element (if cdr.isNil then .last else .followed)) ∧
        cdr.Clear fromReader level .tail
  | .quasi y, level, place =>
    (∃ slot, place = .element slot) ∧ y.Clear fromReader (level + 1) (.element .single)
  | .unquote forms, level, place => ∃ slot, place.unquoted = some slot ∧
    match level with
    | 0 => forms.Forms fromReader slot
    | level + 1 => forms.Clear fromReader level (.forms slot)
  | .splice _ forms, level, place => ∃ slot, place.spliced = some slot ∧
    match level with
    | 0 => forms.Forms fromReader slot
    | level + 1 => forms.Clear fromReader level (.forms slot)

/-- The forms chosen for good templates evaluate to what the templates stand for. -/
def Right (choice : Template → Template) (good : Template → Prop) : Prop :=
  ∀ {σ ε : Type} (user : Obj → Run σ ε Obj) {t : Template}, good t →
    Agrees (Copies choice good) (eval user (choice t).object) (t.read user 0).value

/-- A whole template that is clear, also with objects in it that are no templates. -/
abbrev Template.Good (t : Template) : Prop := t.Clear False 0 (.element .single)

def Template.quasiquotes : Template → Nat
  | .atom _ _ | .form _ => 0
  | .cons car cdr => car.quasiquotes + cdr.quasiquotes
  | .quasi y => y.quasiquotes + 1
  | .unquote forms | .splice _ forms => forms.quasiquotes

/-- The macro answers with a form that evaluates to what the template stands for, and so do the
forms that it leaves in the place of nested templates. -/
def Template.Preserved (t : Template) : Prop :=
  ∃ choice good, Right choice good ∧ good t ∧
    ∀ n, t.quasiquotes ≤ n → quasiquote n t.object = .ok (choice t).object

end Ecl.Backquote
