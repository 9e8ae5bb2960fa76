import Mathlib

/- The expansion of backquoted forms of backq.d. -/
namespace Ecl.Backquote

/-- What is not a cons. -/
inductive Atom where
  | nil
  | quote
  | list
  | listStar
  | append
  | nconc
  /-- The marks that the reader leaves: si::quasiquote and so on. -/
  | quasiquote
  | unquote
  | unquoteSplice
  | unquoteNsplice
  | symbol (n : Nat)
  | keyword (n : Nat)
  | vector (n : Nat)
  | other (n : Nat)
  deriving DecidableEq

inductive Obj where
  | atom (a : Atom)
  | cons (car cdr : Obj)
  deriving DecidableEq

namespace Obj

abbrev nil : Obj := .atom .nil

abbrev list1 (x : Obj) : Obj := .cons x .nil

/-- CADR of a mark; NIL where there is none. -/
def cadr : Obj → Obj
  | .cons _ (.cons x _) => x
  | _ => .nil

/-- CAR of a cons. -/
def first : Obj → Obj
  | .cons x _ => x
  | .atom _ => .nil

/-- A list of one element. -/
def isSingle : Obj → Bool
  | .cons _ rest => rest = .nil
  | .atom _ => false

def kwote : Obj → Obj
  | .atom (.keyword n) => .atom (.keyword n)
  | .atom (.other n) => .atom (.other n)
  | x => .cons (.atom .quote) (list1 x)

end Obj

/-- What _cl_backq_cdr and _cl_backq_car return. -/
inductive Kind where
  | quote
  | eval
  | list
  | listStar
  | append
  | nconc
  deriving DecidableEq

inductive Failure where
  /-- ",@ or ,. has appeared in an illegal position." -/
  | illegalPosition
  /-- "backquote botch" -/
  | botch
  /-- The bound on nested quasiquotes was too small. -/
  | depth
  deriving DecidableEq

abbrev Expansion : Type := Except Failure (Kind × Obj)

/-- The operator of a call that is left to be made. -/
def Kind.operator : Kind → Atom
  | .list => .list
  | .listStar => .listStar
  | .append => .append
  | _ => .nconc

/-- The switch over `a` where the rest is one form. -/
def backqForm (a : Kind) (ax dx : Obj) : Expansion :=
  match a with
  | .quote => .ok (.listStar, .cons ax.kwote (.list1 dx))
  | .eval => .ok (.listStar, .cons ax (.list1 dx))
  | .append | .nconc => .ok (a, .cons ax (.list1 dx))
  | _ => .error .botch

/-- The switches of _cl_backq_cdr for the car and the cdr of `x`. -/
def backqPair (x : Obj) (a : Kind) (ax : Obj) (d : Kind) (dx : Obj) : Expansion :=
  match d with
  | .quote =>
    match a with
    | .quote => .ok (.quote, x)
    | .eval =>
      if dx = .nil then .ok (.list, .cons ax dx)
      else if dx.isSingle then .ok (.list, .cons ax (.list1 dx.first.kwote))
      else .ok (.listStar, .cons ax (.list1 dx.kwote))
    | .append | .nconc =>
      if dx = .nil then .ok (.eval, ax) else .ok (a, .cons ax (.list1 dx.kwote))
    | _ => .error .botch
  | .eval => backqForm a ax dx
  | .list | .listStar =>
    if d = a then .ok (d, .cons ax dx)
    else if a = .quote then .ok (d, .cons ax.kwote dx)
    else if a = .eval then .ok (d, .cons ax dx)
    else backqForm a ax (.cons (.atom d.operator) dx)
  | .append | .nconc =>
    if d = a then .ok (d, .cons ax dx)
    else backqForm a ax (.cons (.atom d.operator) dx)

/-- _cl_backq_car, from what _cl_backq_cdr answers for the same object. -/
def backqCarOf (again : Obj → Expansion) (x : Obj) (d : Expansion) : Expansion :=
  match x with
  | .atom _ => .ok (.quote, x)
  | .cons op _ =>
    if op = .atom .quasiquote then again x.cadr
    else if op = .atom .unquote then .ok (.eval, x.cadr)
    else if op = .atom .unquoteSplice then .ok (.append, x.cadr)
    else if op = .atom .unquoteNsplice then .ok (.nconc, x.cadr)
    else do
      let (d, px) ← d
      match d with
      | .quote | .eval => return (d, px)
      | _ => return (.eval, .cons (.atom d.operator) px)

def backqCdr (again : Obj → Expansion) : Obj → Expansion
  | .atom a => .ok (.quote, .atom a)
  | .cons op rest =>
    if op = .atom .unquote then .ok (.eval, (Obj.cons op rest).cadr)
    else if op = .atom .unquoteSplice ∨ op = .atom .unquoteNsplice then .error .illegalPosition
    else do
      let (a, ax) ← backqCarOf again op (backqCdr again op)
      let (d, dx) ← backqCdr again rest
      backqPair (.cons op rest) a ax d dx

def backqCar (again : Obj → Expansion) (x : Obj) : Expansion :=
  backqCarOf again x (backqCdr again x)

def backq (again : Obj → Expansion) (x : Obj) : Except Failure Obj := do
  let (a, x) ← backqCar again x
  if a = .append ∨ a = .nconc then .error .illegalPosition
  else if a = .quote then return x.kwote
  else return x

/-- A nested quasiquote is expanded, and _cl_backq_car goes on with the result. -/
def nested : Nat → Obj → Expansion
  | 0, _ => .error .depth
  | n + 1, y => do
      let x ← backq (nested n) y
      backqCar (nested n) x

/-- The macro si::quasiquote, for at most `n` quasiquotes inside. -/
def quasiquote (n : Nat) (x : Obj) : Except Failure Obj := backq (nested n) x

end Ecl.Backquote
