import Ecl.Interp.Compiler
import Ecl.Lib.Search

/- The environment of the compiler and lex_env along the code that is run, and guess_environment,
which makes the one from the other. -/
namespace Ecl.Environments

open Ecl.Lib
open Ecl.Interp (Name Record VarRef FName varRefLoop undoCounts)

/-- The symbol that an object is, if SYMBOLP holds. -/
def symbolOf : Val → Option Name
  | .nil => some none
  | .sym s => some (some s)
  | _ => none

/-- A record of lex_env: a function, or a cons with its address. The value of a variable is the
one that it was bound to: guess_environment does not read the CDR of its record. -/
inductive LexRecord where
  | function (closure : Nat)
  | cons (address : Nat) (car cdr : Val)
  deriving DecidableEq

def LexRecord.address : LexRecord → Option Nat
  | .function _ => none
  | .cons address _ _ => some address

def bindVar (address : Nat) (var : Name) (value : Val) : LexRecord := .cons address var.object value

def bindFunction (closure : Nat) : LexRecord := .function closure

def bindFrame (address : Nat) (id name : Val) : LexRecord := .cons address id name

/-- One turn of the loop in guess_environment. -/
def guessRecord : LexRecord → Record
  | .function closure => .function (.obj (.closure closure))
  | .cons _ record0 record1 =>
    match symbolOf record0 with
    | some name => .variable name false true
    | none =>
      if record1 = .fixnum 0 then .tags []
      else .block record1

/-- guess_environment. It goes through the reversed list. -/
def guessEnvironment (interpreterEnv : List LexRecord) : List Record :=
  interpreterEnv.reverse.foldl (fun vars record => guessRecord record :: vars) []

/-- Why a record stands in c_env->variables, and what the interpreter bound where it ran the code.
The frame of a CATCH has any object for its tag. -/
inductive Binding where
  | var (name : Name) (address : Nat) (value : Val)
  | special (name : Name) (bound : Bool)
  | symbolMacro (name : Sym) (free : name.isConstant = false)
  | function (name : FName) (closure : Nat)
  | block (name : Name) (address : Nat) (id : Int)
  | tagbody (labels : List (Val × Nat)) (address : Nat) (id : Int)
  | catchTag (address : Nat) (tag : Val)

/-- What c_register_var, c_register_symbol_macro, c_register_function, c_register_block and
c_register_tags cons. -/
def Binding.record : Binding → Record
  | .var name _ _ => .variable name false true
  | .special name bound => .variable name true bound
  | .symbolMacro name _ => .symbolMacro name
  | .function name _ => .function (.function name)
  | .block name _ _ => .block name.object
  | .tagbody labels _ _ => .tags labels
  | .catchTag _ _ => .block (.fixnum 0)

/-- What OP_BIND and its variants, OP_FLET, OP_LABELS, OP_BLOCK, OP_DO and OP_CATCH cons. -/
def Binding.lex : Binding → Option LexRecord
  | .var name address value => some (bindVar address name value)
  | .special _ _ => none
  | .symbolMacro _ _ => none
  | .function _ closure => some (bindFunction closure)
  | .block name address id => some (bindFrame address (.fixnum id) name.object)
  | .tagbody _ address id => some (bindFrame address (.fixnum id) (.fixnum 0))
  | .catchTag address tag => some (bindFrame address tag tag)

/-- c_env->variables at a point of the code, the innermost first. -/
abbrev Point : Type := List Binding

def Point.vars (point : Point) : List Record := point.map Binding.record

/-- A form that is not left yet: `old` are the variables around it, and `saved` is the lex_env
that lies on the stack. -/
inductive Scope where
  | bindings (old : Point)
  | frame (old : Point) (saved : List LexRecord)
  | tagbody (old inside : Point) (saved : List LexRecord)
  | protect (old : Point) (saved : List LexRecord)
  | call (old : Point) (saved : List LexRecord)

/-- Where the interpreter is. The closures are those that were made so far. -/
structure State where
  around : Point
  lexEnv : List LexRecord
  scopes : List Scope
  closures : List (Point × List LexRecord)
  fresh : Nat

/-- Before anything is bound. -/
def State.start : State := ⟨[], [], [], [], 0⟩

namespace State

def vars (s : State) : List Record := s.around.vars

/-- A binding that conses a record at the next address. -/
def cons (s : State) (binding : Nat → Binding) : State :=
  { s with
    around := binding s.fresh :: s.around
    lexEnv := (binding s.fresh).lex.toList ++ s.lexEnv
    fresh := s.fresh + 1 }

/-- c_bind, c_pbind and c_vbind with the instruction that they emit. -/
def bind (s : State) (name : Name) (special : Bool) (value : Val) : State :=
  if special then { s with around := .special name true :: s.around }
  else s.cons fun address => .var name address value

/-- c_declare_specials on one variable. -/
def declare (s : State) (name : Name) : Option State :=
  match varRefLoop name false s.vars 0 with
  | none => none
  | some .special => some s
  | some _ => some { s with around := .special name false :: s.around }

/-- A definition of SYMBOL-MACROLET. -/
def symbolMacro (s : State) (name : Sym) : Option State :=
  if free : name.isConstant = false then
    if name.isSpecial then none
    else if varRefLoop (some name) true s.vars 0 = some .special then none
    else some { s with around := .symbolMacro name free :: s.around }
  else none

/-- The functions of FLET and LABELS, of which the last one is the innermost. Their closures are
made around the outer or the inner environment. -/
def functions (s : State) (labels : Bool) (names : List FName) : State :=
  let bound := (names.zipIdx s.closures.length).reverse.map fun (name, closure) =>
    Binding.function name closure
  let around := bound ++ s.around
  let lexEnv := bound.filterMap Binding.lex ++ s.lexEnv
  let made := if labels then (around, lexEnv) else (s.around, s.lexEnv)
  { s with around, lexEnv, closures := s.closures ++ List.replicate names.length made }

/-- A form that may bind variables or functions is entered. -/
def enter (s : State) : State := { s with scopes := .bindings s.around :: s.scopes }

/-- The bindings that c_undo_bindings finds in front of an older list. -/
def undone (s : State) (old : Point) : Point := s.around.take (s.around.length - old.length)

/-- c_undo_bindings with the OP_UNBIND that it emits. -/
def undo (s : State) (old : Point) : Option State :=
  let count := (undoCounts false (s.undone old).vars).1
  if count ≤ s.lexEnv.length then
    some { s with
      around := s.around.drop (s.around.length - old.length)
      lexEnv := s.lexEnv.drop count }
  else none

/-- The end of a form that binds variables or functions. -/
def leave (s : State) : Option State :=
  match s.scopes with
  | .bindings old :: scopes => (s.undo old).map fun s => { s with scopes }
  | _ => none

/-- OP_BLOCK, OP_DO or OP_CATCH, and OP_FRAME. -/
def frame (s : State) (binding : Nat → Binding) : State :=
  let inner := s.cons binding
  { inner with scopes := .frame s.around inner.lexEnv :: s.scopes }

/-- OP_BLOCK and OP_TAGBODY. -/
def tagbody (s : State) (labels : List (Val × Nat)) (id : Int) : State :=
  let inner := s.cons fun address => .tagbody labels address id
  { inner with scopes := .tagbody s.around inner.around inner.lexEnv :: s.scopes }

/-- OP_EXIT_FRAME and OP_EXIT_TAGBODY, behind what c_undo_bindings emits. -/
def exitFrame (s : State) : Option State :=
  match s.scopes with
  | .frame old _ :: scopes | .tagbody old _ _ :: scopes =>
    (s.undo old).map fun s => { s with lexEnv := s.lexEnv.tail, scopes }
  | _ => none

def protect (s : State) : State := { s with scopes := .protect s.around s.lexEnv :: s.scopes }

/-- RETURN-FROM or THROW to one of the frames, or to the cleanup forms on the way. -/
def unwind (s : State) (k : Nat) : Option State :=
  match s.scopes.drop k with
  | .frame old saved :: scopes => some { s with around := old, lexEnv := saved.tail, scopes }
  | .protect old saved :: scopes => some { s with around := old, lexEnv := saved, scopes }
  | _ => none

/-- GO to a label of one of the TAGBODYs. -/
def go (s : State) (k : Nat) : Option State :=
  match s.scopes.drop k with
  | .tagbody old inside saved :: scopes =>
    some { s with around := inside, lexEnv := saved, scopes := .tagbody old inside saved :: scopes }
  | _ => none

def close (s : State) : State := { s with closures := s.closures ++ [(s.around, s.lexEnv)] }

/-- A closure is called: its code was compiled behind the boundary of a function. -/
def call (s : State) (closure : Nat) : Option State :=
  s.closures[closure]?.map fun (around, lexEnv) =>
    { s with
      around := .special (some .functionMark) false :: around
      lexEnv
      scopes := .call s.around s.lexEnv :: s.scopes }

def exit (s : State) : Option State :=
  match s.scopes with
  | .call old saved :: scopes => some { s with around := old, lexEnv := saved, scopes }
  | _ => none

end State

/-- What is compiled and run next. -/
inductive Step where
  | bind (name : Name) (special : Bool) (value : Val)
  | declare (name : Name)
  | symbolMacro (name : Sym)
  | functions (labels : Bool) (names : List FName)
  | enter
  | leave
  | block (name : Name) (id : Int)
  | catchTag (tag : Val)
  | tagbody (labels : List (Val × Nat)) (id : Int)
  | exitFrame
  | protect
  | unwind (k : Nat)
  | go (k : Nat)
  | close
  | call (closure : Nat)
  | exit

namespace State

def step (s : State) : Step → Option State
  | .bind name special value => some (s.bind name special value)
  | .declare name => s.declare name
  | .symbolMacro name => s.symbolMacro name
  | .functions labels names => some (s.functions labels names)
  | .enter => some s.enter
  | .leave => s.leave
  | .block name id => some (s.frame fun address => .block name address id)
  | .catchTag tag => some (s.frame fun address => .catchTag address tag)
  | .tagbody labels id => some (s.tagbody labels id)
  | .exitFrame => s.exitFrame
  | .protect => some s.protect
  | .unwind k => s.unwind k
  | .go k => s.go k
  | .close => some s.close
  | .call closure => s.call closure
  | .exit => s.exit

def run (s : State) : List Step → Option State
  | [] => some s
  | step :: steps => (s.step step).bind fun s => s.run steps

end State

/-- What a binding means for a variable name. -/
def Binding.sight (var : Name) : Binding → Sight
  | .var name _ _ => if name = var then .found else .passed
  | .special name _ => if name = var then .hidden else .passed
  | .symbolMacro name _ => if some name = var then .hidden else .passed
  | _ => .passed

/-- The record of the lexical variable that a name denotes at a point. -/
def Point.visible (var : Name) : Point → Option Nat
  | [] => none
  | b :: point =>
    match b.sight var with
    | .found => b.lex.bind LexRecord.address
    | .hidden => none
    | .passed => Point.visible var point

/-- The index in lex_env that compiled code has for a variable, or none for the value of the
symbol. -/
def indexOf : VarRef → Option Nat
  | .index n => some n
  | _ => none

/-- In the environment that is guessed, variable names refer to the same records as in the
original one, and to the variables that are visible. -/
def State.GuessLaw (s : State) : Prop :=
  ∀ var ref, varRefLoop var false s.vars 0 = some ref →
    ∃ ref', varRefLoop var false (guessEnvironment s.lexEnv) 0 = some ref' ∧
      indexOf ref' = indexOf ref ∧
      (indexOf ref').map (fun n => s.lexEnv[n]?.bind LexRecord.address) =
        (s.around.visible var).map some

end Ecl.Environments
