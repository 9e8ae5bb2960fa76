import Mathlib.Data.List.Basic
import Ecl.Lib.Except

/- The lambda lists of compiler.d: si_process_lambda_list in the context FUNCTION, and what
ecl_make_lambda asks of the variables. -/
namespace Ecl.Lambda

/-- The symbols that the parser compares with. -/
inductive LambdaKeyword where
  | optional
  | rest
  | key
  | aux
  | allowOtherKeys
  deriving DecidableEq

/-- NIL is a list and no t_symbol. -/
inductive Obj where
  | nil
  | keyword (k : LambdaKeyword)
  | symbol (s : Nat)
  | cons (address : Nat)
  | other (n : Nat)
  deriving DecidableEq

/-- The conses, which may be circular, the symbols that are constants, and the symbols of the
package of keywords with the names of symbols. -/
structure Heap where
  car : Nat → Obj
  cdr : Nat → Obj
  constant : Nat → Bool
  keywordNamed : Obj → Nat

inductive LambdaError where
  | illegalLambda
  | illegalVariable (v : Obj)
  | notSymbol (v : Obj)
  | notList (x : Obj)
  | tooLong
  | undefined
  deriving DecidableEq

inductive Stage where
  | requireds
  | optionals
  | rest
  | keys
  | otherKeys
  | auxs
  deriving DecidableEq

def Stage.number : Stage → Nat
  | .requireds => 0
  | .optionals => 1
  | .rest => 2
  | .keys => 3
  | .otherKeys => 4
  | .auxs => 5

/-- The variables of si_process_lambda_list, with its lists from their ends. -/
structure State where
  reqs : List Obj
  opts : List Obj
  keys : List Obj
  rest : Obj
  auxs : List Obj
  nreq : Nat
  nopt : Nat
  nkey : Nat
  stage : Stage
  allowOtherKeys : Bool
  keyFlag : Bool

def State.initial : State where
  reqs := []
  opts := []
  keys := []
  rest := .nil
  auxs := []
  nreq := 0
  nopt := 0
  nkey := 0
  stage := .requireds
  allowOtherKeys := false
  keyFlag := false

/-- The values that are returned. -/
structure LambdaList where
  reqs : Nat × List Obj
  opts : Nat × List Obj
  rest : Obj
  keyFlag : Bool
  keys : Nat × List Obj
  allowOtherKeys : Bool
  auxs : List Obj
  deriving DecidableEq

def callArgumentsLimit : Nat := 65536

/-- The label OUTPUT. -/
def State.output (st : State) : Except LambdaError LambdaList :=
  if callArgumentsLimit ≤ st.nreq + st.nopt + (if st.rest = .nil then 0 else 1) + st.nkey then
    .error .tooLong
  else
    .ok {
      reqs := (st.nreq, st.reqs.reverse)
      opts := (st.nopt, st.opts.reverse)
      rest := st.rest
      keyFlag := st.keyFlag
      keys := (st.nkey, st.keys.reverse)
      allowOtherKeys := st.allowOtherKeys
      auxs := st.auxs.reverse }

namespace Heap

variable (h : Heap)

/-- The check of push_var. -/
def checkVar : Obj → Except LambdaError Unit
  | .nil => .error (.illegalVariable .nil)
  | .keyword _ => .ok ()
  | .symbol s => if h.constant s then .error (.illegalVariable (.symbol s)) else .ok ()
  | v => .error (.notSymbol v)

/-- The variable, the initial value and the name of the flag in an optional or keyword
parameter. -/
def specifier : Obj → Except LambdaError (Obj × Obj × Obj)
  | .cons a =>
    match h.cdr a with
    | .nil => .ok (h.car a, .nil, .nil)
    | .cons b =>
      match h.cdr b with
      | .nil => .ok (h.car a, h.car b, .nil)
      | .cons c =>
        match h.cdr c with
        | .nil => .ok (h.car a, h.car b, h.car c)
        | .cons _ => .error .illegalLambda
        | x => .error (.notList x)
      | x => .error (.notList x)
    | x => .error (.notList x)
  | v => .ok (v, .nil, .nil)

/-- The flag of a parameter, if there is one. -/
def checkFlag (spp : Obj) : Except LambdaError Unit :=
  if spp = .nil then .ok () else h.checkVar spp

def assertTypeSymbol : Obj → Except LambdaError Unit
  | .keyword _ => .ok ()
  | .symbol _ => .ok ()
  | v => .error (.notSymbol v)

/-- The keyword and the variable of a keyword parameter. -/
def keyName : Obj → Except LambdaError (Obj × Obj)
  | .cons a =>
    match h.cdr a with
    | .nil => .error .illegalLambda
    | .cons b =>
      match h.cdr b with
      | .nil => do
          assertTypeSymbol (h.car b)
          assertTypeSymbol (h.car a)
          .ok (h.car a, h.car b)
      | .cons _ => .error .illegalLambda
      | x => .error (.notList x)
    | x => .error (.notList x)
  | .other n => .error (.notSymbol (.other n))
  | v => .ok (.symbol (h.keywordNamed v), v)

/-- The variable and the initial value of an auxiliary variable. The CDR of an object that is no
list is some word of memory. -/
def auxiliary : Obj → Except LambdaError (Obj × Obj)
  | .cons a =>
    match h.cdr a with
    | .nil => .ok (h.car a, .nil)
    | .cons b =>
      match h.cdr b with
      | .nil => .ok (h.car a, h.car b)
      | .cons _ => .error .illegalLambda
      | x => .error (.notList x)
    | _ => .error .undefined
  | v => .ok (v, .nil)

/-- An element that is no lambda list keyword. -/
def parameter (st : State) (v : Obj) : Except LambdaError State :=
  match st.stage with
  | .requireds => do
      h.checkVar v
      .ok { st with nreq := st.nreq + 1, reqs := v :: st.reqs }
  | .optionals => do
      let (v, init, spp) ← h.specifier v
      h.checkVar v
      h.checkFlag spp
      .ok { st with nopt := st.nopt + 1, opts := spp :: init :: v :: st.opts }
  | .rest => .error .illegalLambda
  | .keys => do
      let (v, init, spp) ← h.specifier v
      let (key, v) ← h.keyName v
      h.checkVar v
      h.checkFlag spp
      .ok { st with nkey := st.nkey + 1, keys := spp :: init :: v :: key :: st.keys }
  | _ => do
      let (v, init) ← h.auxiliary v
      h.checkVar v
      .ok { st with auxs := init :: v :: st.auxs }

/-- From the label LOOP to the next time it is reached, with the list that is left. -/
def iterate (st : State) (a : Nat) : Except LambdaError (State × Obj) :=
  match h.car a with
  | .keyword .optional =>
    if Stage.optionals.number ≤ st.stage.number then .error .illegalLambda
    else .ok ({ st with stage := .optionals }, h.cdr a)
  | .keyword .rest =>
    match h.cdr a with
    | .cons b =>
      if Stage.rest.number ≤ st.stage.number then .error .illegalLambda
      else .ok ({ st with stage := .rest, rest := h.car b }, h.cdr b)
    | _ => .error .illegalLambda
  | .keyword .key =>
    if Stage.keys.number ≤ st.stage.number then .error .illegalLambda
    else .ok ({ st with stage := .keys, keyFlag := true }, h.cdr a)
  | .keyword .aux =>
    if Stage.auxs.number ≤ st.stage.number then .error .illegalLambda
    else .ok ({ st with stage := .auxs }, h.cdr a)
  | .keyword .allowOtherKeys =>
    if st.stage ≠ .keys then .error .illegalLambda
    else .ok ({ st with stage := .otherKeys, allowOtherKeys := true }, h.cdr a)
  | v => do
      let st ← h.parameter st v
      .ok (st, h.cdr a)

/-- The loop, for so many times at most: on a circular list it may not end. -/
def loop : Nat → State → Obj → Option (Except LambdaError LambdaList)
  | 0, _, _ => none
  | n + 1, st, .cons a =>
    match h.iterate st a with
    | .error e => some (.error e)
    | .ok (st, lambdaList) => loop n st lambdaList
  | _ + 1, st, .nil => some st.output
  | _ + 1, _, _ => some (.error .illegalLambda)

def processLambdaList (n : Nat) (lambdaList : Obj) : Option (Except LambdaError LambdaList) :=
  h.loop n .initial lambdaList

end Heap

def Obj.symbolp : Obj → Bool
  | .nil | .keyword _ | .symbol _ => true
  | _ => false

/-- The variables in the optional parameters. -/
def optVariables : List Obj → List Obj
  | var :: _ :: flag :: opts =>
    (if flag = .nil then [var] else [flag, var]) ++ optVariables opts
  | _ => []

/-- The variables in the keyword parameters. -/
def keyVariables : List Obj → List Obj
  | _ :: var :: _ :: flag :: keys =>
    (if flag = .nil then [var] else [flag, var]) ++ keyVariables keys
  | _ => []

def auxVariables : List Obj → List Obj
  | var :: _ :: auxs => var :: auxVariables auxs
  | _ => []

/-- The variables that ecl_make_lambda binds with c_bind and c_pbind. -/
def LambdaList.variables (list : LambdaList) : List Obj :=
  list.reqs.2 ++ optVariables list.opts.2 ++ (if list.rest = .nil then [] else [list.rest]) ++
    (if list.keyFlag then keyVariables list.keys.2 else []) ++ auxVariables list.auxs

/-- The parser returns some lists, and ecl_make_lambda has nothing against their variables. -/
def Heap.Accepts (h : Heap) (lambdaList : Obj) (list : LambdaList) : Prop :=
  (∃ n, h.processLambdaList n lambdaList = some (.ok list)) ∧
    ∀ v ∈ list.variables, v.symbolp = true

/-- From a list one comes to another one past the given elements. -/
def Heap.Segment (h : Heap) : Obj → List Obj → Obj → Prop
  | l, [], l' => l = l'
  | l, x :: xs, l' => ∃ a, l = .cons a ∧ h.car a = x ∧ Heap.Segment h (h.cdr a) xs l'

def Heap.ListOf (h : Heap) (l : Obj) (xs : List Obj) : Prop := h.Segment l xs .nil

/-- A symbol that is no constant. -/
def Heap.Variable (h : Heap) : Obj → Prop
  | .keyword _ => True
  | .symbol s => h.constant s = false
  | _ => False

/-- An optional or keyword parameter as it is written, where a flag may be left out. -/
inductive Heap.Specifier (h : Heap) : Obj → Obj → Obj → Option Obj → Prop where
  | atom {v : Obj} (atom : ∀ a, v ≠ .cons a) : Specifier h v v .nil none
  | var {l v : Obj} (written : h.ListOf l [v]) : Specifier h l v .nil none
  | init {l v init : Obj} (written : h.ListOf l [v, init]) : Specifier h l v init none
  | flag {l v init flag : Obj} (written : h.ListOf l [v, init, flag]) :
      Specifier h l v init (some flag)

/-- The name of a keyword parameter: a variable, or a symbol and a variable. -/
inductive Heap.KeyName (h : Heap) : Obj → Obj → Obj → Prop where
  | var {v : Obj} (atom : ∀ a, v ≠ .cons a) : KeyName h v (.symbol (h.keywordNamed v)) v
  | both {l key v : Obj} (written : h.ListOf l [key, v]) (symbol : key.symbolp = true) :
      KeyName h l key v

structure OptParameter where
  object : Obj
  var : Obj
  init : Obj
  flag : Option Obj

structure KeyParameter where
  object : Obj
  key : Obj
  var : Obj
  init : Obj
  flag : Option Obj

structure AuxVariable where
  object : Obj
  var : Obj
  init : Obj

/-- A flag is a variable, or NIL for none. -/
def Heap.Flag (h : Heap) (flag : Option Obj) : Prop := ∀ f ∈ flag, f = .nil ∨ h.Variable f

structure OptParameter.Written (h : Heap) (p : OptParameter) : Prop where
  plain : ∀ k, p.object ≠ .keyword k
  specifier : h.Specifier p.object p.var p.init p.flag
  var : h.Variable p.var
  flag : h.Flag p.flag

structure KeyParameter.Written (h : Heap) (p : KeyParameter) : Prop where
  plain : ∀ k, p.object ≠ .keyword k
  specifier : ∃ name, h.Specifier p.object name p.init p.flag ∧ h.KeyName name p.key p.var
  var : h.Variable p.var
  flag : h.Flag p.flag

structure AuxVariable.Written (h : Heap) (p : AuxVariable) : Prop where
  plain : ∀ k, p.object ≠ .keyword k
  specifier : h.Specifier p.object p.var p.init none
  var : h.Variable p.var

/-- The sections of a lambda list, with what is written between &allow-other-keys and the next
keyword. -/
structure Sections where
  reqs : List Obj
  opts : Option (List OptParameter)
  rest : Option Obj
  keys : Option (List KeyParameter × Option (List AuxVariable))
  auxs : Option (List AuxVariable)

namespace Sections

def auxPart : Option (List AuxVariable) → List Obj
  | none => []
  | some ps => .keyword .aux :: ps.map AuxVariable.object

def otherPart : Option (List AuxVariable) → List Obj
  | none => []
  | some ps => .keyword .allowOtherKeys :: ps.map AuxVariable.object

def keyPart : Option (List KeyParameter × Option (List AuxVariable)) → List Obj
  | none => []
  | some (ps, others) => .keyword .key :: ps.map KeyParameter.object ++ otherPart others

def restPart : Option Obj → List Obj
  | none => []
  | some v => [.keyword .rest, v]

def optPart : Option (List OptParameter) → List Obj
  | none => []
  | some ps => .keyword .optional :: ps.map OptParameter.object

def elements (s : Sections) : List Obj :=
  s.reqs ++ (optPart s.opts ++ (restPart s.rest ++ (keyPart s.keys ++ auxPart s.auxs)))

/-- The keyword parameters, and what comes after &allow-other-keys. -/
def keyParameters (s : Sections) : List KeyParameter := (s.keys.map Prod.fst).getD []

def others (s : Sections) : Option (List AuxVariable) := s.keys.bind Prod.snd

structure Valid (h : Heap) (s : Sections) : Prop where
  reqs : ∀ v ∈ s.reqs, (∀ k, v ≠ .keyword k) ∧ h.Variable v
  opts : ∀ p ∈ s.opts.getD [], p.Written h
  keys : ∀ p ∈ s.keyParameters, p.Written h
  others : ∀ p ∈ s.others.getD [], p.Written h
  auxs : ∀ p ∈ s.auxs.getD [], p.Written h

/-- The lists that describe the sections. -/
def lists (s : Sections) : LambdaList where
  reqs := (s.reqs.length, s.reqs)
  opts := ((s.opts.getD []).length,
    (s.opts.getD []).flatMap fun p => [p.var, p.init, p.flag.getD .nil])
  rest := s.rest.getD .nil
  keyFlag := s.keys.isSome
  keys := (s.keyParameters.length,
    s.keyParameters.flatMap fun p => [p.key, p.var, p.init, p.flag.getD .nil])
  allowOtherKeys := s.others.isSome
  auxs := (s.others.getD [] ++ s.auxs.getD []).flatMap fun p => [p.var, p.init]

/-- How many parameters there are. -/
def count (s : Sections) : Nat :=
  s.reqs.length + (s.opts.getD []).length + (if s.rest.getD .nil = .nil then 0 else 1) +
    s.keyParameters.length

/-- An ordinary lambda list: nothing but &aux comes after &allow-other-keys, the rest parameter
is a variable, and there are fewer parameters than LAMBDA_PARAMETERS_LIMIT, the same number. -/
structure Ordinary (h : Heap) (s : Sections) : Prop where
  others : ∀ ps ∈ s.others, ps = []
  rest : ∀ v ∈ s.rest, h.Variable v
  few : s.count < callArgumentsLimit

/-- What the parser and ecl_make_lambda ask for: fewer parameters than the limit, a symbol for
the rest parameter, and no keyword NIL. -/
structure Accepted (s : Sections) : Prop where
  few : s.count < callArgumentsLimit
  rest : ∀ v ∈ s.rest, v.symbolp = true
  keys : ∀ p ∈ s.keyParameters, p.key ≠ .nil

end Sections

/-- A lambda list with its sections. -/
def Heap.Divided (h : Heap) (l : Obj) (s : Sections) : Prop :=
  h.ListOf l s.elements ∧ s.Valid h

/-- Exactly the ordinary lambda lists are accepted, with the lists for their sections. -/
def Heap.LambdaLaw (h : Heap) (l : Obj) : Prop :=
  ∀ list, h.Accepts l list ↔ ∃ s, h.Divided l s ∧ s.Ordinary h ∧ list = s.lists

end Ecl.Lambda
