import Ecl.Value

/- The source language of compiler.d. Macro calls are written with their
expansion, and declarations are reduced to the variables declared special. -/
namespace Ecl.Interp

/-- A valid function name: a symbol or (SETF symbol). -/
inductive FName where
  | plain (name : Sym)
  | setf (name : Sym)
  deriving DecidableEq

/-- si_function_block_name. -/
def FName.blockName : FName → Sym
  | .plain name => name
  | .setf name => name

/-- The test of a CASE clause: a single object, a list of at least two keys
or the default OTHERWISE and T. -/
inductive CaseTest where
  | empty
  | key (value : Val)
  | keys (first : Val) (rest : List Val)
  | otherwise
  deriving DecidableEq

mutual

/-- Forms, one constructor for each entry of the table `database` and for the
atoms, QUOTE and calls that compile_form treats itself. -/
inductive Form where
  | const (value : Val)
  | quote (value : Val)
  /-- A quoted lambda expression or (SETF f). -/
  | quoteSpec (spec : FunSpec) (value : Val)
  | var (name : Sym)
  | expand (form : Form)
  | block (name : Option Sym) (body : List Form)
  | case (key : Form) (clauses : List (CaseTest × List Form))
  | catch (tag : Form) (body : List Form)
  | compilerLet (body : List Form)
  | cond (clauses : List (Form × List Form))
  | evalWhen (execute : Bool) (body : List Form)
  | flet (labels : Bool) (functions : List (FName × Lambda)) (specials : List Sym)
      (body : List Form)
  | function (spec : FunSpec)
  | funcall (fn : Form) (args : List Form)
  | go (tag : Val)
  | ifThen (test yes : Form)
  | ifElse (test yes : Form) (no : List Form)
  | letBind (star : Bool) (bindings : List (Sym × Form)) (specials : List Sym)
      (body : List Form)
  | locally (specials : List Sym) (body : List Form)
  | loadTimeValue (form : Form)
  | macrolet (specials : List Sym) (body : List Form)
  | multipleValueBind (vars : List Sym) (value : Form) (specials : List Sym) (body : List Form)
  | multipleValueCall (fn : Form) (args : List Form)
  | multipleValueProg1 (first : Form) (rest : List Form)
  | multipleValueSetq (vars : List Sym) (value : Form)
  | not (form : Form)
  | nthValue (index values : Form)
  | progn (body : List Form)
  | prog1 (first : Form) (rest : List Form)
  | progv (vars values : Form) (body : List Form)
  | psetq (pairs : List (Sym × Form))
  | returnFrom (name : Option Sym) (output : Form)
  | setq (pairs : List (Option Sym × Form))
  | symbolMacrolet (names : List Sym) (specials : List Sym) (body : List Form)
  | tagbody (items : List (Val ⊕ Form))
  | throw (tag form : Form)
  | unwindProtect (form : Form) (cleanup : List Form)
  | values (forms : List Form)
  | whileUntil (isWhile : Bool) (test : Form) (body : List (Val ⊕ Form))
  | cons (car cdr : Form)
  | car (form : Form)
  | cdr (form : Form)
  | list (star : Bool) (forms : List Form)
  | endp (form : Form)
  | call (spec : FunSpec) (args : List Form)

/-- What stands in the operator position of a call or inside FUNCTION. -/
inductive FunSpec where
  | name (name : FName)
  | lambda (lambda : Lambda)
  | lambdaBlock (name : FName) (lambda : Lambda)

/-- A lambda list as si_process_lambda returns it, with the body. -/
inductive Lambda where
  | mk (required : List Sym) (optional : List (Sym × Form × Option Sym)) (rest : Option Sym)
      (key : Bool) (keys : List (Sym × Sym × Form × Option Sym)) (allowOtherKeys : Bool)
      (aux : List (Sym × Form)) (doc decls : Val) (specials : List Sym) (body : List Form)

end

end Ecl.Interp

/- The keywords that head records of c_env->variables are constants, but LET,
MULTIPLE-VALUE-BIND, &rest and SPECIAL declarations do not refuse them as names
of variables. -/
namespace Ecl

def Sym.reserved : Sym → Bool
  | .kBlock | .kTag | .kFunction | .kDeclare => true
  | _ => false

theorem Sym.isConstant_of_reserved {name : Sym} (reserved : name.reserved = true) :
    name.isConstant = true := by
  cases name <;> simp_all [Sym.reserved, Sym.isConstant]

end Ecl
