import Ecl.Interp.SpecialForms

namespace Ecl.Interp

/-- An &optional or &key parameter: variable, default and supplied-p variable. -/
structure Default where
  var : Sym
  stmt : Action
  flag : Option Sym

/-- A lambda expression whose forms are compiled on demand. -/
structure LambdaParts where
  required : List Sym
  optional : List Default
  rest : Option Sym
  key : Bool
  keys : List (Sym × Default)
  allowOtherKeys : Bool
  aux : List (Sym × Action)
  doc : Val
  decls : Val
  specials : List Sym
  body : List Action

/-- The variables that si_process_lambda_list checks with push_var: all but
the &rest variable. -/
def LambdaParts.checked (parts : LambdaParts) : List Sym :=
  parts.required ++
    (parts.optional.flatMap fun param => param.var :: param.flag.toList) ++
    (parts.keys.flatMap fun param => param.2.var :: param.2.flag.toList) ++
    parts.aux.map Prod.fst

/-- The required arguments in ecl_make_lambda. -/
def requiredArguments (specials : List Sym) : List Sym → CM Unit
  | [] => return ()
  | var :: reqs => do
      asmOp .popreq
      cBind var specials
      requiredArguments specials reqs

/-- What c_default emits for an argument that is not supplied. -/
def cDefaultValue (param : Default) : CM Unit := do
  let _ ← param.stmt .push
  match param.flag with
  | none => return ()
  | some _ => let _ ← compileNil .reg0

/-- The supplied-p variable. -/
def cBindFlag (specials : List Sym) : Option Sym → CM Unit
  | none => return ()
  | some flag => cBind flag specials

def cDefault (param : Default) (specials : List Sym) : CM Unit := do
  asmSkip (asmJmp .jt) (some .jt) (cDefaultValue param)
  cBindFlag specials param.flag
  cPbind param.var specials

/-- The optional and the keyword arguments, after OP_POPOPT or OP_POP. -/
def defaultArguments (op : Opcode) (specials : List Sym) : List Default → CM Unit
  | [] => return ()
  | param :: params => do
      asmOp op
      cDefault param specials
      defaultArguments op specials params

def restArgument (specials : List Sym) (key : Bool) : Option Sym → CM Unit
  | none => if key then return () else asmOp .nomore
  | some rest => do
      asmOp .poprest
      cBind rest specials

/-- The &key arguments. The names are consed onto the constant one by one. -/
def keyArguments (parts : LambdaParts) : CM Unit :=
  if parts.key then do
    asmOp2c .pushkeys
      (.keys parts.allowOtherKeys (parts.keys.map fun key => Val.sym key.1).reverse)
    defaultArguments .pop parts.specials (parts.keys.map Prod.snd)
  else return ()

/-- The body, inside a block when the function has a name. -/
def lambdaBody (body : List Action) : Option FName → CM Flag
  | some name => compileForm 1 (cBlock (some name.blockName) body) .values
  | none => compileBody body .values

def lambdaParameters (parts : LambdaParts) : CM Unit := do
  requiredArguments parts.specials parts.required
  defaultArguments .popopt parts.specials parts.optional
  restArgument parts.specials parts.key parts.rest
  keyArguments parts
  letaBindings parts.specials parts.aux
  cDeclareSpecials parts.specials

/-- The new compiler environment of ecl_make_lambda. The symbol that marks the
boundary of the function is a new one, so c_register_var finds no record of it. -/
def CEnv.enter (parts : LambdaParts) (env : CEnv) : CEnv :=
  { env with
    vars := .variable (some .functionMark) true false :: env.vars
    constants := [.obj parts.doc, .obj parts.decls] }

/-- The body of ecl_make_lambda, in the new compiler environment. -/
def lambdaCode (name : Option FName) (parts : LambdaParts) (old : Nat) : CM Unit := do
  .modify (CEnv.enter parts)
  lambdaParameters parts
  let _ ← lambdaBody parts.body name
  cUndoBindings old true
  asmOp .exit

def eclMakeLambda (name : Option FName) (parts : LambdaParts) : CM Bytecodes := fun old =>
  match parts.checked.find? Sym.isConstant with
  | some var => .error (.illegalVariable var) old
  | none =>
    let fresh : CEnv :=
      { old with code := [], marks := [], constants := [], level := old.level + 1 }
    match lambdaCode name parts old.vars.length fresh with
    | .ok _ new =>
      .ok (asmEnd name new.code new.constants)
        { old with vars := restoreVars old new, evaluated := new.evaluated }
    | .error reason new => .error reason new

/- compile_form on the forms of the language. -/

/-- The test `Ct == test` of c_cond. -/
def Form.isT : Form → Bool
  | .var .t => true
  | _ => false

/-- The first argument of FUNCALL, with the two cases that c_funcall looks
for: a FUNCTION form and a QUOTE form, given by the operator if there is one. -/
def designator (fn : Form) (form : Action) : Option Operator → Designator
  | some operator =>
    match fn with
    | .quoteSpec _ _ => .quoteSpec operator
    | _ => .function operator
  | none =>
    match fn with
    | .quote value => .quote value
    | _ => .form form

section

variable (narg : Sym → Option Nat)

mutual

/-- compile_form: the entry of the table `database` that a form selects, with
its lexical_increment. -/
def translate : Form → Action
  | .const value => compileForm 0 (cQuoted value)
  | .quote value | .quoteSpec _ value => compileForm 0 (cQuoted value)
  | .var name => compileForm 0 (cSymbol name)
  | .expand form => translate form
  | .block name body => compileForm 1 (cBlock name (translateAll body))
  | .case key clauses => compileForm 1 (cCase (translate key) (translateCases clauses))
  | .catch tag body => compileForm 1 fun _ => cCatch (translate tag) (translateAll body)
  | .compilerLet body => compileForm 0 (compileBody (translateAll body))
  | .cond clauses => compileForm 1 (cCond (translateClauses clauses))
  | .evalWhen execute body =>
    compileForm 0 (compileBody (if execute then translateAll body else []))
  | .flet labels functions specials body =>
    compileForm 1
      (cLabelsFlet labels (translateFunctions functions) specials (translateAll body))
  | .function spec => compileForm 1 fun _ => asmFunction (translateSpec spec)
  | .funcall fn args => compileForm 0 fun _ => cFuncall (designator fn (translate fn)
      (translateOperator fn)) (translateAll args)
  | .go tag => compileForm 1 (cGo tag)
  | .ifThen test yes => compileForm 1 (cIf test.isT (translate test) (translate yes) none)
  | .ifElse test yes no =>
    compileForm 1 (cIf test.isT (translate test) (translate yes) (some (translateAll no)))
  | .letBind star bindings specials body =>
    compileForm 1
      (cLetLeta star (translateBindings bindings) specials (translateAll body))
  | .locally specials body => compileForm 0 (cLocally specials (translateAll body))
  | .loadTimeValue form => compileForm 1 (cValues [translate form])
  | .macrolet specials body => compileForm 0 (cLocally specials (translateAll body))
  | .multipleValueBind vars value specials body =>
    compileForm 1 (cMultipleValueBind vars (translate value) specials (translateAll body))
  | .multipleValueCall fn args =>
    compileForm 1 fun _ => cMultipleValueCall (designator fn (translate fn)
      (translateOperator fn)) (translate fn) (translateAll args)
  | .multipleValueProg1 first rest =>
    compileForm 1 fun _ => cMultipleValueProg1 (translate first) (translateAll rest)
  | .multipleValueSetq vars value => compileForm 1 (cMultipleValueSetq vars (translate value))
  | .not form => compileForm 1 (cNot (translate form))
  | .nthValue index values =>
    compileForm 1 fun _ => cNthValue (translate index) (translate values)
  | .progn body => compileForm 0 (compileBody (translateAll body))
  | .prog1 first rest => compileForm 1 (cProg1 (translate first) (translateAll rest))
  | .progv vars values body =>
    compileForm 1 fun _ => cProgv (translate vars) (translate values) (translateAll body)
  | .psetq pairs => compileForm 1 (cPsetq (translateBindings pairs))
  | .returnFrom name output => compileForm 1 fun _ => cReturnAux name (translate output)
  | .setq pairs => compileForm 1 (cSetq (translatePairs pairs))
  | .symbolMacrolet names specials body =>
    compileForm 0 (cSymbolMacrolet names specials (translateAll body))
  | .tagbody items => compileForm 1 (cTagbody (translateItems items))
  | .throw tag form => compileForm 1 (cThrow (translate tag) (translate form))
  | .unwindProtect form cleanup =>
    compileForm 1 (cUnwindProtect (translate form) (translateAll cleanup))
  | .values forms => compileForm 1 (cValues (translateAll forms))
  | .whileUntil isWhile test body =>
    compileForm 0 (cWhileUntil isWhile (translate test) (translateItems body))
  | .cons car cdr => compileForm 0 fun _ => cCons (translate car) (translate cdr)
  | .car form => compileForm 0 fun _ => cInlined .car (translate form)
  | .cdr form => compileForm 0 fun _ => cInlined .cdr (translate form)
  | .list star forms =>
    compileForm 0 (cListListA (if star then .listA else .list) (translateAll forms))
  | .endp form => compileForm 0 fun _ => cInlined .endp (translate form)
  | .call spec args =>
    compileForm 0 fun _ => cOrdinaryCall narg (translateSpec spec) (translateAll args)

/-- The operator inside a FUNCTION or QUOTE form. -/
def translateOperator : Form → Option Operator
  | .function spec | .quoteSpec spec _ => some (translateSpec spec)
  | _ => none

def translateAll : List Form → List Action
  | [] => []
  | form :: forms => translate form :: translateAll forms

def translateCases : List (CaseTest × List Form) → List (CaseTest × List Action)
  | [] => []
  | (test, body) :: rest => (test, translateAll body) :: translateCases rest

def translateClauses : List (Form × List Form) → List Clause
  | [] => []
  | (test, body) :: rest =>
    ⟨test.isT, translate test, translateAll body⟩ :: translateClauses rest

def translateBindings : List (Sym × Form) → List (Sym × Action)
  | [] => []
  | (var, form) :: rest => (var, translate form) :: translateBindings rest

def translatePairs : List (Option Sym × Form) → List (Option Sym × Action)
  | [] => []
  | (place, form) :: rest => (place, translate form) :: translatePairs rest

def translateItems : List (Val ⊕ Form) → List (Val ⊕ Action)
  | [] => []
  | .inl label :: rest => .inl label :: translateItems rest
  | .inr form :: rest => .inr (translate form) :: translateItems rest

def translateFunctions : List (FName × Lambda) → List (FName × CM Bytecodes)
  | [] => []
  | (name, lambda) :: rest =>
    (name, eclMakeLambda (some name) (lambdaParts lambda)) :: translateFunctions rest

def translateSpec : FunSpec → Operator
  | .name name => .name name
  | .lambda lambda => .lambda (eclMakeLambda none (lambdaParts lambda))
  | .lambdaBlock name lambda => .lambda (eclMakeLambda (some name) (lambdaParts lambda))

def lambdaParts : Lambda → LambdaParts
  | .mk required optional rest key keys allowOtherKeys aux doc decls specials body =>
    { required, optional := translateDefaults optional, rest, key,
      keys := translateKeys keys, allowOtherKeys, aux := translateBindings aux, doc, decls,
      specials, body := translateAll body }

def translateDefaults : List (Sym × Form × Option Sym) → List Default
  | [] => []
  | (var, stmt, flag) :: rest => ⟨var, translate stmt, flag⟩ :: translateDefaults rest

def translateKeys : List (Sym × Sym × Form × Option Sym) → List (Sym × Default)
  | [] => []
  | (key, var, stmt, flag) :: rest => (key, ⟨var, translate stmt, flag⟩) :: translateKeys rest

termination_by structural form => form

end

end

/-- The compiler environment of si::eval-with-env with a null environment. -/
def CEnv.toplevel : CEnv where
  code := []
  marks := []
  vars := []
  constants := []
  level := 0
  evaluated := []
  begun := false

/-- The compilation done by si::eval-with-env. -/
def evalWithEnv (narg : Sym → Option Nat) (form : Form) : CM Bytecodes := do
  let _ ← translate narg form .values
  asmOp .exit
  let env ← CM.get
  return asmEnd none env.code env.constants

end Ecl.Interp
