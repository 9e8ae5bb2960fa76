import Ecl.Interp.Compiler

namespace Ecl.Interp

def blockName : Option Sym → Val
  | none => .nil
  | some name => .sym name

/-- OP_DO or OP_BLOCK. -/
def asmBlock : Option Sym → CM Unit
  | none => asmOp .do
  | some name => asmOp2c .block (.obj (.sym name))

/-- The common beginning of c_block and c_catch: a record, the instruction that
prepares the frame, OP_FRAME, and the body. -/
def beginFrame (name : Val) (prepare : CM Unit) (body : CM Flag) : CM Nat := do
  cRegisterBlock name
  prepare
  let labelz ← asmJmp .frame
  let _ ← body
  return labelz

/-- Their common end. -/
def endFrame (old : CEnv) (labelz : Nat) : CM Unit := do
  cUndoBindings old.vars.length false
  asmOp .exitFrame
  asmComplete none labelz

/-- c_block: the body is compiled a second time when no RETURN-FROM used the
block. -/
def cBlock (name : Option Sym) (body : List Action) : Action := fun oldFlags => do
  let old ← CM.get
  let labelz ← beginFrame (blockName name) (asmBlock name)
    (compileBody body (maybeValuesOrReg0 oldFlags))
  let env ← CM.get
  if env.vars.head?.any Record.third then
    endFrame old labelz
    return maybeValuesOrReg0 oldFlags
  else
    .modify fun new =>
      { old with
        vars := restoreVars old new
        constants := restoreConstants old new
        evaluated := new.evaluated }
    compileBody body oldFlags

def cArguments : List Action → CM Unit
  | [] => return ()
  | arg :: args => do
      let _ ← arg .push
      cArguments args

/-- An operator: a name or the compilation of a lambda expression. -/
inductive Operator where
  | name (name : FName)
  | lambda (make : CM Bytecodes)

def asmFunction : Operator → CM Flag
  | .name name => do
      match ← cTagRef (.function name) with
      | none => asmOp2c .function name.const
      | some (ndx, _) => asmOp2 .lfunction ndx
      return .reg0
  | .lambda make => do
      let bytecodes ← make
      asmOp2c .close (.code bytecodes)
      return .reg0

/-- The branch of c_call for global functions. -/
def cCallGlobal (name : Val) (nargs : Nat) : CM Flag := do
  asmOp2 .callg nargs
  asmC (.obj name)
  return .values

/-- The other branch of c_call. -/
def cCallLocal (operator : Operator) (nargs : Nat) : CM Flag := do
  let _ ← asmFunction operator
  asmOp2 .call nargs
  return .values

/-- c_call, without stepping. -/
def cCall (operator : Operator) (args : List Action) : CM Flag := do
  cArguments args
  match operator with
  | .name (.plain name) =>
    match ← cTagRef (.function (.plain name)) with
    | none => cCallGlobal (.sym name) args.length
    | some _ => cCallLocal operator args.length
  | _ => cCallLocal operator args.length

/-- The first argument of FUNCALL; `quoteSpec` is a quoted operator, with FLAG_GLOBAL. -/
inductive Designator where
  | function (operator : Operator)
  | quote (value : Val)
  | quoteSpec (operator : Operator)
  | form (form : Action)

def cFuncall (fn : Designator) (args : List Action) : CM Flag := do
  match fn with
  | .function operator => cCall operator args
  | .quote value =>
    cArguments args
    if value.symbolp then cCallGlobal value args.length else .fail .invalidFunction
  | .quoteSpec operator =>
    cArguments args
    match operator with
    | .name (.plain name) => cCallGlobal (.sym name) args.length
    | _ => cCallLocal operator args.length
  | .form form =>
    let _ ← form .push
    cArguments args
    asmOp2 .fcall args.length
    asmOp .pop1
    return .values

/-- An ordinary call in compile_form. `narg` is the number of arguments of the
core functions of fixed arity. -/
def cOrdinaryCall (narg : Sym → Option Nat) (operator : Operator) (args : List Action) :
    CM Flag := do
  match operator, args with
  | .name (.plain name), [arg] =>
    if narg name = some 1 then
      let _ ← arg .reg0
      asmOp2c .callg1 (.obj (.sym name))
      return .values
    else cCall operator args
  | .name (.plain name), [first, second] =>
    if narg name = some 2 then
      let _ ← first .push
      let _ ← second .reg0
      asmOp2c .callg2 (.obj (.sym name))
      return .values
    else cCall operator args
  | _, _ => cCall operator args

/-- The common shape of code that a conditional jump passes over. -/
def asmSkip {α : Type} (jump : CM Nat) (op : Option Opcode) (body : CM α) : CM Unit := do
  let label ← jump
  let _ ← body
  asmComplete op label

/-- The common shape of two pieces of code of which one is executed. -/
def asmEither {α β : Type} (jump : CM Nat) (op : Option Opcode) (first : CM α) (second : CM β) :
    CM Unit := do
  let label ← jump
  let _ ← first
  let exit ← asmJmp .jmp
  asmComplete op label
  let _ ← second
  asmComplete (some .jmp) exit

/-- The tests of one CASE clause that jump to its body: all but the last. The
jump skips the later ones, three words each. -/
def caseJumps : List Val → CM Unit
  | [] => return ()
  | [_] => return ()
  | v :: rest => do
      asmOp .jeql
      asmC (.obj v)
      asmArg (rest.length * 3 + 1)
      caseJumps rest

/-- The keys of a clause and their last one. -/
def CaseTest.objects : CaseTest → List Val
  | .key value => [value]
  | .keys first rest => first :: rest
  | _ => []

/-- OP_JNEQL with its two operands; the second is to be completed. -/
def asmJneql (v : Val) : CM Nat := do
  asmOp .jneql
  asmC (.obj v)
  let labeln ← currentPc
  asmArg 0
  return labeln

/-- A clause with keys; `last` when nothing has to be compiled for the failure
of the last clause. -/
def caseClause (objects : List Val) (last : Bool) (clause rest : CM Flag) : CM Unit := do
  caseJumps objects
  if last then asmSkip (asmJneql (objects.getLastD .nil)) none clause
  else asmEither (asmJneql (objects.getLastD .nil)) none clause rest

def performCCase : List (CaseTest × List Action) → Action
  | [], flags => compileBody [] flags
  | (test, clause) :: args, flags => do
      match test with
      | .empty => performCCase args flags
      | .otherwise =>
        let _ ← compileBody clause flags
        return flags
      | test => do
          caseClause test.objects (args.isEmpty && !flags.useful) (compileBody clause flags)
            (performCCase args flags)
          return flags

def cCase (key : Action) (clauses : List (CaseTest × List Action)) : Action := fun flags => do
  let _ ← key .reg0
  performCCase clauses (maybeValuesOrReg0 flags)

def cValues (args : List Action) : Action := fun flags => do
  match flags, args with
  | .ignore, [] => return .ignore
  | .ignore, args => compileBody args .ignore
  | .push, [] => compileNil .push
  | .push, arg :: args =>
    let flags ← arg .push
    let _ ← compileBody args .ignore
    return flags
  | _, [] =>
    asmOp .nop
    return .values
  | _, args =>
    cArguments args
    asmOp2 .values args.length
    return .values

/-- A clause of COND; `isT` when its test is the symbol T. -/
structure Clause where
  isT : Bool
  test : Action
  body : List Action

/-- The test of a clause whose value may be the value of the COND. -/
def cTest (test : Action) (flags : Flag) : CM Unit := do
  let _ ← test .reg0
  if flags = .values then asmOp .valuereg0

/-- A clause of c_cond; `last` when none follows it. -/
def condClause (clause : Clause) (last : Bool) (flags : Flag) (rest : CM Flag) : CM Unit :=
  if clause.isT then
    match clause.body with
    | [] => do
        let _ ← compileT flags
    | body => do
        let _ ← compileBody body flags
  else
    match last, clause.body with
    | true, [] => do
        let _ ← cValues [clause.test] flags
    | true, body => do
        cTest clause.test flags
        asmSkip (asmJmp .jnil) (some .jnil) (compileBody body flags)
    | false, [] => do
        cTest clause.test flags
        asmSkip (asmJmp .jt) (some .jt) rest
    | false, body => do
        let _ ← clause.test .reg0
        asmEither (asmJmp .jnil) (some .jnil) (compileBody body flags) rest

def cCond : List Clause → Action
  | [], flags => compileNil flags
  | clause :: args, flags => do
      condClause clause args.isEmpty (maybeValuesOrReg0 flags)
        (cCond args (maybeValuesOrReg0 flags))
      return maybeValuesOrReg0 flags

/-- c_if, which hands its two or three parts to c_cond. -/
def cIf (isT : Bool) (test yes : Action) : Option (List Action) → Action
  | none => cCond [⟨isT, test, [yes]⟩]
  | some no => cCond [⟨isT, test, [yes]⟩, ⟨true, compileT, no⟩]

/-- The labels of a TAGBODY, the last one first, with their numbers. -/
def tagLabels : List (Val ⊕ Action) → Nat → List (Val × Nat) → List (Val × Nat)
  | [], _, labels => labels
  | .inl label :: body, nt, labels => tagLabels body (nt + 1) ((label, nt) :: labels)
  | .inr _ :: body, nt, labels => tagLabels body nt labels

def asmZeros : Nat → CM Unit
  | 0 => return ()
  | n + 1 => do
      asmArg 0
      asmZeros n

/-- The second loop of c_tagbody; `tagBase` is the operand of the next label. -/
def tagbodyItems : List (Val ⊕ Action) → Nat → CM Unit
  | [], _ => return ()
  | .inl _ :: body, tagBase => do
      asmComplete none tagBase
      tagbodyItems body (tagBase + 1)
  | .inr form :: body, tagBase => do
      let _ ← form .ignore
      tagbodyItems body tagBase

/-- The forms of a TAGBODY without labels. -/
def tagbodyForms : List (Val ⊕ Action) → List Action
  | [] => []
  | .inl _ :: body => tagbodyForms body
  | .inr form :: body => form :: tagbodyForms body

def cTagbody (body : List (Val ⊕ Action)) : Action := fun flags => do
  let old ← CM.get
  let labels := tagLabels body 0 []
  if labels.isEmpty then
    let _ ← compileBody (tagbodyForms body) .ignore
    compileNil flags
  else
    asmOp2c .block (.obj (.fixnum 0))
    cRegisterTags labels
    asmOp2 .tagbody labels.length
    let tagBase ← currentPc
    asmZeros labels.length
    tagbodyItems body tagBase
    asmOp .exitTagbody
    cUndoBindings old.vars.length false
    return .reg0

def cWhileUntil (isWhile : Bool) (test : Action) (body : List (Val ⊕ Action)) : Action :=
  fun flags => do
    let flags := maybeReg0 flags
    let labelt ← asmJmp .jmp
    let labelb ← currentPc
    let _ ← cTagbody body flags
    asmComplete (some .jmp) labelt
    let _ ← test .reg0
    asmOp (if isWhile then .jt else .jnil)
    let pc ← currentPc
    asmArg (labelb - pc)
    return flags

/-- Code with bindings of its own, which c_undo_bindings undoes at the end. -/
def cScope (code : CM Flag) : CM Flag := do
  let old ← CM.get
  let flags ← code
  cUndoBindings old.vars.length false
  return flags

/-- Special declarations with the body they stand in. -/
def declaredBody (specials : List Sym) (body : List Action) : Action := fun flags => do
  cDeclareSpecials specials
  compileBody body flags

def cLocally (specials : List Sym) (body : List Action) : Action := fun flags =>
  cScope (declaredBody specials body flags)

/-- The loop of c_let_leta with OP_BIND. -/
def letaBindings (specials : List Sym) : List (Sym × Action) → CM Unit
  | [] => return ()
  | (var, value) :: rest => do
      let _ ← value .reg0
      cBind var specials
      letaBindings specials rest

/-- The loop that binds the variables of a LET, the last one first. -/
def pbindAll (specials : List Sym) : List Sym → CM Unit
  | [] => return ()
  | var :: vars => do
      cPbind var specials
      pbindAll specials vars

/-- The bindings of c_let_leta; `star` for LET*. -/
def letBindings (star : Bool) (bindings : List (Sym × Action)) (specials : List Sym) : CM Unit :=
  if star || bindings.length == 1 then letaBindings specials bindings
  else do
    cArguments (bindings.map Prod.snd)
    pbindAll specials (bindings.map Prod.fst).reverse

def cLetLeta (star : Bool) (bindings : List (Sym × Action)) (specials : List Sym)
    (body : List Action) : Action := fun flags =>
  if bindings.isEmpty then cLocally specials body flags
  else
    cScope do
      letBindings star bindings specials
      declaredBody specials body flags

/-- The opcode of c_vbind: OP_BIND takes the first value from REG0. -/
def asmVbind (nth first : Opcode) (n : Nat) : CM Unit :=
  if n ≠ 0 then asmOp2 nth n else asmOp first

def cVbind (var : Sym) (n : Nat) (specials : List Sym) : CM Unit := do
  if cDeclaredSpecial var specials then
    cRegisterVar var true true
    asmVbind .vbinds .binds n
    asmC (.obj (.sym var))
  else
    cRegisterVar var false true
    asmVbind .vbind .bind n
    asmC (.obj (.sym var))

/-- The loop of c_multiple_value_bind over the reversed variables. -/
def vbindAll (specials : List Sym) : List Sym → CM Unit
  | [] => return ()
  | var :: vars => do
      cVbind var vars.length specials
      vbindAll specials vars

/-- c_multiple_value_bind. Without variables the value form is not compiled. -/
def cMultipleValueBind (vars : List Sym) (value : Action) (specials : List Sym)
    (body : List Action) : Action := fun flags =>
  match vars with
  | [] => cLocally specials body flags
  | [var] => cLetLeta true [(var, value)] specials body flags
  | vars =>
    cScope do
      let _ ← value .values
      vbindAll specials vars.reverse
      declaredBody specials body flags

/-- The index of the first function is an operand. -/
def asmFirst (first : Bool) (c : Nat) : CM Unit := if first then asmArg c else return ()

/-- The loop of c_labels_flet that compiles the functions. -/
def cFunctions : List (FName × CM Bytecodes) → Bool → CM Unit
  | [], _ => return ()
  | (_, make) :: rest, first => do
      let lambda ← make
      let c ← cRegisterConstant (.code lambda)
      asmFirst first c
      cFunctions rest false

def cRegisterFunctions : List (FName × CM Bytecodes) → CM Unit
  | [] => return ()
  | (name, _) :: rest => do
      cRegisterFunction name
      cRegisterFunctions rest

/-- The functions of c_labels_flet, which LABELS registers before it compiles
them. -/
def labelsFlet (labels : Bool) (functions : List (FName × CM Bytecodes)) : CM Unit :=
  if labels then do
    cRegisterFunctions functions
    asmOp2 .labels functions.length
    cFunctions functions true
  else do
    asmOp2 .flet functions.length
    cFunctions functions true
    cRegisterFunctions functions

def cLabelsFlet (labels : Bool) (functions : List (FName × CM Bytecodes)) (specials : List Sym)
    (body : List Action) : Action := fun flags =>
  if functions.isEmpty then cLocally specials body flags
  else
    cScope do
      labelsFlet labels functions
      cLocally specials body flags

/-- A definition of SYMBOL-MACROLET. -/
def cSymbolMacro (name : Sym) : CM Unit := do
  if name.isSpecial || name.isConstant then .fail (.symbolMacroSpecial name)
  else
    match ← cVarRef name true with
    | .special => .fail (.symbolMacroSpecial name)
    | _ => cRegisterSymbolMacro name

/-- The definitions of a SYMBOL-MACROLET. -/
def cSymbolMacros : List Sym → CM Unit
  | [] => return ()
  | name :: rest => do
      cSymbolMacro name
      cSymbolMacros rest

def cSymbolMacrolet (names specials : List Sym) (body : List Action) : Action := fun flags =>
  cScope do
    cSymbolMacros names
    declaredBody specials body flags

/-- c_setq. A pair without variable assigns through a symbol macro: its form
is the SETF that c_setq builds. -/
def cSetq : List (Option Sym × Action) → Action
  | [], flags => compileNil flags
  | (place, value) :: rest, flags => do
      match place with
      | some var =>
        let _ ← value .reg0
        compileSetq .setq .setqs var
        match rest with
        | [] => return .reg0
        | rest => cSetq rest flags
      | none =>
        match rest with
        | [] =>
          let _ ← value .values
          return .values
        | rest =>
          let _ ← value .reg0
          cSetq rest flags

/-- The loop that assigns the variables of a PSETQ, the last one first. -/
def psetqAll : List Sym → CM Unit
  | [] => return ()
  | var :: vars => do
      compileSetq .psetq .psetqs var
      psetqAll vars

def cPsetq (pairs : List (Sym × Action)) : Action := fun flags => do
  if pairs.isEmpty then compileBody [] flags
  else
    cArguments (pairs.map Prod.snd)
    psetqAll (pairs.map Prod.fst).reverse
    compileNil flags

/-- The later variables of a MULTIPLE-VALUE-SETQ. -/
def vsetqAll : List Sym → Nat → CM Unit
  | [], _ => return ()
  | var :: vars, nvars => do
      compileSetq .vsetq .vsetqs var
      asmArg nvars
      vsetqAll vars (nvars + 1)

def cMultipleValueSetq (vars : List Sym) (value : Action) : Action := fun flags => do
  match vars with
  | [] => compileForm 1 (cValues [value]) flags
  | var :: vars =>
    let _ ← value .values
    compileSetq .setq .setqs var
    vsetqAll vars 1
    return .reg0

/-- The arguments of a MULTIPLE-VALUE-CALL. -/
def pushValuesAll : List Action → Bool → CM Unit
  | [], _ => return ()
  | arg :: args, first => do
      let _ ← arg .values
      asmOp (if first then .pushvalues else .pushmorevalues)
      pushValuesAll args false

def cMultipleValueCall (fn : Designator) (form : Action) (args : List Action) : CM Flag := do
  if args.isEmpty then cFuncall fn []
  else
    let _ ← form .push
    pushValuesAll args true
    asmOp .mcall
    asmOp .pop1
    return .values

def cMultipleValueProg1 (first : Action) (args : List Action) : CM Flag := do
  let _ ← first .values
  if args.isEmpty then return .values
  else
    asmOp .pushvalues
    let _ ← compileBody args .ignore
    asmOp .popvalues
    return .values

def cNot (form : Action) : Action := fun flags => do
  if (maybeReg0 flags).useful then
    let _ ← form .reg0
    asmOp .not
    return maybeReg0 flags
  else form (maybeReg0 flags)

def cNthValue (index values : Action) : CM Flag := do
  let _ ← index .push
  let _ ← values .values
  asmOp .nthval
  return .reg0

def cProg1 (form : Action) (args : List Action) : Action := fun flags => do
  if !flags.useful || flags = .push then
    let flags ← form flags
    let _ ← compileBody args .ignore
    return flags
  else
    let _ ← form .push
    let _ ← compileBody args .ignore
    asmOp .pop
    return .reg0

def cProgv (vars values : Action) (body : List Action) : CM Flag := do
  let _ ← vars .push
  let _ ← values .reg0
  asmOp .progv
  let flags ← compileBody body .values
  asmOp .exitProgv
  return flags

def cCatch (tag : Action) (body : List Action) : CM Flag := do
  let _ ← tag .reg0
  let old ← CM.get
  let labelz ← beginFrame (.fixnum 0) (asmOp .catch) (compileBody body .values)
  endFrame old labelz
  return .values

def cGo (tag : Val) : Action := fun flags => do
  match ← cTagRef (.tag tag) with
  | none => .fail (.unknownTag tag)
  | some (index, number) =>
    asmOp2 .go index
    asmArg number
    return flags

def cReturnAux (name : Option Sym) (form : Action) : CM Flag := do
  match ← cTagRef (.block (blockName name)) with
  | none => .fail (.unknownBlock name)
  | some (index, _) =>
    let _ ← form .values
    asmOp2 .return index
    return .values

def cThrow (tag form : Action) : Action := fun flags => do
  let _ ← tag .push
  let _ ← form .values
  asmOp .throw
  return flags

def cUnwindProtect (form : Action) (args : List Action) : Action := fun flags => do
  let label ← asmJmp .protect
  let flags ← form (maybeValues flags)
  asmOp .protectNormal
  asmComplete (some .protect) label
  let _ ← compileBody args .ignore
  asmOp .protectExit
  return flags

def cCons (first second : Action) : CM Flag := do
  let _ ← first .push
  let _ ← second .reg0
  asmOp .cons
  return .reg0

/-- c_car, c_cdr and c_endp, which differ in the opcode. -/
def cInlined (op : Opcode) (form : Action) : CM Flag := do
  let _ ← form .reg0
  asmOp op
  return .reg0

/-- The arguments of LIST, the last one in REG0. -/
def listArguments : Action → List Action → CM Unit
  | arg, [] => do
      let _ ← arg .reg0
  | arg, next :: rest => do
      let _ ← arg .push
      listArguments next rest

def cListListA (op : Opcode) : List Action → Action
  | [], flags => compileNil flags
  | arg :: args, _ => do
      listArguments arg args
      asmOp2 op (args.length + 1)
      return .reg0

end Ecl.Interp
