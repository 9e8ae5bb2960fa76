import Ecl.Interp.Syntax

/- Bytecodes, as bytecodes.h and the assembler of compiler.d define them. -/
namespace Ecl.Interp

inductive Opcode where
  | nop | quote | var | vars | cons | car | cdr | list | listA | int | pint | push | pushv
  | pushvs | pushq | callg1 | callg2 | call | callg | fcall | mcall | pop | pop1 | popreq
  | popopt | nomore | poprest | pushkeys | exit | flet | labels | lfunction | function | close
  | go | return | throw | jmp | jnil | jt | jeql | jneql | endp | not | unbind | unbinds | bind
  | pbind | vbind | binds | pbinds | vbinds | setq | psetq | vsetq | setqs | psetqs | vsetqs
  | block | do | catch | frame | tagbody | exitTagbody | exitFrame | nil | pushnil | valuereg0
  | pushvalues | pushmorevalues | popvalues | values | nthval | protect | protectNormal
  | protectExit | progv | exitProgv
  deriving DecidableEq

/-- The second element of a record of c_env->variables: an object, the symbol
SPECIAL, the symbol SI::SYMBOL-MACRO, or the list of the tags of a TAGBODY. -/
inductive Second where
  | obj (value : Val)
  | function (name : FName)
  | special
  | symbolMacro
  | tags (labels : List (Val × Nat))
  deriving DecidableEq

/-- Null(CADR(record)). -/
def Second.null : Second → Bool
  | .obj .nil => true
  | .tags [] => true
  | _ => false

/-- A symbol, with `none` for NIL. -/
abbrev Name : Type := Option Sym

def Name.object : Name → Val
  | none => .nil
  | some s => .sym s

/-- A keyword that heads the records of c_env->variables which are not variables. -/
def Name.reserved (name : Name) : Bool := name.any Sym.reserved

/-- A record of c_env->variables: its first two elements, and the third one as
a truth value, which is `used-p` for blocks and functions and `bound-p` for
variables. -/
structure Record where
  head : Name
  second : Second
  third : Bool
  deriving DecidableEq

/-- What one word of code holds: an opcode or an operand. -/
inductive Cell where
  | op (code : Opcode)
  | arg (value : Int)
  deriving DecidableEq

/-- A word of code. `marks` is not part of the program: it keeps the lists
c_env->variables with which compile_form was entered or left at this place. -/
structure Word where
  cell : Cell
  marks : List (List Record)
  deriving DecidableEq

mutual

/-- The data vector holds objects, functions and the lists that OP_PUSHKEYS
reads. -/
inductive Const where
  | obj (value : Val)
  | setfName (name : Sym)
  | code (bytecodes : Bytecodes)
  | keys (allowOtherKeys : Bool) (names : List Val)

inductive Bytecodes where
  | mk (name : Option FName) (code : List Word) (data : List Const)

end

namespace Bytecodes

def code : Bytecodes → List Word
  | mk _ code _ => code

def data : Bytecodes → List Const
  | mk _ _ data => data

end Bytecodes

/-- ecl_eql of two constants. Names (SETF f), functions and key lists are new
objects, equal to no other. -/
def Const.eql : Const → Const → Bool
  | .obj a, .obj b => a = b
  | _, _ => false

/-- A function name as a constant. -/
def FName.const : FName → Const
  | .plain name => .obj (.sym name)
  | .setf name => .setfName name

/-- Where compile_form leaves a value: FLAG_PUSH, FLAG_VALUES, FLAG_REG0 and
FLAG_IGNORE. The code never combines two of them. -/
inductive Flag where
  | push
  | values
  | reg0
  | ignore
  deriving DecidableEq

def Flag.useful : Flag → Bool
  | .ignore => false
  | _ => true

def maybeValuesOrReg0 : Flag → Flag
  | .push => .values
  | flag => flag

def maybeValues : Flag → Flag
  | .ignore => .ignore
  | _ => .values

def maybeReg0 : Flag → Flag
  | .ignore => .ignore
  | _ => .reg0


inductive CompileError where
  | argumentTooLarge
  | nonMatchingCodes
  | tooLargeJump
  | symbolMacroAsVariable (name : Sym)
  | assignmentToConstant (name : Sym)
  | unknownTag (tag : Val)
  | unknownBlock (name : Option Sym)
  | invalidFunction
  | illegalVariable (name : Sym)
  | illegalLambdaList
  | symbolMacroSpecial (name : Sym)
  | internal
  deriving DecidableEq

def CompileError.text : CompileError → String
  | .argumentTooLarge => "Argument to bytecode is too large"
  | .nonMatchingCodes => "Non matching codes in ASM-COMPLETE2"
  | .tooLargeJump => "Too large jump"
  | .symbolMacroAsVariable _ => "Internal error: symbol macro ~S used as variable"
  | .assignmentToConstant _ => "SETQ: Tried to assign a value to the constant ~S."
  | .unknownTag _ => "GO: Unknown tag ~S."
  | .unknownBlock _ => "RETURN-FROM: Unknown block name ~S."
  | .invalidFunction => "FUNCTION: Not a valid argument ~S."
  | .illegalVariable _ => "Not a valid variable name ~S."
  | .illegalLambdaList => "LAMBDA: Illegal lambda list ~S."
  | .symbolMacroSpecial _ =>
    "SYMBOL-MACROLET: Symbol ~A cannot be declared special and appear in a symbol-macrolet."
  | .internal => "Internal error in bytecodes compiler"

/-- A form run by eval_form, with whether the code it interrupts had begun. -/
structure Evaluated where
  code : Bytecodes
  emitted : Bool

/-- The part of cl_compiler_env that decides the code, with the words that the
assembler has pushed since asm_begin. `marks` are those of the next word, and
`begun` tells whether an enclosing assembly has emitted code. -/
structure CEnv where
  code : List Word
  marks : List (List Record)
  vars : List Record
  constants : List Const
  level : Nat
  evaluated : List Evaluated
  begun : Bool

inductive CResult (α : Type) where
  | ok (value : α) (env : CEnv)
  | error (reason : CompileError) (env : CEnv)

/-- A function of the compiler. -/
def CM (α : Type) : Type := CEnv → CResult α

namespace CM

def pure {α : Type} (value : α) : CM α := fun env => .ok value env

def bind {α β : Type} (first : CM α) (next : α → CM β) : CM β := fun env =>
  match first env with
  | .ok value env => next value env
  | .error reason env => .error reason env

instance : Monad CM where
  pure := CM.pure
  bind := CM.bind

def fail {α : Type} (reason : CompileError) : CM α := fun env => .error reason env

def get : CM CEnv := fun env => .ok env env

def modify (change : CEnv → CEnv) : CM Unit := fun env => .ok () (change env)

end CM

def maxOparg : Int := 0x7FFF

def asmOp (code : Opcode) : CM Unit :=
  .modify fun env => { env with code := env.code ++ [⟨.op code, env.marks⟩], marks := [] }

/-- asm_arg, which pushes any integer. -/
def asmArg (n : Int) : CM Unit :=
  .modify fun env => { env with code := env.code ++ [⟨.arg n, env.marks⟩], marks := [] }

/-- The cast to cl_opcode, an int16_t. -/
def Cell.opcode : Cell → Cell
  | .op code => .op code
  | .arg n => .arg (n.bmod 0x10000)

/-- asm_end: the code vector made of the words pushed since asm_begin. -/
def asmEnd (name : Option FName) (code : List Word) (data : List Const) : Bytecodes :=
  .mk name (code.map fun word => { word with cell := word.cell.opcode }) data

def asmOp2 (code : Opcode) (n : Int) : CM Unit := fun env =>
  if n < -maxOparg ∨ maxOparg < n then .error .argumentTooLarge env
  else (do asmOp code; asmArg n : CM Unit) env

/-- c_register_constant, with c_env->coalesce set. -/
def cRegisterConstant (c : Const) : CM Nat := fun env =>
  match env.constants.findIdx? (fun other => other.eql c) with
  | some n => .ok n env
  | none => .ok env.constants.length { env with constants := env.constants ++ [c] }

def asmC (c : Const) : CM Unit := do
  let n ← cRegisterConstant c
  asmArg n

def asmOp2c (code : Opcode) (c : Const) : CM Unit := do
  let n ← cRegisterConstant c
  asmOp2 code n

def currentPc : CM Nat := fun env => .ok env.code.length env

/-- asm_jmp: the place of the operand to be completed. -/
def asmJmp (code : Opcode) : CM Nat := do
  asmOp code
  let output ← currentPc
  asmArg 0
  return output

/-- asm_complete. `op` is the opcode that must stand before the operand. -/
def asmComplete (op : Option Opcode) (pc : Nat) : CM Unit := fun env =>
  let delta : Int := (env.code.length : Int) - pc
  if op.any fun code => (env.code[pc - 1]?).map Word.cell != some (.op code) then
    .error .nonMatchingCodes env
  else if delta < -maxOparg ∨ maxOparg < delta then .error .tooLargeJump env
  else
    .ok () { env with code := env.code.modify pc fun word => { word with cell := .arg delta } }

end Ecl.Interp
