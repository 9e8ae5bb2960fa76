import Ecl.Interp.Code

/- The functions of compiler.d. A function that compiles subforms takes their
compilations as arguments: an `Action` is compile_form applied to a form. -/
namespace Ecl.Interp

abbrev Action : Type := Flag → CM Flag

/-- The value of c_var_ref: an index or one of the two negative codes. -/
inductive VarRef where
  | index (n : Nat)
  | special
  | undefined
  deriving DecidableEq

/-- The loop of c_var_ref; `n` counts the run-time records passed. -/
def varRefLoop (var : Name) (allowSymbolMacro : Bool) : List Record → Nat → Option VarRef
  | [], _ => some .undefined
  | record :: rest, n =>
    if record.head = some .kBlock ∨ record.head = some .kTag ∨ record.head = some .kFunction then
      varRefLoop var allowSymbolMacro rest (n + 1)
    else if record.head = some .kDeclare then varRefLoop var allowSymbolMacro rest n
    else if record.head ≠ var then
      varRefLoop var allowSymbolMacro rest (if record.second.null then n + 1 else n)
    else if record.second = .symbolMacro then
      if allowSymbolMacro then some .undefined else none
    else if record.second.null then some (.index n)
    else some .special

def cVarRef (var : Sym) (allowSymbolMacro : Bool) : CM VarRef := fun env =>
  match varRefLoop (some var) allowSymbolMacro env.vars 0 with
  | some ref => .ok ref env
  | none => .error (.symbolMacroAsVariable var) env

/-- What c_tag_ref looks for. -/
inductive Tag where
  | block (name : Val)
  | tag (label : Val)
  | function (name : FName)
  deriving DecidableEq

/-- The test of c_tag_ref on one record: the number of a tag, or zero. -/
def Tag.found : Tag → Record → Option Nat
  | .tag label, ⟨some .kTag, .tags labels, _⟩ =>
    (labels.find? fun entry => entry.1 = label).map (·.2)
  | .block name, ⟨some .kBlock, .obj other, _⟩ => if other = name then some 0 else none
  | .function name, ⟨some .kFunction, .function other, _⟩ => if other = name then some 0 else none
  | _, _ => none

/-- Whether c_tag_ref counts a record. -/
def Record.counted (record : Record) : Bool :=
  record.head = some .kTag || record.head = some .kBlock || record.head = some .kFunction ||
    record.second.null

/-- The loop of c_tag_ref: the run-time index, the number of the tag, and the
records with the one found marked as used. -/
def tagRefLoop (tag : Tag) : List Record → Nat → Option (Nat × Nat × List Record)
  | [], _ => none
  | record :: rest, n =>
    match tag.found record with
    | some number =>
      let marked := match tag with
        | .tag _ => record
        | _ => { record with third := true }
      some (n, number, marked :: rest)
    | none =>
      match tagRefLoop tag rest (if record.counted then n + 1 else n) with
      | some (index, number, rest) => some (index, number, record :: rest)
      | none => none

def cTagRef (tag : Tag) : CM (Option (Nat × Nat)) := fun env =>
  match tagRefLoop tag env.vars 0 with
  | some (index, number, vars) => .ok (some (index, number)) { env with vars := vars }
  | none => .ok none env

def cRegister (record : Record) : CM Unit :=
  .modify fun env => { env with vars := record :: env.vars }

def Record.block (name : Val) : Record := ⟨some .kBlock, .obj name, false⟩

def Record.tags (labels : List (Val × Nat)) : Record := ⟨some .kTag, .tags labels, false⟩

/-- The name is an object where it is read off lex_env. -/
def Record.function (name : Second) : Record := ⟨some .kFunction, name, false⟩

def Record.symbolMacro (name : Sym) : Record := ⟨some name, .symbolMacro, true⟩

def cRegisterBlock (name : Val) : CM Unit := cRegister (.block name)

def cRegisterTags (labels : List (Val × Nat)) : CM Unit := cRegister (.tags labels)

def cRegisterFunction (name : FName) : CM Unit := cRegister (.function (.function name))

def cRegisterSymbolMacro (name : Sym) : CM Unit := cRegister (.symbolMacro name)

/-- The record that c_register_var conses. -/
def Record.variable (var : Name) (special bound : Bool) : Record :=
  ⟨var, if special then .special else .obj .nil, bound⟩

def cRegisterVar (var : Sym) (special bound : Bool) : CM Unit := do
  if bound then cRegister (.variable (some var) special bound)
  else
    match ← cVarRef var false with
    | .special => return ()
    | _ => cRegister (.variable (some var) special bound)

def cDeclaredSpecial (var : Sym) (specials : List Sym) : Bool :=
  var.isSpecial || specials.contains var

/-- c_declare_specials on one variable. -/
def cDeclareSpecial (var : Sym) : CM Unit := do
  match ← cVarRef var false with
  | .special => return ()
  | _ => cRegisterVar var true false

def cDeclareSpecials : List Sym → CM Unit
  | [] => return ()
  | var :: specials => do
      cDeclareSpecial var
      cDeclareSpecials specials

/-- c_pbind and c_bind, which differ in their opcodes. -/
def cBindWith (lexical special : Opcode) (var : Sym) (specials : List Sym) : CM Unit := do
  if cDeclaredSpecial var specials then
    cRegisterVar var true true
    asmOp2c special (.obj (.sym var))
  else
    cRegisterVar var false true
    asmOp2c lexical (.obj (.sym var))

def cPbind : Sym → List Sym → CM Unit := cBindWith .pbind .pbinds

def cBind : Sym → List Sym → CM Unit := cBindWith .bind .binds

/-- The two counters of c_undo_bindings. -/
def undoCounts (onlySpecials : Bool) : List Record → Nat × Nat
  | [] => (0, 0)
  | record :: rest =>
    let (lexical, special) := undoCounts onlySpecials rest
    if record.head = some .kBlock ∨ record.head = some .kTag then (lexical, special)
    else if record.head = some .kFunction ∨ record.second.null then
      (if onlySpecials then lexical else lexical + 1, special)
    else if record.head = some .kDeclare then (lexical, special)
    else if record.second ≠ .symbolMacro ∧ record.third then (lexical, special + 1)
    else (lexical, special)

/-- An instruction that undoes some bindings, if there are any. -/
def asmUndo (op : Opcode) (count : Nat) : CM Unit :=
  if count = 0 then return () else asmOp2 op count

/-- c_undo_bindings. The old list is given by its length. -/
def cUndoBindings (old : Nat) (onlySpecials : Bool) : CM Unit := do
  let env ← CM.get
  let counts := undoCounts onlySpecials (env.vars.take (env.vars.length - old))
  .modify fun env => { env with vars := env.vars.drop (env.vars.length - old) }
  asmUndo .unbind counts.1
  asmUndo .unbinds counts.2

def compileSetq (lexical special : Opcode) (var : Sym) : CM Unit := do
  match ← cVarRef var false with
  | .index n => asmOp2 lexical n
  | _ =>
    if var.isConstant then .fail (.assignmentToConstant var)
    else asmOp2c special (.obj (.sym var))

/-- The end of compile_form, after the label OUTPUT. -/
def output (flags newFlags : Flag) : CM Unit :=
  match flags, newFlags with
  | .push, .reg0 | .push, .values => asmOp .push
  | .push, _ => return ()
  | .values, .reg0 => asmOp .valuereg0
  | _, .push => .fail .internal
  | _, _ => return ()

/-- Notes that compile_form is entered or left here. -/
def mark : CM Unit := .modify fun env => { env with marks := env.vars :: env.marks }

/-- compile_form around the part that depends on the form. -/
def compileForm (increment : Nat) (body : Action) : Action := fun flags => do
  mark
  .modify fun env => { env with level := env.level + increment }
  let newFlags ← body flags
  output flags newFlags
  mark
  return flags

/-- new_flags of an atom. -/
def atomFlags : Flag → Flag
  | .values => .reg0
  | flags => flags

/-- A symbol in compile_form. -/
def cSymbol (name : Sym) : Action := fun flags => do
  match ← cVarRef name false with
  | .index n => asmOp2 (if flags = .push then .pushv else .var) n
  | _ => asmOp2c (if flags = .push then .pushvs else .vars) (.obj (.sym name))
  return atomFlags flags

/-- The label QUOTED of compile_form. -/
def cQuoted (value : Val) : Action := fun flags => do
  if flags.useful then
    match value with
    | .nil => asmOp (if flags = .push then .pushnil else .nil)
    | .fixnum n =>
      if n ≤ maxOparg ∧ -maxOparg ≤ n then asmOp2 (if flags = .push then .pint else .int) n
      else asmOp2c (if flags = .push then .pushq else .quote) (.obj value)
    | _ => asmOp2c (if flags = .push then .pushq else .quote) (.obj value)
  return atomFlags flags

/-- compile_form of NIL. -/
def compileNil : Action := compileForm 0 (cQuoted .nil)

/-- compile_form of T. -/
def compileT : Action := compileForm 0 (cSymbol .t)

/-- The variables after c_env was restored to an older state: marks made on
records that existed before are seen through the old list. -/
def restoreVars (old new : CEnv) : List Record := new.vars.drop (new.vars.length - old.vars.length)

/-- The constants then: asm_constant extends a nonempty list in place. -/
def restoreConstants (old new : CEnv) : List Const :=
  if old.constants.isEmpty then [] else new.constants

/-- eval_form. The code is run before the compilation goes on. -/
def evalForm (form : Action) : CM Unit := fun old =>
  let fresh : CEnv := { old with code := [], marks := [], begun := old.begun || !old.code.isEmpty }
  match (do let _ ← form .values; asmOp .exit : CM Unit) fresh with
  | .ok _ new =>
    .ok () { old with
      vars := restoreVars old new
      constants := restoreConstants old new
      evaluated := new.evaluated ++
        [⟨asmEnd none new.code new.constants, old.begun || !old.code.isEmpty⟩] }
  | .error reason new => .error reason new

/-- The loop of compile_body over a nonempty body. -/
def compileForms (each : Action → CM Unit) : Action → List Action → Action
  | form, [], flags => form flags
  | form, next :: rest, flags => do
      each form
      compileForms each next rest flags

/-- A form compiled for its effects only. -/
def compileIgnored (form : Action) : CM Unit := do
  let _ ← form .ignore

def compileBody : List Action → Action
  | [], flags => compileNil flags
  | form :: rest, flags => do
      let env ← CM.get
      if env.level = 0 then compileForms evalForm form rest flags
      else compileForms compileIgnored form rest flags

end Ecl.Interp
