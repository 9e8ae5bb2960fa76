import Ecl.Interp.AssemblingForms

/- The code of a form or a function is a row of instructions: their constants are in the data
vector, their labels lead to opcodes, and the operands that the assembler tests are read back. -/
namespace Ecl.Interp

open List

/-- The forms inside of a lambda expression assemble. -/
structure LambdaParts.Assembles (parts : LambdaParts) : Prop where
  optional : ∀ param ∈ parts.optional, ∀ flags, Assembling (param.stmt flags)
  keys : ∀ param ∈ parts.keys, ∀ flags, Assembling (param.2.stmt flags)
  aux : ValuesAssemble parts.aux
  body : AllAssemble parts.body

theorem requiredArguments_assembling (specials : List Sym) : ∀ (vars : List Sym),
    Assembling (requiredArguments specials vars)
  | [] => (inferInstance : Assembling (pure () : CM Unit))
  | _ :: vars => by
      have op : Assembling (asmOp .popreq) := asmOp_assembling rfl
      exact .seq op fun _ => .seq inferInstance fun _ => requiredArguments_assembling specials vars

theorem cDefault_assembling {param : Default} (assembling : ∀ flags, Assembling (param.stmt flags))
    (specials : List Sym) : Assembling (cDefault param specials) := by
  have value : Assembling (cDefaultValue param) := by
    refine .seq (assembling .push) fun _ => ?_
    split <;> exact inferInstance
  have flag : Assembling (cBindFlag specials param.flag) := by
    unfold cBindFlag
    split <;> exact inferInstance
  exact .seq (asmSkip_assembling value) fun _ => .seq flag fun _ => inferInstance

theorem defaultArguments_assembling {op : Opcode} (all : op.operands = fun _ => [])
    (specials : List Sym) : ∀ {params : List Default},
    (∀ param ∈ params, ∀ flags, Assembling (param.stmt flags)) →
    Assembling (defaultArguments op specials params)
  | [], _ => (inferInstance : Assembling (pure () : CM Unit))
  | param :: params, assembling =>
    .seq (asmOp_assembling all) fun _ =>
      .seq (cDefault_assembling (assembling param (by simp)) specials) fun _ =>
        defaultArguments_assembling all specials fun other member =>
          assembling other (mem_cons_of_mem param member)

theorem restArgument_assembling (specials : List Sym) (key : Bool) (rest : Option Sym) :
    Assembling (restArgument specials key rest) := by
  have nomore : Assembling (asmOp .nomore) := asmOp_assembling rfl
  have poprest : Assembling (asmOp .poprest) := asmOp_assembling rfl
  unfold restArgument
  split
  · split <;> exact inferInstance
  · exact inferInstance

variable {parts : LambdaParts}

theorem keyArguments_assembling (assembles : parts.Assembles) :
    Assembling (keyArguments parts) := by
  have pushkeys : ∀ c, Assembling (asmOp2c .pushkeys c) := asmOp2c_assembling rfl
  have keys : Assembling (defaultArguments .pop parts.specials (parts.keys.map Prod.snd)) := by
    refine defaultArguments_assembling rfl parts.specials fun param member => ?_
    obtain ⟨key, inside, rfl⟩ := mem_map.mp member
    exact assembles.keys key inside
  unfold keyArguments
  split <;> exact inferInstance

theorem lambdaBody_assembling {actions : List Action} (bodies : AllAssemble actions)
    (name : Option FName) : Assembling (lambdaBody actions name) := by
  cases name with
  | none => exact compileBody_assembling bodies .values
  | some name => exact compileForm_assembling (cBlock_assembling _ bodies) .values

theorem lambdaParameters_assembling (assembles : parts.Assembles) :
    Assembling (lambdaParameters parts) :=
  .seq (requiredArguments_assembling _ _) fun _ =>
    .seq (defaultArguments_assembling rfl _ assembles.optional) fun _ =>
      .seq (restArgument_assembling _ _ _) fun _ =>
        .seq (keyArguments_assembling assembles) fun _ =>
        .seq (letaBindings_assembling _ assembles.aux) fun _ => cDeclareSpecials_assembling _

section

variable (narg : Sym → Option Nat)

theorem translateSpec_apart (spec : FunSpec) : (translateSpec narg spec).Apart := by
  cases spec with
  | name name => trivial
  | lambda lambda => exact eclMakeLambda_aside none (lambdaParts narg lambda)
  | lambdaBlock name lambda => exact eclMakeLambda_aside (some name) (lambdaParts narg lambda)

theorem translateOperator_apart {fn : Form} {operator : Operator}
    (found : translateOperator narg fn = some operator) : operator.Apart := by
  cases fn with
  | function spec | quoteSpec spec =>
    cases found
    exact translateSpec_apart narg spec
  | _ => cases found

theorem designator_assembles {fn : Form}
    (assembling : ∀ flags, Assembling (translate narg fn flags)) :
    (designator fn (translate narg fn) (translateOperator narg fn)).Assembles := by
  cases found : translateOperator narg fn with
  | some operator =>
    cases fn with
    | quoteSpec spec value => exact translateOperator_apart narg found
    | _ => exact translateOperator_apart narg found
  | none =>
    cases fn with
    | quote value => trivial
    | _ => exact assembling

theorem translateFunctions_aside : ∀ (functions : List (FName × Lambda)),
    AllAside (translateFunctions narg functions)
  | [], _, member => by cases member
  | (name, lambda) :: rest, function, member => by
      rcases mem_cons.mp member with rfl | member
      · exact eclMakeLambda_aside (some name) (lambdaParts narg lambda)
      · exact translateFunctions_aside rest function member

mutual

theorem translate_assembling : ∀ (form : Form) flags, Assembling (translate narg form flags)
  | .const _ => compileForm_assembling inferInstance
  | .quote _ | .quoteSpec _ _ => compileForm_assembling inferInstance
  | .var _ => compileForm_assembling inferInstance
  | .expand form => translate_assembling form
  | .block name body => compileForm_assembling (cBlock_assembling name (translateAll_assemble body))
  | .case key clauses =>
    compileForm_assembling
      (cCase_assembling (translate_assembling key) (translateCases_assemble clauses))
  | .catch tag body =>
    compileForm_assembling fun _ =>
      cCatch_assembling (translate_assembling tag) (translateAll_assemble body)
  | .compilerLet body =>
      compileForm_assembling (compileBody_assembling (translateAll_assemble body))
  | .cond clauses => compileForm_assembling (cCond_assembling (translateClauses_assemble clauses))
  | .evalWhen execute body => by
      cases execute with
      | true => exact compileForm_assembling (compileBody_assembling (translateAll_assemble body))
      | false =>
        exact compileForm_assembling (compileBody_assembling fun action member => by cases member)
  | .flet labels functions specials body =>
    compileForm_assembling
      (cLabelsFlet_assembling labels (translateFunctions_aside narg functions) specials
        (translateAll_assemble body))
  | .function spec =>
    compileForm_assembling fun _ => asmFunction_assembling (translateSpec_apart narg spec)
  | .funcall fn args =>
    compileForm_assembling fun _ =>
      cFuncall_assembling (designator_assembles narg (translate_assembling fn))
        (translateAll_assemble args)
  | .go _ => compileForm_assembling inferInstance
  | .ifThen test yes =>
    compileForm_assembling (cIf_assembling (translate_assembling test) (translate_assembling yes)
      fun actions member => by cases member)
  | .ifElse test yes no =>
    compileForm_assembling (cIf_assembling (translate_assembling test) (translate_assembling yes)
      fun actions member => by cases member; exact translateAll_assemble no)
  | .letBind star bindings specials body =>
    compileForm_assembling (cLetLeta_assembling star (translateBindings_assemble bindings) specials
      (translateAll_assemble body))
  | .locally specials body =>
    compileForm_assembling (cLocally_assembling specials (translateAll_assemble body))
  | .loadTimeValue form =>
    compileForm_assembling (cValues_assembling
      (forall_mem_singleton.mpr (translate_assembling form)))
  | .macrolet specials body =>
    compileForm_assembling (cLocally_assembling specials (translateAll_assemble body))
  | .multipleValueBind vars value specials body =>
    compileForm_assembling (cMultipleValueBind_assembling vars (translate_assembling value)
      specials (translateAll_assemble body))
  | .multipleValueCall fn args =>
    compileForm_assembling fun _ =>
      cMultipleValueCall_assembling (designator_assembles narg (translate_assembling fn))
        (translate_assembling fn) (translateAll_assemble args)
  | .multipleValueProg1 first rest =>
    compileForm_assembling fun _ =>
      cMultipleValueProg1_assembling (translate_assembling first) (translateAll_assemble rest)
  | .multipleValueSetq vars value =>
    compileForm_assembling (cMultipleValueSetq_assembling vars (translate_assembling value))
  | .not form => compileForm_assembling (cNot_assembling (translate_assembling form))
  | .nthValue index values =>
    compileForm_assembling fun _ =>
      cNthValue_assembling (translate_assembling index) (translate_assembling values)
  | .progn body => compileForm_assembling (compileBody_assembling (translateAll_assemble body))
  | .prog1 first rest =>
    compileForm_assembling
      (cProg1_assembling (translate_assembling first) (translateAll_assemble rest))
  | .progv vars values body =>
    compileForm_assembling fun _ =>
      cProgv_assembling (translate_assembling vars) (translate_assembling values)
        (translateAll_assemble body)
  | .psetq pairs => compileForm_assembling (cPsetq_assembling (translateBindings_assemble pairs))
  | .returnFrom name output =>
    compileForm_assembling fun _ => cReturnAux_assembling name (translate_assembling output)
  | .setq pairs =>
    compileForm_assembling fun flags => cSetq_assembling flags (translatePairs_assemble pairs)
  | .symbolMacrolet names specials body =>
    compileForm_assembling
      (cSymbolMacrolet_assembling names specials (translateAll_assemble body))
  | .tagbody items => compileForm_assembling (cTagbody_assembling (translateItems_assemble items))
  | .throw tag form =>
    compileForm_assembling
      (cThrow_assembling (translate_assembling tag) (translate_assembling form))
  | .unwindProtect form cleanup =>
    compileForm_assembling
      (cUnwindProtect_assembling (translate_assembling form) (translateAll_assemble cleanup))
  | .values forms => compileForm_assembling (cValues_assembling (translateAll_assemble forms))
  | .whileUntil isWhile test body =>
    compileForm_assembling
      (cWhileUntil_assembling isWhile (translate_assembling test) (translateItems_assemble body))
  | .cons car cdr =>
    compileForm_assembling fun _ =>
      cCons_assembling (translate_assembling car) (translate_assembling cdr)
  | .car form => compileForm_assembling fun _ => cInlined_assembling rfl (translate_assembling form)
  | .cdr form => compileForm_assembling fun _ => cInlined_assembling rfl (translate_assembling form)
  | .list star forms => by
      cases star with
      | true =>
          exact compileForm_assembling (cListListA_assembling rfl (translateAll_assemble forms))
      | false =>
          exact compileForm_assembling (cListListA_assembling rfl (translateAll_assemble forms))
  | .endp form => compileForm_assembling fun _ =>
      cInlined_assembling rfl (translate_assembling form)
  | .call spec args =>
    compileForm_assembling fun _ =>
      cOrdinaryCall_assembling narg (translateSpec_apart narg spec) (translateAll_assemble args)

theorem translateAll_assemble : ∀ (forms : List Form), AllAssemble (translateAll narg forms)
  | [] => fun _ member => by cases member
  | form :: forms =>
    forall_mem_cons.mpr ⟨translate_assembling form, translateAll_assemble forms⟩

theorem translateCases_assemble : ∀ (clauses : List (CaseTest × List Form)),
    ∀ clause ∈ translateCases narg clauses, AllAssemble clause.2
  | [] => fun _ member => by cases member
  | (_, body) :: rest =>
    forall_mem_cons.mpr ⟨translateAll_assemble body, translateCases_assemble rest⟩

theorem translateClauses_assemble : ∀ (clauses : List (Form × List Form)),
    ∀ clause ∈ translateClauses narg clauses, clause.Assembles
  | [] => fun _ member => by cases member
  | (test, body) :: rest =>
    forall_mem_cons.mpr ⟨⟨translate_assembling test, translateAll_assemble body⟩,
      translateClauses_assemble rest⟩

theorem translateBindings_assemble : ∀ (bindings : List (Sym × Form)),
    ValuesAssemble (translateBindings narg bindings)
  | [] => fun _ member => by cases member
  | (_, form) :: rest =>
    forall_mem_cons.mpr ⟨translate_assembling form, translateBindings_assemble rest⟩

theorem translatePairs_assemble : ∀ (pairs : List (Option Sym × Form)),
    PairsAssemble (translatePairs narg pairs)
  | [] => fun _ member => by cases member
  | (_, form) :: rest =>
    forall_mem_cons.mpr ⟨translate_assembling form, translatePairs_assemble rest⟩

theorem translateItems_assemble : ∀ (items : List (Val ⊕ Form)),
    ItemsAssemble (translateItems narg items)
  | [] => fun _ _ member => by cases member
  | .inl _ :: rest => fun action flags member => by
      rcases mem_cons.mp member with same | member
      · cases same
      · exact translateItems_assemble rest action flags member
  | .inr form :: rest => fun action flags member => by
      rcases mem_cons.mp member with same | member
      · cases same
        exact translate_assembling form flags
      · exact translateItems_assemble rest action flags member

end

theorem translateDefaults_assemble : ∀ (params : List (Sym × Form × Option Sym)),
    ∀ param ∈ translateDefaults narg params, ∀ flags, Assembling (param.stmt flags)
  | [] => fun _ member => by cases member
  | (_, stmt, _) :: rest =>
    forall_mem_cons.mpr ⟨translate_assembling narg stmt, translateDefaults_assemble rest⟩

theorem translateKeys_assemble : ∀ (params : List (Sym × Sym × Form × Option Sym)),
    ∀ param ∈ translateKeys narg params, ∀ flags, Assembling (param.2.stmt flags)
  | [] => fun _ member => by cases member
  | (_, _, stmt, _) :: rest =>
    forall_mem_cons.mpr ⟨translate_assembling narg stmt, translateKeys_assemble rest⟩

theorem lambdaParts_assembles (lambda : Lambda) : (lambdaParts narg lambda).Assembles := by
  obtain ⟨required, optional, rest, key, keys, allowOtherKeys, aux, doc, decls, specials, body⟩ :=
    lambda
  exact ⟨translateDefaults_assemble narg optional, translateKeys_assemble narg keys,
    translateBindings_assemble narg aux, translateAll_assemble narg body⟩

end

/-- What is compiled between asm_begin and asm_end. -/
inductive Source where
  | form (form : Form)
  | function (name : Option FName) (lambda : Lambda)

/-- The words and constants that asm_end takes: those of a form to be run, as in
si::eval-with-env and eval_form, or those of a function, as in ecl_make_lambda. -/
def assemble (narg : Sym → Option Nat) : Source → CEnv → CResult Unit
  | .form form, env =>
    (do let _ ← translate narg form .values; asmOp .exit : CM Unit)
      { env with code := [], marks := [] }
  | .function name lambda, env =>
    lambdaCode name (lambdaParts narg lambda) env.vars.length
      { env with code := [], marks := [], constants := [], level := env.level + 1 }

variable {bytecodes : Bytecodes}

theorem eclMakeLambda_code {name : Option FName} {st st' : CEnv}
    (ok : eclMakeLambda name parts st = .ok bytecodes st') :
    ∃ r new, lambdaCode name parts st.vars.length
        { st with code := [], marks := [], constants := [], level := st.level + 1 } = .ok r new ∧
      bytecodes = asmEnd name new.code new.constants := by
  unfold eclMakeLambda at ok
  split at ok
  · cases ok
  · dsimp only at ok
    split at ok
    · rename_i code
      cases ok
      exact ⟨_, _, code, rfl⟩
    · cases ok

variable {narg : Sym → Option Nat}

theorem eclMakeLambda_assemble {name : Option FName} {lambda : Lambda} {env env' : CEnv}
    (ok : eclMakeLambda name (lambdaParts narg lambda) env = .ok bytecodes env') :
    ∃ new, assemble narg (.function name lambda) env = .ok () new ∧
      bytecodes = asmEnd name new.code new.constants := by
  obtain ⟨_, new, code, same⟩ := eclMakeLambda_code ok
  exact ⟨new, code, same⟩

theorem evalWithEnv_assemble {form : Form} {env' : CEnv}
    (ok : evalWithEnv narg form .toplevel = .ok bytecodes env') :
    ∃ new, assemble narg (.form form) .toplevel = .ok () new ∧
      bytecodes = asmEnd none new.code new.constants := by
  simp only [evalWithEnv, CM.bind_eq_ok, CM.pure_eq_ok, CM.get_eq_ok] at ok
  obtain ⟨flags, st₁, okForm, _, st₂, okExit, env, st₃, ⟨rfl, rfl⟩, rfl, -⟩ := ok
  exact ⟨st₂, CM.bind_eq_ok.mpr ⟨flags, st₁, okForm, okExit⟩, rfl⟩

/-- The word that GET_OPARG and GET_OPCODE find at a place. -/
def Bytecodes.cell (bytecodes : Bytecodes) (pc : Nat) : Option Cell :=
  (bytecodes.code[pc]?).map Word.cell

theorem asmEnd_cell (st : CEnv) (pc : Nat) :
    (asmEnd none st.code st.constants).cell pc = (st.cells[pc]?).map Cell.opcode := by
  simp only [Bytecodes.cell, asmEnd, Bytecodes.code, CEnv.cells, List.getElem?_map]
  cases st.code[pc]? <;> rfl

/-- The instruction at a place, with the operands that the compiler passed to the assembler. -/
structure Instruction (passed : List Cell) (bytecodes : Bytecodes) (pc : Nat) (op : Opcode)
    (ns : List Int) : Prop where
  passed : ns.map Cell.arg <+: passed.drop (pc + 1)
  length : ns.length = (op.operands ns).length
  opcode : bytecodes.cell pc = some (.op op)
  constants : ∀ (j : Nat) n, (op.operands ns)[j]? = some .constant → ns[j]? = some n →
    0 ≤ n ∧ n < bytecodes.data.length
  functions : ∀ (j : Nat) n, (op.operands ns)[j]? = some .functions → ns[j]? = some n →
    0 ≤ n ∧ n + ns.headD 0 ≤ bytecodes.data.length
  labels : ∀ (j : Nat) n, (op.operands ns)[j]? = some .label → ns[j]? = some n →
    ∃ (target : Nat) (op' : Opcode), ((pc + 1 + j : Nat) : Int) + n = target ∧
      bytecodes.cell target = some (.op op')

/-- Compilation signals an error, or every opcode is followed by its operands, and those that the
assembler tests are read as they were passed to it. -/
def InstructionLaw : CResult Unit → Prop
  | .error _ _ => True
  | .ok _ st => ∀ (pc : Nat) op, st.cells[pc]? = some (.op op) →
      ∃ ns, Instruction st.cells (asmEnd none st.code st.constants) pc op ns ∧
        ∀ (j : Nat) n, ns[j]? = some n → op.unchecked j = false →
          (asmEnd none st.code st.constants).cell (pc + 1 + j) = some (.arg n)

theorem assemble_formed {source : Source} {env st : CEnv}
    (ok : assemble narg source env = .ok () st) :
    ∃ body, st.cells = body ++ [.op .exit] ∧ Formed st.constants.length body := by
  cases source with
  | form form =>
    obtain ⟨flags, st₁, okForm, okExit⟩ := CM.bind_eq_ok.mp ok
    obtain ⟨-, body, cells, formed⟩ := (translate_assembling narg form .values).adds okForm
    obtain rfl := CM.modify_eq_ok.mp okExit
    have cells' : st₁.code.map Word.cell = body := cells
    exact ⟨body, by simp [CEnv.cells, cells'], formed⟩
  | function name lambda =>
    have parts := lambdaParts_assembles narg lambda
    simp only [assemble, lambdaCode, CM.bind_eq_ok] at ok
    obtain ⟨_, st₁, okEnter, _, st₂, okParameters, _, st₃, okBody, _, st₄, okUndo, okExit⟩ := ok
    obtain rfl := CM.modify_eq_ok.mp okEnter
    obtain rfl := CM.modify_eq_ok.mp okExit
    have undo : Adds st₃ st₄ := Assembling.adds okUndo
    have parameters := (lambdaParameters_assembling parts).adds okParameters
    have inner := (lambdaBody_assembling parts.body name).adds okBody
    obtain ⟨-, body, cells, formed⟩ := (parameters.trans inner).trans undo
    have cells' : st₄.code.map Word.cell = body := cells
    exact ⟨body, by simp [CEnv.cells, cells'], formed⟩

theorem Boundary.opcode {st : CEnv} {body : List Cell} (cells : st.cells = body ++ [.op .exit])
    {place : Int} (boundary : Boundary body place) : ∃ (target : Nat) (op : Opcode),
      place = target ∧ (asmEnd none st.code st.constants).cell target = some (.op op) := by
  obtain ⟨pc, rfl, rfl | ⟨op, found⟩⟩ := boundary
  · exact ⟨body.length, .exit, rfl, by simp [asmEnd_cell, cells, Cell.opcode]⟩
  · have bound := (List.getElem?_eq_some_iff.mp found).1
    refine ⟨pc, op, rfl, ?_⟩
    rw [asmEnd_cell, cells, List.getElem?_append_left bound, found]
    rfl

theorem cell_of_operands {cells : List Cell} {pc j : Nat} {ns : List Int} {n : Int}
    (operands : ns.map Cell.arg <+: cells.drop (pc + 1)) (found : ns[j]? = some n) :
    cells[pc + 1 + j]? = some (.arg n) := by
  have bound := (List.getElem?_eq_some_iff.mp found).1
  obtain ⟨rest, same⟩ := operands
  rw [← List.getElem?_drop, ← same, List.getElem?_append_left (by simpa using bound),
    List.getElem?_map, found]
  rfl

theorem instructionLaw (narg : Sym → Option Nat) (source : Source) (env : CEnv) :
    InstructionLaw (assemble narg source env) := by
  cases ok : assemble narg source env with
  | error reason st => trivial
  | ok _ st =>
    obtain ⟨body, cells, formed⟩ := assemble_formed ok
    intro pc op at_pc
    have opcode : (asmEnd none st.code st.constants).cell pc = some (.op op) := by
      rw [asmEnd_cell, at_pc]
      rfl
    by_cases inside : pc < body.length
    · have found := at_pc
      rw [cells, List.getElem?_append_left inside] at found
      obtain ⟨ns, operands, whole, leads, -⟩ := formed.inside pc op found
      have passed : ns.map Cell.arg <+: st.cells.drop (pc + 1) := by
        rw [cells, drop_append_of_le_length (by omega)]
        exact operands.trans (prefix_append _ _)
      refine ⟨ns, ⟨passed, whole.length, opcode, whole.constant, whole.functions,
        fun j n kind at_j => ?_⟩, fun j n at_j checked => ?_⟩
      · have target := leads j n kind at_j
        rw [Nat.zero_add] at target
        exact target.opcode cells
      · rw [asmEnd_cell, cell_of_operands passed at_j]
        simp [Cell.opcode, bmod_eq_iff.mpr (whole.checked j n at_j checked)]
    · have last : pc = body.length := by
        have := (List.getElem?_eq_some_iff.mp at_pc).1
        rw [cells, length_append, length_singleton] at this
        omega
      subst last
      have exit : op = .exit := by
        rw [cells] at at_pc
        simpa using at_pc.symm
      subst exit
      exact ⟨[], ⟨by simp, rfl, opcode, by simp, by simp, by simp⟩, by simp⟩

end Ecl.Interp
