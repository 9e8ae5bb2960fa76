import Ecl.Interp.AssemblingJumps

/- Every function of the compiler adds whole instructions. -/
namespace Ecl.Interp

open List

variable {α : Type}

/-- Forms that add whole instructions, wherever their value goes. -/
abbrev AllAssemble (actions : List Action) : Prop :=
  ∀ action ∈ actions, ∀ flags, Assembling (action flags)

theorem modify_assembling {change : CEnv → CEnv}
    (same : ∀ env, (change env).code = env.code ∧ (change env).constants = env.constants) :
    Assembling (CM.modify change) := .of_same fun {st r st'} ok => by
  obtain rfl := CM.modify_eq_ok.mp ok
  exact ⟨(same st).1, Nat.le_of_eq (by rw [(same st).2])⟩

variable {op : Opcode}

theorem asmOp_assembling (all : op.operands = fun _ => []) :
    Assembling (asmOp op) := (asmOp_emitting op).assembling all rfl

theorem asmOp2_assembling (all : op.operands = fun _ => [.integer]) (n : Int) :
    Assembling (asmOp2 op n) := (asmOp2_emitting op n).assembling all rfl

theorem asmOp2c_assembling (all : op.operands = fun _ => [.constant]) (c : Const) :
    Assembling (asmOp2c op c) := (asmOp2c_emitting op c).assembling all rfl

theorem asmUndo_assembling (all : op.operands = fun _ => [.integer]) (count : Nat) :
    Assembling (asmUndo op count) := by
  unfold asmUndo
  split
  · exact inferInstance
  · exact asmOp2_assembling all _

instance (old : Nat) (onlySpecials : Bool) : Assembling (cUndoBindings old onlySpecials) := by
  have vars : ∀ env : CEnv, Assembling (CM.modify fun env =>
      { env with vars := env.vars.drop (env.vars.length - old) }) := fun _ =>
    modify_assembling fun _ => ⟨rfl, rfl⟩
  exact .seq inferInstance fun env => .seq (vars env) fun _ =>
    .seq (asmUndo_assembling rfl _) fun _ => asmUndo_assembling rfl _

theorem compileSetq_assembling {lexical special : Opcode}
    (index : lexical.operands = fun _ => [.integer])
    (symbol : special.operands = fun _ => [.constant]) (var : Sym) :
    Assembling (compileSetq lexical special var) := by
  refine .seq inferInstance fun ref => ?_
  cases ref with
  | index n => exact asmOp2_assembling index _
  | _ =>
    dsimp only
    split
    · exact inferInstance
    · exact asmOp2c_assembling symbol _

instance (flags newFlags : Flag) : Assembling (output flags newFlags) := by
  have push : Assembling (asmOp .push) := asmOp_assembling rfl
  have valuereg0 : Assembling (asmOp .valuereg0) := asmOp_assembling rfl
  unfold output
  split <;> exact inferInstance

theorem compileForm_assembling {increment : Nat} {body : Action}
    (assembling : ∀ flags, Assembling (body flags)) (flags : Flag) :
    Assembling (compileForm increment body flags) := by
  have level :
    Assembling (CM.modify fun env : CEnv => { env with level := env.level + increment }) :=
    modify_assembling fun _ => ⟨rfl, rfl⟩
  have := assembling flags
  unfold compileForm
  exact inferInstance

instance (name : Sym) (flags : Flag) : Assembling (cSymbol name flags) := by
  have index : ∀ n : Int, Assembling (asmOp2 (if flags = .push then .pushv else .var) n) := by
    intro n
    split <;> exact asmOp2_assembling rfl n
  have symbol : ∀ c, Assembling (asmOp2c (if flags = .push then .pushvs else .vars) c) := by
    intro c
    split <;> exact asmOp2c_assembling rfl c
  refine .seq inferInstance fun ref => ?_
  cases ref <;> exact inferInstance

instance (value : Val) (flags : Flag) : Assembling (cQuoted value flags) := by
  have nil : Assembling (asmOp (if flags = .push then .pushnil else .nil)) := by
    split <;> exact asmOp_assembling rfl
  have small : ∀ n : Int, Assembling (asmOp2 (if flags = .push then .pint else .int) n) := by
    intro n
    split <;> exact asmOp2_assembling rfl n
  have object : ∀ c, Assembling (asmOp2c (if flags = .push then .pushq else .quote) c) := by
    intro c
    split <;> exact asmOp2c_assembling rfl c
  unfold cQuoted
  split
  · split
    · exact inferInstance
    · split <;> exact inferInstance
    · exact inferInstance
  · exact inferInstance

instance (flags : Flag) :
    Assembling (compileNil flags) := compileForm_assembling inferInstance flags

instance (flags : Flag) : Assembling (compileT flags) := compileForm_assembling inferInstance flags

variable {form : Action}

theorem evalForm_assembling (assembling : ∀ flags, Assembling (form flags)) :
    Assembling (evalForm form) := .of_same fun {st r st'} ok => by
  have exit : Assembling (asmOp .exit) := asmOp_assembling rfl
  have code : Assembling (do let _ ← form .values; asmOp .exit : CM Unit) :=
    .seq (assembling .values) fun _ => exit
  unfold evalForm at ok
  dsimp only at ok
  split at ok
  · rename_i run
    cases ok
    refine ⟨rfl, ?_⟩
    unfold restoreConstants
    split
    · rename_i empty
      simp [isEmpty_iff.mp empty]
    · exact (code.adds run).1
  · cases ok

theorem compileForms_assembling {each : Action → CM Unit}
    (run : ∀ action : Action, (∀ flags, Assembling (action flags)) → Assembling (each action))
    (flags : Flag) {rest : List Action} : ∀ {form : Action}, AllAssemble (form :: rest) →
    Assembling (compileForms each form rest flags) := by
  induction rest with
  | nil =>
    intro form assembling
    exact assembling form (by simp) flags
  | cons next rest ih =>
    intro form assembling
    exact .seq (run form (assembling form (by simp))) fun _ =>
      ih fun action member => assembling action (mem_cons_of_mem _ member)

variable {actions : List Action}

theorem compileBody_assembling (assembling : AllAssemble actions)
    (flags : Flag) : Assembling (compileBody actions flags) := by
  cases actions with
  | nil => exact (inferInstance : Assembling (compileNil flags))
  | cons form rest =>
    refine .seq inferInstance fun env => ?_
    split
    · exact compileForms_assembling (fun _ => evalForm_assembling) flags assembling
    · refine compileForms_assembling (fun action each => ?_) flags assembling
      have := each .ignore
      unfold compileIgnored
      exact inferInstance

theorem cArguments_assembling : ∀ {actions : List Action}, AllAssemble actions →
    Assembling (cArguments actions)
  | [], _ => (inferInstance : Assembling (pure () : CM Unit))
  | action :: actions, assembling =>
    .seq (assembling action (by simp) .push) fun _ =>
      cArguments_assembling fun other member =>
        assembling other (mem_cons_of_mem _ member)

/-- Compiling a function adds nothing to the code around it. -/
structure Aside (make : CM Bytecodes) : Prop where
  same : ∀ {st : CEnv} {r : Bytecodes} {st' : CEnv}, make st = .ok r st' →
    st'.code = st.code ∧ st'.constants = st.constants

theorem Aside.assembling {make : CM Bytecodes} (aside : Aside make) : Assembling make :=
  .of_same fun ok => ⟨(aside.same ok).1, Nat.le_of_eq (by rw [(aside.same ok).2])⟩

theorem eclMakeLambda_aside (name : Option FName) (parts : LambdaParts) :
    Aside (eclMakeLambda name parts) where
  same ok := by
    unfold eclMakeLambda at ok
    split at ok
    · cases ok
    · dsimp only at ok
      split at ok
      · cases ok
        exact ⟨rfl, rfl⟩
      · cases ok

/-- A function compiled aside, if the operator is no name. -/
def Operator.Apart : Operator → Prop
  | .name _ => True
  | .lambda make => Aside make

variable {operator : Operator}

theorem asmFunction_assembling (apart : operator.Apart) : Assembling (asmFunction operator) := by
  have function : ∀ c, Assembling (asmOp2c .function c) := asmOp2c_assembling rfl
  have local' : ∀ n : Int, Assembling (asmOp2 .lfunction n) := asmOp2_assembling rfl
  have close : ∀ c, Assembling (asmOp2c .close c) := asmOp2c_assembling rfl
  cases operator with
  | name name =>
    refine .seq inferInstance fun ref => ?_
    cases ref <;> exact inferInstance
  | lambda make =>
    have := Aside.assembling apart
    exact .seq this fun _ => inferInstance

instance (name : Val) (nargs : Nat) : Assembling (cCallGlobal name nargs) := by
  have call : Assembling (asmOp2 .callg nargs >>= fun _ => asmC (.obj name)) :=
    ((asmOp2_emitting .callg nargs).const (.obj name) rfl).assembling rfl rfl
  have : Assembling ((asmOp2 .callg nargs >>= fun _ => asmC (.obj name)) >>= fun _ =>
      (pure .values : CM Flag)) := inferInstance
  rw [CM.bind_assoc] at this
  exact this

theorem cCallLocal_assembling (apart : operator.Apart) (nargs : Nat) :
    Assembling (cCallLocal operator nargs) := by
  have call : Assembling (asmOp2 .call nargs) := asmOp2_assembling rfl nargs
  exact .seq (asmFunction_assembling apart) fun _ => inferInstance

theorem cCall_assembling (apart : operator.Apart)
    (assembling : AllAssemble actions) : Assembling (cCall operator actions) := by
  refine .seq (cArguments_assembling assembling) fun _ => ?_
  have locally := cCallLocal_assembling apart actions.length
  cases operator with
  | lambda make => exact locally
  | name name =>
    cases name with
    | setf name => exact locally
    | plain name =>
      refine .seq inferInstance fun ref => ?_
      cases ref with
      | none => exact inferInstance
      | some found => exact locally

/-- What the first argument of FUNCALL is made of assembles. -/
def Designator.Assembles : Designator → Prop
  | .function operator => operator.Apart
  | .quote _ => True
  | .quoteSpec operator => operator.Apart
  | .form action => ∀ flags, Assembling (action flags)

theorem cFuncall_assembling {fn : Designator} (first : fn.Assembles)
    (assembling : AllAssemble actions) : Assembling (cFuncall fn actions) := by
  have fcall : Assembling (asmOp2 .fcall actions.length) := asmOp2_assembling rfl _
  have pop1 : Assembling (asmOp .pop1) := asmOp_assembling rfl
  have arguments := cArguments_assembling assembling
  cases fn with
  | function operator => exact cCall_assembling first assembling
  | quote value =>
    refine .seq arguments fun _ => ?_
    split <;> exact inferInstance
  | quoteSpec operator =>
    refine .seq arguments fun _ => ?_
    split
    · exact inferInstance
    · exact cCallLocal_assembling first actions.length
  | form form => exact .seq (first .push) fun _ => inferInstance

theorem cOrdinaryCall_assembling (narg : Sym → Option Nat)
    (apart : operator.Apart) (assembling : AllAssemble actions) :
    Assembling (cOrdinaryCall narg operator actions) := by
  have general := cCall_assembling apart assembling
  have callg1 : ∀ c, Assembling (asmOp2c .callg1 c) := asmOp2c_assembling rfl
  have callg2 : ∀ c, Assembling (asmOp2c .callg2 c) := asmOp2c_assembling rfl
  unfold cOrdinaryCall
  split
  · rename_i arg
    split
    · exact .seq (assembling arg (by simp) .reg0) fun _ => inferInstance
    · exact general
  · rename_i first second
    split
    · exact .seq (assembling first (by simp) .push) fun _ =>
        .seq (assembling second (by simp) .reg0) fun _ => inferInstance
    · exact general
  · exact general

theorem performCCase_assembling (flags : Flag) : ∀ {clauses : List (CaseTest × List Action)},
    (∀ clause ∈ clauses, AllAssemble clause.2) → Assembling (performCCase clauses flags)
  | [], _ => (inferInstance : Assembling (compileNil flags))
  | (test, actions) :: clauses, assembling => by
      have body := compileBody_assembling (assembling (test, actions) (by simp)) flags
      have others : ∀ clause ∈ clauses, AllAssemble clause.2 := fun clause member =>
        assembling clause (mem_cons_of_mem _ member)
      have rest := performCCase_assembling flags others
      by_cases tested : test.tested = true
      · rw [performCCase_tested tested]
        exact .seq (caseClause_assembling _ _ body fun _ => rest) fun _ => inferInstance
      · cases test with
        | empty => exact rest
        | otherwise => exact .seq body fun _ => inferInstance
        | key v => exact absurd rfl tested
        | keys first more => exact absurd rfl tested

theorem cCase_assembling {key : Action} (assembling : ∀ flags, Assembling (key flags))
    {clauses : List (CaseTest × List Action)} (bodies : ∀ clause ∈ clauses, AllAssemble clause.2)
    (flags : Flag) : Assembling (cCase key clauses flags) :=
  .seq (assembling .reg0) fun _ => performCCase_assembling _ bodies

theorem cValues_assembling (assembling : AllAssemble actions)
    (flags : Flag) : Assembling (cValues actions flags) := by
  have nop : Assembling (asmOp .nop) := asmOp_assembling rfl
  have values : Assembling (asmOp2 .values actions.length) := asmOp2_assembling rfl _
  have arguments := cArguments_assembling assembling
  unfold cValues
  split
  · exact inferInstance
  · exact compileBody_assembling assembling .ignore
  · exact inferInstance
  · rename_i arg args
    have rest := compileBody_assembling
      (fun action member => assembling action (mem_cons_of_mem arg member)) .ignore
    exact .seq (assembling arg (by simp) .push) fun _ => inferInstance
  · exact inferInstance
  · exact inferInstance

/-- The test and the forms of a COND clause assemble. -/
structure Clause.Assembles (clause : Clause) : Prop where
  test : ∀ flags, Assembling (clause.test flags)
  body : AllAssemble clause.body

theorem condClause_assembling {clause : Clause} (assembles : clause.Assembles) (last : Bool)
    (flags : Flag) {rest : CM Flag} (assembling : Assembling rest) :
    Assembling (condClause clause last flags rest) := by
  obtain ⟨isT, test, body⟩ := clause
  have bodies := compileBody_assembling assembles.body flags
  have single : AllAssemble [test] := by
    intro action member
    obtain rfl := mem_singleton.mp member
    exact assembles.test
  have valuereg0 : Assembling (asmOp .valuereg0) := asmOp_assembling rfl
  have tests : Assembling (cTest test flags) := by
    refine .seq (assembles.test .reg0) fun _ => ?_
    split <;> exact inferInstance
  unfold condClause
  dsimp only
  split
  · split
    · exact inferInstance
    · exact .seq bodies fun _ => inferInstance
  · split
    · exact .seq (cValues_assembling single flags) fun _ => inferInstance
    · exact .seq tests fun _ => asmSkip_assembling bodies
    · exact .seq tests fun _ => asmSkip_assembling assembling
    · exact .seq (assembles.test .reg0) fun _ => asmEither_assembling bodies assembling

theorem cCond_assembling : ∀ {clauses : List Clause}, (∀ clause ∈ clauses, clause.Assembles) →
    ∀ flags, Assembling (cCond clauses flags)
  | [], _, flags => (inferInstance : Assembling (compileNil flags))
  | clause :: clauses, assembles, flags => by
      have rest := cCond_assembling fun other member =>
        assembles other (mem_cons_of_mem clause member)
      exact .seq (condClause_assembling (assembles clause (by simp)) _ _ (rest _)) fun _ =>
        inferInstance

theorem cIf_assembling {isT : Bool} {test yes : Action} {no : Option (List Action)}
    (first : ∀ flags, Assembling (test flags)) (second : ∀ flags, Assembling (yes flags))
    (third : ∀ actions ∈ no, AllAssemble actions) (flags : Flag) :
    Assembling (cIf isT test yes no flags) := by
  have single : AllAssemble [yes] := by
    intro action member
    obtain rfl := mem_singleton.mp member
    exact second
  cases no with
  | none =>
    refine cCond_assembling (fun clause member => ?_) flags
    obtain rfl := mem_singleton.mp member
    exact ⟨first, single⟩
  | some actions =>
    refine cCond_assembling (fun clause member => ?_) flags
    rcases mem_cons.mp member with rfl | member
    · exact ⟨first, single⟩
    · obtain rfl := mem_singleton.mp member
      exact ⟨fun flags => inferInstance, third actions rfl⟩

variable {items : List (Val ⊕ Action)}

theorem tagbodyForms_assembling (assemble : ItemsAssemble items) :
    AllAssemble (tagbodyForms items) := by
  induction items with
  | nil => intro action member; cases member
  | cons item items ih =>
    have rest := ih fun form flags member => assemble form flags (mem_cons_of_mem _ member)
    cases item with
    | inl label => exact rest
    | inr form =>
      intro action member flags
      rcases mem_cons.mp member with rfl | member
      · exact assemble action flags (by simp)
      · exact rest action member flags

variable {st st₁ st₂ : CEnv} {r : Unit}

theorem tagbody_adds {st₃ : CEnv} {s : Unit}
    (assemble : ItemsAssemble items) (okOp : asmOp2 .tagbody (labelCount items) st = .ok r st₁)
    (okZeros : asmZeros (labelCount items) st₁ = .ok s st₂)
    (okItems : tagbodyItems items st₁.code.length st₂ = .ok () st₃) : Adds st st₃ := by
  have fits := asmOp2_fits okOp
  obtain rfl := asmOp2_eq_ok okOp
  obtain ⟨constants, cells⟩ := asmZeros_cells _ okZeros
  obtain ⟨le, labels, body, cells₃, length, formed, completed⟩ :=
    @tagbodyItems_cells _ _ _ _ st.cells [] [] (labelCount items) _ assemble okItems
    (by rw [cells]; simp [CEnv.cells, instrCells]) (by simp [CEnv.cells]) (.nil _)
    (fun j d found => by simp at found)
  rw [length_nil, Nat.zero_add] at length
  rw [← length] at cells₃ fits
  rw [constants] at le
  exact ⟨le, _, by rw [cells₃, append_assoc], Formed.tagbody fits formed completed⟩

theorem cTagbody_assembling (assemble : ItemsAssemble items)
    (flags : Flag) : Assembling (cTagbody items flags) where
  adds {st r st'} ok := by
    have block : Assembling (asmOp2c .block (.obj (.fixnum 0))) := asmOp2c_assembling rfl _
    have exit : Assembling (asmOp .exitTagbody) := asmOp_assembling rfl
    have forms := compileBody_assembling (tagbodyForms_assembling assemble) .ignore
    obtain ⟨old, st₀, okGet, ok⟩ := CM.bind_eq_ok.mp ok
    obtain ⟨rfl, rfl⟩ := CM.get_eq_ok.mp okGet
    split at ok
    · have branch : Assembling (do
          let _ ← compileBody (tagbodyForms items) .ignore
          compileNil flags : CM Flag) := inferInstance
      exact branch.adds ok
    · simp only [CM.bind_eq_ok] at ok
      obtain ⟨_, st₁, okBlock, _, st₂, okTags, _, st₃, okOp, base, st₄, okPc, _, st₅,
        okZeros, _, st₆,
        okItems, okRest⟩ := ok
      cases okPc
      rw [tagLabels_length, length_nil, Nat.zero_add] at okOp okZeros
      have tags : Assembling (cRegisterTags (tagLabels items 0 [])) :=
        inferInstanceAs (Assembling (cRegister _))
      have rest : Assembling (do
          asmOp .exitTagbody
          cUndoBindings st.vars.length false
          pure Flag.reg0 : CM Flag) := inferInstance
      have okEnd : (do
          asmOp .exitTagbody
          cUndoBindings st.vars.length false
          pure Flag.reg0 : CM Flag) st₆ = .ok r st' := by
        simpa only [CM.bind_eq_ok] using okRest
      have front := (block.adds okBlock).trans (tags.adds okTags)
      exact (front.trans (tagbody_adds assemble okOp okZeros okItems)).trans (rest.adds okEnd)

theorem cWhileUntil_assembling (isWhile : Bool) {test : Action}
    (assembling : ∀ flags, Assembling (test flags)) (assemble : ItemsAssemble items)
    (flags : Flag) : Assembling (cWhileUntil isWhile test items flags) where
  adds {st r st'} ok := by
    simp only [cWhileUntil, CM.bind_eq_ok, CM.pure_eq_ok] at ok
    obtain ⟨labelt, st₁, okJump, labelb, st₂, okPc, _, st₃, okBody, _, st₄, okComplete,
      _, st₅, okTest,
      _, st₆, okOp, pc, st₇, okPc', _, st₈, okArg, -, rfl⟩ := ok
    cases okPc
    cases okPc'
    have body := (cTagbody_assembling assemble _).adds okBody
    obtain ⟨le, loop, cells₄, formed⟩ := skip_adds okJump body okComplete
    obtain ⟨le', more, cells₅, formed'⟩ := (assembling .reg0).adds okTest
    obtain rfl := CM.modify_eq_ok.mp okOp
    obtain rfl := asmArg_eq_ok okArg
    obtain ⟨-, ns, place, cells₁, -, -⟩ :=
      (inferInstance : Branching (asmJmp .jmp) .jmp).emits okJump
    have start : st₁.code.length = st.code.length + 2 := by
      obtain ⟨-, rfl⟩ := asmJmp_eq_ok okJump
      simp
    have here : st₅.code.length = st.code.length + (.op .jmp :: loop : List Cell).length +
        more.length := by
      have := congrArg List.length cells₅
      rw [cells₄] at this
      simp only [CEnv.cells, length_map, length_append] at this
      exact this
    have whole := (formed.mono le').append formed'
    have jump : Opcode.operands .jmp = fun _ => [.label] := rfl
    have back := (formed.second jump).embed [] more
      formed'.head
    let op : Opcode := if isWhile then .jt else .jnil
    let delta : Int := st₁.code.length - (st₅.code.length + 1 : Nat)
    have operands : op.operands [delta] = [.label] := by
      cases isWhile <;> rfl
    have free : op.unchecked 0 = true := by cases isWhile <;> rfl
    refine ⟨Nat.le_trans le le', .op .jmp :: loop ++ more ++ instrCells op [delta], ?_, ?_⟩
    · have cells : st₅.code.map Word.cell = st.cells ++ .op .jmp :: loop ++ more := by
        rw [← cells₄]
        exact cells₅
      simp [CEnv.cells, cells, instrCells, op, delta]
    · refine whole.snoc ⟨by rw [operands]; rfl, ?_, ?_, ?_⟩ ?_
      · intro j n kind
        rw [operands] at kind
        cases mem_singleton.mp (mem_of_getElem? kind)
      · intro j n kind
        rw [operands] at kind
        cases mem_singleton.mp (mem_of_getElem? kind)
      · intro j n found checked
        cases j with
        | zero => rw [free] at checked; cases checked
        | succ j => simp at found
      · intro j n kind found
        obtain rfl := label_index operands kind
        obtain rfl : delta = n := by simpa using found
        have target := back.embed [] (instrCells op [delta]) (.cons op _)
        simp only [nil_append, length_nil] at target
        convert target using 1
        simp only [delta, start, here, length_append, length_cons]
        push_cast
        simp only [length_nil]
        omega

theorem cScope_assembling {code : CM Flag} (assembling : Assembling code) :
    Assembling (cScope code) :=
  .seq inferInstance fun _ => .seq assembling fun _ => inferInstance

instance (var : Sym) (special bound : Bool) : Assembling (cRegisterVar var special bound) := by
  unfold cRegisterVar
  split
  · exact inferInstance
  · refine .seq inferInstance fun ref => ?_
    cases ref <;> exact inferInstance

instance (var : Sym) : Assembling (cDeclareSpecial var) := by
  refine .seq inferInstance fun ref => ?_
  cases ref <;> exact inferInstance

theorem cDeclareSpecials_assembling : ∀ (specials : List Sym),
    Assembling (cDeclareSpecials specials)
  | [] => (inferInstance : Assembling (pure () : CM Unit))
  | _ :: specials => .seq inferInstance fun _ => cDeclareSpecials_assembling specials

theorem declaredBody_assembling (specials : List Sym) (assembling : AllAssemble actions)
    (flags : Flag) :
    Assembling (declaredBody specials actions flags) :=
  .seq (cDeclareSpecials_assembling specials) fun _ => compileBody_assembling assembling flags

theorem cLocally_assembling (specials : List Sym) (assembling : AllAssemble actions)
    (flags : Flag) :
    Assembling (cLocally specials actions flags) :=
  cScope_assembling (declaredBody_assembling specials assembling flags)

theorem cBindWith_assembling {lexical special : Opcode}
    (variable' : lexical.operands = fun _ => [.constant])
    (symbol : special.operands = fun _ => [.constant]) (var : Sym) (specials : List Sym) :
    Assembling (cBindWith lexical special var specials) := by
  unfold cBindWith
  split
  · exact .seq inferInstance fun _ => asmOp2c_assembling symbol _
  · exact .seq inferInstance fun _ => asmOp2c_assembling variable' _

instance (var : Sym) (specials : List Sym) : Assembling (cBind var specials) :=
  cBindWith_assembling rfl rfl var specials

instance (var : Sym) (specials : List Sym) : Assembling (cPbind var specials) :=
  cBindWith_assembling rfl rfl var specials

/-- Variables with forms that assemble. -/
abbrev ValuesAssemble (bindings : List (Sym × Action)) : Prop :=
  ∀ binding ∈ bindings, ∀ flags, Assembling (binding.2 flags)

variable {bindings : List (Sym × Action)}

theorem ValuesAssemble.all (assemble : ValuesAssemble bindings) :
    AllAssemble (bindings.map Prod.snd) := by
  intro action member
  obtain ⟨binding, inside, rfl⟩ := mem_map.mp member
  exact assemble binding inside

theorem letaBindings_assembling (specials : List Sym) : ∀ {bindings : List (Sym × Action)},
    ValuesAssemble bindings → Assembling (letaBindings specials bindings)
  | [], _ => (inferInstance : Assembling (pure () : CM Unit))
  | (var, value) :: bindings, assemble =>
    .seq (assemble (var, value) (by simp) .reg0) fun _ => .seq inferInstance fun _ =>
      letaBindings_assembling specials fun binding member =>
        assemble binding (mem_cons_of_mem _ member)

theorem pbindAll_assembling (specials : List Sym) : ∀ (vars : List Sym),
    Assembling (pbindAll specials vars)
  | [] => (inferInstance : Assembling (pure () : CM Unit))
  | _ :: vars => .seq inferInstance fun _ => pbindAll_assembling specials vars

theorem letBindings_assembling (star : Bool) (assemble : ValuesAssemble bindings)
    (specials : List Sym) :
    Assembling (letBindings star bindings specials) := by
  unfold letBindings
  split
  · exact letaBindings_assembling specials assemble
  · exact .seq (cArguments_assembling assemble.all) fun _ => pbindAll_assembling specials _

theorem cLetLeta_assembling (star : Bool) (assemble : ValuesAssemble bindings) (specials : List Sym)
    (assembling : AllAssemble actions) (flags : Flag) :
    Assembling (cLetLeta star bindings specials actions flags) := by
  unfold cLetLeta
  split
  · exact cLocally_assembling specials assembling flags
  · exact cScope_assembling (.seq (letBindings_assembling star assemble specials) fun _ =>
      declaredBody_assembling specials assembling flags)

theorem asmVbind_assembling {nth first : Opcode}
    (others : nth.operands = fun _ => [.integer, .constant]) (freeNth : nth.unchecked 1 = true)
    (primary : first.operands = fun _ => [.constant]) (freeFirst : first.unchecked 0 = true)
    (n : Nat) (c : Const) : Assembling (asmVbind nth first n >>= fun _ => asmC c) := by
  unfold asmVbind
  split
  · exact ((asmOp2_emitting nth n).const c freeNth).assembling others rfl
  · exact ((asmOp_emitting first).const c freeFirst).assembling primary rfl

instance (var : Sym) (n : Nat) (specials : List Sym) : Assembling (cVbind var n specials) := by
  unfold cVbind
  split
  · exact .seq inferInstance fun _ => asmVbind_assembling rfl rfl rfl rfl n _
  · exact .seq inferInstance fun _ => asmVbind_assembling rfl rfl rfl rfl n _

theorem vbindAll_assembling (specials : List Sym) : ∀ (vars : List Sym),
    Assembling (vbindAll specials vars)
  | [] => (inferInstance : Assembling (pure () : CM Unit))
  | _ :: vars => .seq inferInstance fun _ => vbindAll_assembling specials vars

theorem cMultipleValueBind_assembling (vars : List Sym) {value : Action}
    (assemble : ∀ flags, Assembling (value flags)) (specials : List Sym)
    (assembling : AllAssemble actions) (flags : Flag) :
    Assembling (cMultipleValueBind vars value specials actions flags) := by
  unfold cMultipleValueBind
  split
  · exact cLocally_assembling specials assembling flags
  · refine cLetLeta_assembling true (fun binding member => ?_) specials assembling flags
    obtain rfl := mem_singleton.mp member
    exact assemble
  · exact cScope_assembling (.seq (assemble .values) fun _ =>
      .seq (vbindAll_assembling specials _) fun _ =>
        declaredBody_assembling specials assembling flags)

/-- Functions that are compiled aside. -/
abbrev AllAside (functions : List (FName × CM Bytecodes)) : Prop :=
  ∀ function ∈ functions, Aside function.2

theorem cRegisterFunctions_same : ∀ {functions : List (FName × CM Bytecodes)} {st st' : CEnv}
    {r : Unit}, cRegisterFunctions functions st = .ok r st' →
    st'.code = st.code ∧ st'.constants = st.constants
  | [], st, st', r, ok => by
      obtain ⟨-, rfl⟩ := CM.pure_eq_ok.mp ok
      exact ⟨rfl, rfl⟩
  | _ :: functions, st, st', r, ok => by
      obtain ⟨_, st₁, okFirst, okRest⟩ := CM.bind_eq_ok.mp ok
      unfold cRegisterFunction cRegister at okFirst
      obtain rfl := CM.modify_eq_ok.mp okFirst
      have rest := cRegisterFunctions_same okRest
      exact rest

/-- The functions of FLET and LABELS are consecutive constants, and the index of
the first one is an operand. -/
theorem cFunctions_cells : ∀ {functions : List (FName × CM Bytecodes)} {first : Bool}
    {st st' : CEnv} {r : Unit}, AllAside functions → cFunctions functions first st = .ok r st' →
    st'.constants.length = st.constants.length + functions.length ∧
      st'.cells = st.cells ++
        if first ∧ functions ≠ [] then [.arg (st.constants.length : Int)] else []
  | [], first, st, st', r, _, ok => by
      obtain ⟨-, rfl⟩ := CM.pure_eq_ok.mp ok
      simp
  | (name, make) :: functions, first, st, st', r, aside, ok => by
      obtain ⟨lambda, st₁, okMake, ok⟩ := CM.bind_eq_ok.mp ok
      obtain ⟨c, st₂, okConst, ok⟩ := CM.bind_eq_ok.mp ok
      obtain ⟨_, st₃, okFirst, okRest⟩ := CM.bind_eq_ok.mp ok
      obtain ⟨code, constants⟩ := (aside (name, make) (by simp)).same okMake
      have fresh : (st₁.constants.findIdx? fun other => other.eql (.code lambda)) = none := by
        rw [List.findIdx?_eq_none_iff]
        intro other _
        exact Bool.eq_false_iff.mpr (Const.not_eql (by simp))
      unfold cRegisterConstant at okConst
      rw [fresh] at okConst
      cases okConst
      have others : AllAside functions := fun function member =>
        aside function (mem_cons_of_mem _ member)
      obtain ⟨length, cells⟩ := cFunctions_cells others okRest
      have third : st₃.constants.length = st.constants.length + 1 ∧
          st₃.cells = st.cells ++ if first then [.arg (st.constants.length : Int)] else [] := by
        unfold asmFirst at okFirst
        split at okFirst
        · rename_i isFirst
          obtain rfl := asmArg_eq_ok okFirst
          simp [CEnv.cells, code, constants, isFirst]
        · rename_i notFirst
          obtain ⟨-, rfl⟩ := CM.pure_eq_ok.mp okFirst
          simp [CEnv.cells, code, constants, notFirst]
      refine ⟨by rw [length, third.1, length_cons]; omega, ?_⟩
      rw [cells, third.2]
      simp

theorem Formed.functions {size first nfun : Nat}
    (operands : op.operands = fun _ => [.integer, .functions]) (free : op.unchecked 1 = true)
    (fits : Fits (nfun : Int)) (bound : first + nfun ≤ size) :
    Formed size (instrCells op [(nfun : Int), (first : Int)]) := by
  refine Formed.instr ⟨by rw [operands]; rfl, ?_, ?_, ?_⟩ (by rw [operands]; simp)
  · intro j n kind
    rw [operands] at kind
    rcases j with _ | _ | j <;> simp at kind
  · intro j n kind found
    rw [operands] at kind
    rcases j with _ | _ | j
    · simp at kind
    · cases found
      exact ⟨by omega, by simp only [headD_cons]; omega⟩
    · simp at kind
  · intro j n found checked
    rcases j with _ | _ | j
    · cases found
      exact fits
    · rw [free] at checked
      cases checked
    · simp at found

theorem functions_adds (operands : op.operands = fun _ => [.integer, .functions])
    (free : op.unchecked 1 = true) {functions : List (FName × CM Bytecodes)}
    (some' : functions ≠ []) (aside : AllAside functions) {s : Unit}
    (okOp : asmOp2 op functions.length st = .ok r st₁)
    (okFunctions : cFunctions functions true st₁ = .ok s st₂) : Adds st st₂ := by
  have fits := asmOp2_fits okOp
  obtain rfl := asmOp2_eq_ok okOp
  obtain ⟨length, cells⟩ := cFunctions_cells aside okFunctions
  refine ⟨by rw [length]; exact Nat.le_add_right _ _, _, ?_,
    Formed.functions operands free fits (Nat.le_of_eq length.symm)⟩
  rw [cells]
  simp [CEnv.cells, instrCells, some']

theorem labelsFlet_assembling (labels : Bool) {functions : List (FName × CM Bytecodes)}
    (some' : functions ≠ []) (aside : AllAside functions) :
    Assembling (labelsFlet labels functions) where
  adds {st r st'} ok := by
    unfold labelsFlet at ok
    split at ok
    · obtain ⟨_, st₁, okNames, ok⟩ := CM.bind_eq_ok.mp ok
      obtain ⟨_, st₂, okOp, okFunctions⟩ := CM.bind_eq_ok.mp ok
      obtain ⟨code, constants⟩ := cRegisterFunctions_same okNames
      have names : Adds st st₁ := .of_same (by simp [CEnv.cells, code])
        (Nat.le_of_eq (by rw [constants]))
      exact names.trans (functions_adds rfl rfl some' aside okOp okFunctions)
    · obtain ⟨_, st₁, okOp, ok⟩ := CM.bind_eq_ok.mp ok
      obtain ⟨_, st₂, okFunctions, okNames⟩ := CM.bind_eq_ok.mp ok
      obtain ⟨code, constants⟩ := cRegisterFunctions_same okNames
      have names : Adds st₂ st' := .of_same (by simp [CEnv.cells, code])
        (Nat.le_of_eq (by rw [constants]))
      exact (functions_adds rfl rfl some' aside okOp okFunctions).trans names

theorem cLabelsFlet_assembling (labels : Bool) {functions : List (FName × CM Bytecodes)}
    (aside : AllAside functions) (specials : List Sym)
    (assembling : AllAssemble actions) (flags : Flag) :
    Assembling (cLabelsFlet labels functions specials actions flags) := by
  unfold cLabelsFlet
  split
  · exact cLocally_assembling specials assembling flags
  · rename_i some'
    have nonempty : functions ≠ [] := fun none => some' (by rw [none]; rfl)
    exact cScope_assembling (.seq (labelsFlet_assembling labels nonempty aside) fun _ =>
      cLocally_assembling specials assembling flags)

instance (name : Sym) : Assembling (cSymbolMacro name) := by
  have register : Assembling (cRegisterSymbolMacro name) :=
    inferInstanceAs (Assembling (cRegister _))
  unfold cSymbolMacro
  split
  · exact inferInstance
  · refine .seq inferInstance fun ref => ?_
    cases ref <;> exact inferInstance

theorem cSymbolMacros_assembling : ∀ (names : List Sym), Assembling (cSymbolMacros names)
  | [] => (inferInstance : Assembling (pure () : CM Unit))
  | _ :: names => .seq inferInstance fun _ => cSymbolMacros_assembling names

theorem cSymbolMacrolet_assembling (names specials : List Sym)
    (assembling : AllAssemble actions) (flags : Flag) :
    Assembling (cSymbolMacrolet names specials actions flags) :=
  cScope_assembling (.seq (cSymbolMacros_assembling names) fun _ =>
    declaredBody_assembling specials assembling flags)

/-- Places with forms that assemble. -/
abbrev PairsAssemble (pairs : List (Option Sym × Action)) : Prop :=
  ∀ pair ∈ pairs, ∀ flags, Assembling (pair.2 flags)

theorem cSetq_assembling (flags : Flag) : ∀ {pairs : List (Option Sym × Action)},
    PairsAssemble pairs → Assembling (cSetq pairs flags)
  | [], _ => (inferInstance : Assembling (compileNil flags))
  | (place, value) :: pairs, assemble => by
      have assembling := assemble (place, value) (by simp)
      have rest := cSetq_assembling flags fun pair member =>
        assemble pair (mem_cons_of_mem (place, value) member)
      unfold cSetq
      cases place with
      | some var =>
        have assign : Assembling (compileSetq .setq .setqs var) :=
          compileSetq_assembling rfl rfl var
        refine .seq (assembling .reg0) fun _ => .seq assign fun _ => ?_
        cases pairs with
        | nil => exact inferInstance
        | cons next pairs => exact rest
      | none =>
        cases pairs with
        | nil => exact .seq (assembling .values) fun _ => inferInstance
        | cons next pairs => exact .seq (assembling .reg0) fun _ => rest

theorem psetqAll_assembling : ∀ (vars : List Sym), Assembling (psetqAll vars)
  | [] => (inferInstance : Assembling (pure () : CM Unit))
  | var :: vars => by
      have assign : Assembling (compileSetq .psetq .psetqs var) :=
        compileSetq_assembling rfl rfl var
      exact .seq assign fun _ => psetqAll_assembling vars

theorem cPsetq_assembling {pairs : List (Sym × Action)} (assemble : ValuesAssemble pairs)
    (flags : Flag) : Assembling (cPsetq pairs flags) := by
  unfold cPsetq
  split
  · exact (inferInstance : Assembling (compileNil flags))
  · exact .seq (cArguments_assembling assemble.all) fun _ =>
      .seq (psetqAll_assembling _) fun _ => inferInstance

theorem vsetq_assembling (var : Sym) (nvars : Nat) :
    Assembling (compileSetq .vsetq .vsetqs var >>= fun _ => asmArg nvars) := by
  unfold compileSetq
  rw [CM.bind_assoc]
  refine .seq inferInstance fun ref => ?_
  cases ref with
  | index n => exact ((asmOp2_emitting .vsetq n).arg nvars rfl).assembling rfl rfl
  | _ =>
    dsimp only
    split
    · refine ⟨fun ok => ?_⟩
      obtain ⟨_, _, okFail, -⟩ := CM.bind_eq_ok.mp ok
      exact (CM.fail_eq_ok.mp okFail).elim
    · exact ((asmOp2c_emitting .vsetqs _).arg nvars rfl).assembling rfl rfl

theorem vsetqAll_assembling : ∀ (vars : List Sym) (nvars : Nat),
    Assembling (vsetqAll vars nvars)
  | [], _ => (inferInstance : Assembling (pure () : CM Unit))
  | var :: vars, nvars => by
      have rest := vsetqAll_assembling vars (nvars + 1)
      have both := Assembling.seq (vsetq_assembling var nvars) fun _ => rest
      rw [CM.bind_assoc] at both
      exact both

theorem cMultipleValueSetq_assembling (vars : List Sym) {value : Action}
    (assembling : ∀ flags, Assembling (value flags)) (flags : Flag) :
    Assembling (cMultipleValueSetq vars value flags) := by
  cases vars with
  | nil =>
    have single : AllAssemble [value] := by
      intro action member
      obtain rfl := mem_singleton.mp member
      exact assembling
    exact compileForm_assembling (cValues_assembling single) flags
  | cons var vars =>
    have assign : Assembling (compileSetq .setq .setqs var) := compileSetq_assembling rfl rfl var
    exact .seq (assembling .values) fun _ => .seq assign fun _ =>
      .seq (vsetqAll_assembling vars 1) fun _ => inferInstance

theorem pushValuesAll_assembling : ∀ {actions : List Action} (first : Bool),
    AllAssemble actions → Assembling (pushValuesAll actions first)
  | [], _, _ => (inferInstance : Assembling (pure () : CM Unit))
  | action :: actions, first, assembling => by
      have op : Assembling (asmOp (if first then .pushvalues else .pushmorevalues)) := by
        split <;> exact asmOp_assembling rfl
      exact .seq (assembling action (by simp) .values) fun _ => .seq op fun _ =>
        pushValuesAll_assembling false fun other member =>
          assembling other (mem_cons_of_mem action member)

theorem cMultipleValueCall_assembling {fn : Designator}
    (designates : fn.Assembles) (first : ∀ flags, Assembling (form flags))
    (assembling : AllAssemble actions) : Assembling (cMultipleValueCall fn form actions) := by
  have mcall : Assembling (asmOp .mcall) := asmOp_assembling rfl
  have pop1 : Assembling (asmOp .pop1) := asmOp_assembling rfl
  have pushes := pushValuesAll_assembling true assembling
  unfold cMultipleValueCall
  split
  · exact cFuncall_assembling designates fun action member => by cases member
  · exact .seq (first .push) fun _ => inferInstance

theorem cMultipleValueProg1_assembling {first : Action}
    (assembling : ∀ flags, Assembling (first flags)) (bodies : AllAssemble actions) :
    Assembling (cMultipleValueProg1 first actions) := by
  have pushvalues : Assembling (asmOp .pushvalues) := asmOp_assembling rfl
  have popvalues : Assembling (asmOp .popvalues) := asmOp_assembling rfl
  have body := compileBody_assembling bodies .ignore
  refine .seq (assembling .values) fun _ => ?_
  split <;> exact inferInstance

theorem cNot_assembling (assembling : ∀ flags, Assembling (form flags))
    (flags : Flag) : Assembling (cNot form flags) := by
  have op : Assembling (asmOp .not) := asmOp_assembling rfl
  unfold cNot
  split
  · exact .seq (assembling .reg0) fun _ => inferInstance
  · exact assembling _

theorem cNthValue_assembling {index values : Action}
    (first : ∀ flags, Assembling (index flags)) (second : ∀ flags, Assembling (values flags)) :
    Assembling (cNthValue index values) := by
  have op : Assembling (asmOp .nthval) := asmOp_assembling rfl
  exact .seq (first .push) fun _ => .seq (second .values) fun _ => inferInstance

theorem cProg1_assembling (assembling : ∀ flags, Assembling (form flags))
    (bodies : AllAssemble actions) (flags : Flag) :
    Assembling (cProg1 form actions flags) := by
  have op : Assembling (asmOp .pop) := asmOp_assembling rfl
  have body := compileBody_assembling bodies .ignore
  unfold cProg1
  split
  · exact .seq (assembling flags) fun _ => inferInstance
  · exact .seq (assembling .push) fun _ => inferInstance

theorem cProgv_assembling {vars values : Action} (first : ∀ flags, Assembling (vars flags))
    (second : ∀ flags, Assembling (values flags))
    (bodies : AllAssemble actions) : Assembling (cProgv vars values actions) := by
  have op : Assembling (asmOp .progv) := asmOp_assembling rfl
  have exit : Assembling (asmOp .exitProgv) := asmOp_assembling rfl
  have body := compileBody_assembling bodies .values
  exact .seq (first .push) fun _ => .seq (second .reg0) fun _ => inferInstance

theorem frame_adds {name : Val} {prepare : CM Unit} {body : CM Flag} (ready : Assembling prepare)
    (assembling : Assembling body) {old : CEnv} {labelz : Nat}
    (okBegin : beginFrame name prepare body st = .ok labelz st₁)
    (okEnd : endFrame old labelz st₁ = .ok r st₂) : Adds st st₂ := by
  have block : Assembling (cRegisterBlock name) := inferInstanceAs (Assembling (cRegister _))
  have exit : Assembling (asmOp .exitFrame) := asmOp_assembling rfl
  simp only [beginFrame, CM.bind_eq_ok, CM.pure_eq_ok] at okBegin
  obtain ⟨_, st₃, okBlock, _, st₄, okReady, _, st₅, okJump, _, st₆, okBody, rfl, rfl⟩ := okBegin
  simp only [endFrame, CM.bind_eq_ok] at okEnd
  obtain ⟨_, st₇, okUndo, _, st₈, okExit, okComplete⟩ := okEnd
  have undo : Adds st₆ st₇ := Assembling.adds okUndo
  have inner := ((assembling.adds okBody).trans undo).trans (exit.adds okExit)
  exact ((block.adds okBlock).trans (ready.adds okReady)).trans
    (skip_adds okJump inner okComplete).adds

theorem beginFrame_constants {name : Val} {prepare : CM Unit} {body : CM Flag}
    (ready : Assembling prepare) (assembling : Assembling body) {labelz : Nat}
    (ok : beginFrame name prepare body st = .ok labelz st₁) :
    st.constants.length ≤ st₁.constants.length := by
  simp only [beginFrame, CM.bind_eq_ok, CM.pure_eq_ok] at ok
  obtain ⟨_, st₃, okBlock, _, st₄, okReady, _, st₅, okJump, _, st₆, okBody, rfl, rfl⟩ := ok
  have block : Assembling (cRegisterBlock name) := inferInstanceAs (Assembling (cRegister _))
  calc st.constants.length ≤ st₃.constants.length := (block.adds okBlock).1
    _ ≤ st₄.constants.length := (ready.adds okReady).1
    _ ≤ st₅.constants.length :=
        ((inferInstance : Branching (asmJmp .frame) .frame).emits okJump).1
    _ ≤ st₆.constants.length := (assembling.adds okBody).1

/-- A block that nothing returns from is compiled again as its body; the constants
of the first time stay, unless they were the first ones. -/
theorem cBlock_assembling (name : Option Sym)
    (bodies : AllAssemble actions) (flags : Flag) : Assembling (cBlock name actions flags) where
  adds {st r st'} ok := by
    have prepare : Assembling (asmBlock name) := by
      cases name with
      | none => exact asmOp_assembling rfl
      | some name => exact asmOp2c_assembling rfl _
    have body := compileBody_assembling bodies (maybeValuesOrReg0 flags)
    simp only [cBlock, CM.bind_eq_ok] at ok
    obtain ⟨old, st₁, okGet, labelz, st₂, okBegin, env, st₃, okGet', okRest⟩ := ok
    obtain ⟨rfl, rfl⟩ := CM.get_eq_ok.mp okGet
    obtain ⟨rfl, rfl⟩ := CM.get_eq_ok.mp okGet'
    split at okRest
    · obtain ⟨_, st₄, okEnd, okPure⟩ := CM.bind_eq_ok.mp okRest
      obtain ⟨-, rfl⟩ := CM.pure_eq_ok.mp okPure
      exact frame_adds prepare body okBegin okEnd
    · obtain ⟨_, st₄, okModify, okBody⟩ := CM.bind_eq_ok.mp okRest
      obtain rfl := CM.modify_eq_ok.mp okModify
      have kept : st.constants.length ≤ (restoreConstants st st₂).length := by
        unfold restoreConstants
        split
        · rename_i empty
          simp [isEmpty_iff.mp empty]
        · exact beginFrame_constants prepare body okBegin
      have again := (compileBody_assembling bodies flags).adds okBody
      exact Adds.trans (Adds.of_same (by rfl) (by exact kept)) again

theorem cCatch_assembling {tag : Action} (first : ∀ flags, Assembling (tag flags))
    (bodies : AllAssemble actions) : Assembling (cCatch tag actions) where
  adds {st r st'} ok := by
    simp only [cCatch, CM.bind_eq_ok, CM.pure_eq_ok] at ok
    obtain ⟨_, st₁, okTag, old, st₂, okGet, labelz, st₃, okBegin, _, st₄, okEnd, -, rfl⟩ := ok
    obtain ⟨rfl, rfl⟩ := CM.get_eq_ok.mp okGet
    exact ((first .reg0).adds okTag).trans
      (frame_adds (asmOp_assembling rfl) (compileBody_assembling bodies .values) okBegin okEnd)

instance (tag : Val) (flags : Flag) : Assembling (cGo tag flags) := by
  refine .seq inferInstance fun ref => ?_
  cases ref with
  | none => exact inferInstance
  | some found =>
    obtain ⟨index, number⟩ := found
    have go : Assembling (asmOp2 .go index >>= fun _ => asmArg number) :=
      ((asmOp2_emitting .go index).arg number rfl).assembling rfl rfl
    have both := Assembling.seq go fun _ => (inferInstance : Assembling (pure flags : CM Flag))
    rw [CM.bind_assoc] at both
    exact both

theorem cReturnAux_assembling (name : Option Sym)
    (assembling : ∀ flags, Assembling (form flags)) : Assembling (cReturnAux name form) := by
  have op : ∀ n : Int, Assembling (asmOp2 .return n) := asmOp2_assembling rfl
  refine .seq inferInstance fun ref => ?_
  cases ref with
  | none => exact inferInstance
  | some found => exact .seq (assembling .values) fun _ => inferInstance

theorem cThrow_assembling {tag : Action} (first : ∀ flags, Assembling (tag flags))
    (second : ∀ flags, Assembling (form flags)) (flags : Flag) :
    Assembling (cThrow tag form flags) := by
  have op : Assembling (asmOp .throw) := asmOp_assembling rfl
  exact .seq (first .push) fun _ => .seq (second .values) fun _ => inferInstance

theorem cUnwindProtect_assembling (assembling : ∀ flags, Assembling (form flags))
    (bodies : AllAssemble actions) (flags : Flag) :
    Assembling (cUnwindProtect form actions flags) where
  adds {st r st'} ok := by
    have normal : Assembling (asmOp .protectNormal) := asmOp_assembling rfl
    have exit : Assembling (asmOp .protectExit) := asmOp_assembling rfl
    simp only [cUnwindProtect, CM.bind_eq_ok, CM.pure_eq_ok] at ok
    obtain ⟨label, st₁, okJump, _, st₂, okForm, _, st₃, okNormal, _, st₄, okComplete,
      _, st₅, okBody,
      _, st₆, okExit, -, rfl⟩ := ok
    have inner := ((assembling _).adds okForm).trans (normal.adds okNormal)
    have cleanup := ((compileBody_assembling bodies .ignore).adds okBody).trans (exit.adds okExit)
    exact (skip_adds okJump inner okComplete).adds.trans cleanup

theorem cCons_assembling {car cdr : Action} (first : ∀ flags, Assembling (car flags))
    (second : ∀ flags, Assembling (cdr flags)) : Assembling (cCons car cdr) := by
  have op : Assembling (asmOp .cons) := asmOp_assembling rfl
  exact .seq (first .push) fun _ => .seq (second .reg0) fun _ => inferInstance

theorem cInlined_assembling (all : op.operands = fun _ => [])
    (assembling : ∀ flags, Assembling (form flags)) : Assembling (cInlined op form) := by
  have := asmOp_assembling all
  exact .seq (assembling .reg0) fun _ => inferInstance

theorem listArguments_assembling : ∀ {action : Action} {actions : List Action},
    AllAssemble (action :: actions) → Assembling (listArguments action actions)
  | action, [], assembling => .seq (assembling action (by simp) .reg0) fun _ => inferInstance
  | action, next :: actions, assembling =>
    .seq (assembling action (by simp) .push) fun _ =>
      listArguments_assembling fun other member =>
        assembling other (mem_cons_of_mem action member)

theorem cListListA_assembling (all : op.operands = fun _ => [.integer])
    (assembling : AllAssemble actions) (flags : Flag) :
    Assembling (cListListA op actions flags) := by
  cases actions with
  | nil => exact (inferInstance : Assembling (compileNil flags))
  | cons action actions =>
    have list : Assembling (asmOp2 op (actions.length + 1)) := asmOp2_assembling all _
    exact .seq (listArguments_assembling assembling) fun _ => inferInstance

end Ecl.Interp
