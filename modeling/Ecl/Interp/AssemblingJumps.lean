import Ecl.Interp.Operands

/- Labels that the compiler fills in after the code they lead past. -/
namespace Ecl.Interp

open List

variable {α β : Type}

/-- The code added begins with the given opcode. -/
def AddsFrom (op : Opcode) (st st' : CEnv) : Prop :=
  st.constants.length ≤ st'.constants.length ∧ ∃ rest,
    st'.cells = st.cells ++ .op op :: rest ∧ Formed st'.constants.length (.op op :: rest)

variable {op : Opcode} {st st' : CEnv}

theorem AddsFrom.adds (adds : AddsFrom op st st') : Adds st st' :=
  ⟨adds.1, _, adds.2.choose_spec⟩

/-- An action that emits an instruction whose last operand is a label to be
completed, with the other operands before it. -/
class Branching (jump : CM Nat) (op : outParam Opcode) : Prop where
  emits : ∀ {st st' : CEnv} {label : Nat}, jump st = .ok label st' →
    st.constants.length ≤ st'.constants.length ∧ ∃ ns : List Int,
      label = st.code.length + 1 + ns.length ∧ st'.cells = st.cells ++ instrCells op (ns ++ [0]) ∧
      (∀ n, Fits n → Whole st'.constants.length op (ns ++ [n])) ∧
      ∀ (j : Nat) n, (op.operands (ns ++ [n]))[j]? = some .label → j = ns.length

variable {size : Nat}

theorem Whole.label {n : Int} (kinds : op.operands [n] = [.label]) (fits : Fits n) :
    Whole size op [n] := by
  refine ⟨by simp [kinds], fun j m kind => ?_, fun j m kind => ?_, fun j m found _ => ?_⟩
  · rw [kinds] at kind
    cases mem_singleton.mp (mem_of_getElem? kind)
  · rw [kinds] at kind
    cases mem_singleton.mp (mem_of_getElem? kind)
  · obtain rfl := mem_singleton.mp (mem_of_getElem? found)
    exact fits

theorem label_index {kinds : List OperandKind} {j : Nat} (only : kinds = [.label])
    (found : kinds[j]? = some .label) : j = 0 := by
  subst only
  cases j with
  | zero => rfl
  | succ j => simp at found

theorem asmJmp_branching (kinds : op.operands = fun _ => [.label]) : Branching (asmJmp op) op where
  emits ok := by
    obtain ⟨rfl, rfl⟩ := asmJmp_eq_ok ok
    refine ⟨Nat.le_refl _, [], by simp, by simp [CEnv.cells, instrCells], fun n fits => ?_, ?_⟩
    · exact Whole.label (by rw [kinds]) fits
    · intro j n found
      exact label_index (by rw [kinds]) found

instance : Branching (asmJmp .jt) .jt := asmJmp_branching rfl

instance : Branching (asmJmp .jnil) .jnil := asmJmp_branching rfl

instance : Branching (asmJmp .jmp) .jmp := asmJmp_branching rfl

instance : Branching (asmJmp .frame) .frame := asmJmp_branching rfl

instance : Branching (asmJmp .protect) .protect := asmJmp_branching rfl

instance (v : Val) : Branching (asmJneql v) .jneql where
  emits {st st' label} ok := by
    have split : asmJneql v = (asmOp .jneql >>= fun _ => asmC (.obj v)) >>= fun _ =>
        currentPc >>= fun labeln => asmArg 0 >>= fun _ => pure labeln := by
      rw [CM.bind_assoc]
      rfl
    rw [split] at ok
    obtain ⟨_, st₁, okFirst, okRest⟩ := CM.bind_eq_ok.mp ok
    have emitting := (asmOp_emitting .jneql).const (.obj v) rfl
    obtain ⟨le, ns, cells, length, constant, -⟩ := emitting.emits okFirst
    simp only [CM.bind_eq_ok, CM.pure_eq_ok] at okRest
    obtain ⟨pc, st₂, okPc, _, st₃, okArg, rfl, rfl⟩ := okRest
    cases okPc
    obtain rfl := asmArg_eq_ok okArg
    have words : st₁.code.length = st.code.length + 1 + ns.length := by
      have := congrArg List.length cells
      simp only [CEnv.cells, length_map, length_append, instrCells_length] at this
      omega
    have cells' : st₁.code.map Word.cell = st.cells ++ instrCells .jneql ns := cells
    obtain ⟨c, rfl⟩ := length_eq_one_iff.mp length
    refine ⟨le, [c], words, ?_, fun n fits => ⟨rfl, ?_, ?_, ?_⟩, ?_⟩
    · simp [CEnv.cells, cells', instrCells]
    · intro j m kind found
      rcases j with _ | _ | j
      · exact constant 0 m rfl found
      · simp [Opcode.operands] at kind
      · simp [Opcode.operands] at kind
    · intro j m kind
      rcases j with _ | _ | j <;> simp [Opcode.operands] at kind
    · intro j m found free
      rcases j with _ | _ | j
      · simp [Opcode.unchecked] at free
      · cases found
        exact fits
      · simp at found
    · intro j n kind
      rcases j with _ | _ | j <;> simp [Opcode.operands] at kind ⊢

variable {r : Unit}

theorem asmComplete_cells {code : Option Opcode} {pc : Nat}
    (op : Opcode) (ns : List Int) (before after : List Cell)
    (ok : asmComplete code pc st = .ok r st')
    (cells : st.cells = before ++ instrCells op (ns ++ [0]) ++ after)
    (place : pc = before.length + 1 + ns.length) :
    Fits ((after.length : Int) + 1) ∧ st'.constants = st.constants ∧
      st'.cells = before ++ instrCells op (ns ++ [(after.length : Int) + 1]) ++ after := by
  have delta : (st.code.length : Int) - pc = (after.length : Int) + 1 := by
    have := congrArg List.length cells
    simp only [CEnv.cells, length_map, length_append, instrCells_length,
      length_cons, length_nil] at this
    omega
  have fits : Fits ((after.length : Int) + 1) := by
    unfold asmComplete at ok
    split at ok
    · cases ok
    · dsimp only at ok
      split at ok
      · cases ok
      · rw [← delta]
        exact fits_of_maxOparg ‹_›
  obtain rfl := asmComplete_eq_ok ok
  refine ⟨fits, rfl, ?_⟩
  have modified : ({ st with
      code :=
        st.code.modify pc fun word => { word with cell := .arg ((st.code.length : Int) - pc) } }
        : CEnv).cells = st.cells.set pc (.arg ((after.length : Int) + 1)) := by
    rw [delta]
    apply ext_getElem?
    intro i
    by_cases at_pc : pc = i
    · subst at_pc
      simp only [CEnv.cells, List.getElem?_map, List.getElem?_modify_eq, List.getElem?_set_self']
      cases st.code[pc]? <;> rfl
    · simp only [CEnv.cells, List.getElem?_map, List.getElem?_modify_ne _ _ at_pc,
        List.getElem?_set_ne at_pc]
  rw [modified, cells, place]
  simp only [instrCells, map_append, map_cons, map_nil, append_assoc,
    cons_append, nil_append]
  rw [set_append_right _ _ (by omega),
    show before.length + 1 + ns.length - before.length = ns.length + 1 by omega, set_cons_succ,
    set_append_right _ _ (by simp)]
  simp

theorem skip_adds {jump : CM Nat} [branching : Branching jump op]
    {code : Option Opcode} {label : Nat} {st₁ st₂ st₃ : CEnv}
    (okJump : jump st = .ok label st₁) (adds : Adds st₁ st₂)
    (okComplete : asmComplete code label st₂ = .ok r st₃) : AddsFrom op st st₃ := by
  obtain ⟨le, ns, place, cells, whole, only⟩ := branching.emits okJump
  obtain ⟨le', body, cells', formed⟩ := adds
  obtain ⟨fits, constants, cells₃⟩ := asmComplete_cells op ns st.cells body okComplete
    (by rw [cells', cells]) (by rw [place]; simp [CEnv.cells])
  refine ⟨by rw [constants]; omega, ns.map Cell.arg ++ [.arg (body.length + 1)] ++ body, ?_, ?_⟩
  · rw [cells₃]
    simp [instrCells]
  · rw [constants]
    have code := Formed.cons ((whole _ fits).mono le') (fun j n kind found => ?_) formed
    · simpa [instrCells] using code
    · obtain rfl := only j _ kind
      obtain rfl : (body.length : Int) + 1 = n := by simpa using found
      refine ⟨ns.length + 2 + body.length, by push_cast; omega, .inl ?_⟩
      simp only [length_append, instrCells_length, length_cons, length_nil]

section

variable {jump : CM Nat} {op : Opcode} {code : Option Opcode}

theorem asmSkip_addsFrom [Branching jump op] {body : CM α} (assembling : Assembling body)
    {st st' : CEnv} {r : Unit}
    (ok : asmSkip jump code body st = .ok r st') : AddsFrom op st st' := by
  simp only [asmSkip, CM.bind_eq_ok] at ok
  obtain ⟨label, st₁, okJump, _, st₂, okBody, okComplete⟩ := ok
  exact skip_adds okJump (assembling.adds okBody) okComplete

theorem asmSkip_assembling [Branching jump op] {body : CM α} (assembling : Assembling body) :
    Assembling (asmSkip jump code body) :=
  ⟨fun ok => (asmSkip_addsFrom assembling ok).adds⟩

theorem asmEither_addsFrom [branching : Branching jump op] {first : CM α} {second : CM β}
    (assembling : Assembling first)
    (assembling' : Assembling second) {st st' : CEnv} {r : Unit}
    (ok : asmEither jump code first second st = .ok r st') : AddsFrom op st st' := by
  simp only [asmEither, CM.bind_eq_ok] at ok
  obtain ⟨label, st₁, okJump, _, st₂, okFirst, exit, st₃, okExit, _, st₄, okComplete, _, st₅,
    okSecond, okComplete'⟩ := ok
  obtain ⟨le, ns, place, cells, whole, only⟩ := branching.emits okJump
  obtain ⟨le₂, body, cells₂, formed⟩ := assembling.adds okFirst
  obtain ⟨le₃, ns', place', cells₃, whole', only'⟩ :=
    (inferInstance : Branching (asmJmp .jmp) .jmp).emits okExit
  obtain rfl : ns' = [] := by
    have length := (whole' 0 (by simp [Fits])).length
    simpa [Opcode.operands] using length
  obtain ⟨fits, constants₄, cells₄⟩ := asmComplete_cells op ns st.cells
    (body ++ instrCells .jmp [0]) okComplete
    (by rw [cells₃, cells₂, cells]; simp) (by rw [place]; simp [CEnv.cells])
  obtain ⟨le₅, other, cells₅, formed'⟩ := assembling'.adds okSecond
  obtain ⟨fits', constants, cells'⟩ := asmComplete_cells .jmp []
    (st.cells ++ instrCells op (ns ++ [((body ++ instrCells .jmp [0]).length : Int) + 1]) ++ body)
    other okComplete' (by rw [cells₅, cells₄]; simp) (by
      have := congrArg List.length cells₂
      rw [cells] at this
      simp only [CEnv.cells, length_map, length_append, instrCells_length] at this
      simp only [place', CEnv.cells, length_map, length_append, instrCells_length,
        length_cons, length_nil]
      simp only [length_cons, length_nil] at this
      omega)
  rw [constants₄] at le₅
  have tail :
    Formed st'.constants.length (instrCells .jmp [(other.length : Int) + 1] ++ other) := by
    rw [constants]
    refine Formed.cons ((whole' _ fits').mono le₅) (fun j n kind found => ?_) formed'
    obtain rfl := only' j _ kind
    obtain rfl : (other.length : Int) + 1 = n := by simpa using found
    refine ⟨2 + other.length, by push_cast; simp only [length_nil]; omega, .inl ?_⟩
    simp only [length_append, instrCells_length, length_cons, length_nil]
  refine ⟨by rw [constants]; omega, ns.map Cell.arg ++ [.arg ((body.length : Int) + 3)] ++
    (body ++ (instrCells .jmp [(other.length : Int) + 1] ++ other)), ?_, ?_⟩
  · rw [cells']
    simp [instrCells, Int.add_assoc]
  · have whole₁ : Whole st'.constants.length op (ns ++ [(body.length : Int) + 3]) := by
      rw [constants]
      refine (whole _ ?_).mono (by omega)
      simpa [Int.add_assoc] using fits
    have front : Formed st'.constants.length body := formed.mono (by rw [constants]; omega)
    have code := Formed.cons whole₁ (fun j n kind found => ?_) (front.append tail)
    · simpa [instrCells] using code
    · obtain rfl := only j _ kind
      obtain rfl : (body.length : Int) + 3 = n := by simpa using found
      have split := boundary_split
        (instrCells op (ns ++ [(body.length : Int) + 3]) ++ body ++
          instrCells .jmp [(other.length : Int) + 1]) formed'.head
      simp only [append_assoc] at split ⊢
      convert split using 1
      simp only [length_append, instrCells_length, length_cons, length_nil]
      push_cast
      omega

theorem asmEither_assembling [Branching jump op] {first : CM α} {second : CM β}
    (assembling : Assembling first)
    (assembling' : Assembling second) : Assembling (asmEither jump code first second) :=
  ⟨fun ok => (asmEither_addsFrom assembling assembling' ok).adds⟩

end

theorem Formed.snoc {ns : List Int} {cells : List Cell}
    (formed : Formed size cells) (whole : Whole size op ns)
    (leads : Leads (cells ++ instrCells op ns) (cells.length + 1) op ns) :
    Formed size (cells ++ instrCells op ns) := by
  refine ⟨formed.head.append (by simpa using Headed.instr op ns []), Consists.append ?_ ?_⟩
  · have := formed.embed [] (instrCells op ns) (.cons op _)
    simpa using this
  · refine Consists.instr whole (by simpa using leads) ⟨_, rfl, .inl ?_⟩
    simp only [length_append, instrCells_length]
    omega

theorem Formed.second {rest : List Cell} {kinds : List OperandKind}
    (formed : Formed size (.op op :: rest)) (all : op.operands = fun _ => kinds) :
    Boundary (.op op :: rest) ((kinds.length + 1 : Nat) : Int) := by
  obtain ⟨ns, -, whole, -, next⟩ := formed.inside 0 op rfl
  have length := whole.length
  rw [all] at length
  convert next using 1
  simp only [length]
  omega

theorem asmJeql_cells {v : Val} {k : Int}
    (ok : (do asmOp .jeql; asmC (.obj v); asmArg k : CM Unit) st = .ok r st') :
    st.constants.length ≤ st'.constants.length ∧ ∃ c : Int,
      st'.cells = st.cells ++ instrCells .jeql [c, k] ∧
        Whole st'.constants.length .jeql [c, k] := by
  rw [← CM.bind_assoc] at ok
  obtain ⟨_, st₁, okFirst, okArg⟩ := CM.bind_eq_ok.mp ok
  obtain ⟨le, ns, cells, length, constant, -⟩ :=
    ((asmOp_emitting .jeql).const (.obj v) rfl).emits okFirst
  obtain rfl := asmArg_eq_ok okArg
  obtain ⟨c, rfl⟩ := length_eq_one_iff.mp length
  have cells' : st₁.code.map Word.cell = st.cells ++ instrCells .jeql [c] := cells
  refine ⟨le, c, by simp [CEnv.cells, cells', instrCells], rfl, ?_, ?_, ?_⟩
  · intro j n kind found
    rcases j with _ | _ | j
    · exact constant 0 n rfl found
    · simp [Opcode.operands] at kind
    · simp [Opcode.operands] at kind
  · intro j n kind
    rcases j with _ | _ | j <;> simp [Opcode.operands] at kind
  · intro j n found free
    rcases j with _ | _ | j
    · simp [Opcode.unchecked] at free
    · simp [Opcode.unchecked] at free
    · simp at found

/-- The tests of a clause but for the last, which takes three words, lead to what
follows that one. -/
theorem caseJumps_inside : ∀ (objects : List Val) {st st' : CEnv} {r : Unit},
    caseJumps objects st = .ok r st' → st.constants.length ≤ st'.constants.length ∧
      ∃ cells, st'.cells = st.cells ++ cells ∧ cells.length = 3 * (objects.length - 1) ∧
        Headed cells ∧ ∀ (size : Nat) before op after, st'.constants.length ≤ size →
          Boundary (before ++ cells ++ .op op :: after)
            ((before.length + cells.length + 3 : Nat) : Int) →
          Consists size (before ++ cells ++ .op op :: after) before.length cells
  | [], st, st', r, ok | [_], st, st', r, ok => by
      obtain ⟨-, rfl⟩ := CM.pure_eq_ok.mp ok
      exact ⟨Nat.le_refl _, [], by simp, rfl, .inl rfl, fun _ _ _ _ _ _ pc op found => by
        simp at found⟩
  | v :: next :: rest, st, st', r, ok => by
      have split : caseJumps (v :: next :: rest) = (do
          asmOp .jeql
          asmC (.obj v)
          asmArg (((next :: rest).length : Int) * 3 + 1) : CM Unit) >>= fun _ =>
            caseJumps (next :: rest) := by
        simp only [caseJumps, CM.bind_assoc]
      rw [split] at ok
      obtain ⟨_, st₁, okFirst, okRest⟩ := CM.bind_eq_ok.mp ok
      obtain ⟨le, c, cells, whole⟩ := asmJeql_cells okFirst
      obtain ⟨le', more, cells', length, head, inside⟩ := caseJumps_inside (next :: rest) okRest
      refine ⟨Nat.le_trans le le', _, by rw [cells', cells, append_assoc], ?_, .instr _ _ _, ?_⟩
      · simp only [length_append, instrCells_length, length, length_cons, length_nil]
        omega
      · intro size before op after bound target
        have around :
          before ++ (instrCells .jeql [c, ((next :: rest).length : Int) * 3 + 1] ++ more) ++
            .op op :: after =
            before ++ instrCells .jeql [c, ((next :: rest).length : Int) * 3 + 1] ++ more ++
              .op op :: after := by
          simp only [append_assoc]
        rw [around] at target ⊢
        refine Consists.append (Consists.instr (whole.mono (by omega)) ?_ ?_) ?_
        · intro j n kind found
          rcases j with _ | _ | j
          · simp [Opcode.operands] at kind
          · cases found
            convert target using 1
            simp only [length_append, instrCells_length, length, length_cons,
              length_nil]
            push_cast
            omega
          · simp at found
        · have split := boundary_split
            (before ++ instrCells .jeql [c, ((next :: rest).length : Int) * 3 + 1])
            (head.append (.cons op after))
          rw [← append_assoc] at split
          convert split using 1
          simp only [length_append, instrCells_length, length_cons, length_nil]
        · have rest := inside size
            (before ++ instrCells .jeql [c, ((next :: rest).length : Int) * 3 + 1]) op
              after bound ?_
          · simpa only [length_append] using rest
          · convert target using 2
            simp only [length_append]
            omega

theorem caseClause_assembling (objects : List Val) (last : Bool) {clause rest : CM Flag}
    (assembling : Assembling clause) (assembling' : last = false → Assembling rest) :
    Assembling (caseClause objects last clause rest) where
  adds {st r st'} ok := by
    obtain ⟨_, st₁, okJumps, okRest⟩ := CM.bind_eq_ok.mp ok
    have second : AddsFrom .jneql st₁ st' := by
      cases last with
      | true => exact asmSkip_addsFrom assembling okRest
      | false => exact asmEither_addsFrom assembling (assembling' rfl) okRest
    obtain ⟨le, jumps, cells, -, head, inside⟩ := caseJumps_inside objects okJumps
    obtain ⟨le', more, cells', formed⟩ := second
    refine ⟨Nat.le_trans le le', jumps ++ .op .jneql :: more, by simp [cells', cells], ?_⟩
    refine ⟨head.append (.cons _ _), Consists.append ?_ ?_⟩
    · have target := (formed.second rfl).embed jumps [] (.inl rfl)
      refine inside _ [] .jneql more le' ?_
      simpa using target
    · have := formed.embed jumps [] (.inl rfl)
      simpa using this

/-- The labels of a TAGBODY that have been completed: `size` in all, with the
forms compiled so far behind them. -/
def Completed (done : List Int) (size : Nat) (body : List Cell) : Prop :=
  ∀ (j : Nat) d, done[j]? = some d → Fits d ∧ ∃ place : Nat, (j : Int) + d = size + place ∧
    Boundary body place

theorem Completed.append {done : List Int} {body more : List Cell}
    (completed : Completed done size body) (head : Headed more) :
    Completed done size (body ++ more) := by
  intro j d found
  obtain ⟨fits, place, sum, boundary⟩ := completed j d found
  refine ⟨fits, place, sum, ?_⟩
  have := boundary.embed [] _ head
  simpa using this

/-- The labels among the items of a TAGBODY. -/
def labelCount (items : List (Val ⊕ Action)) : Nat := items.countP Sum.isLeft

theorem tagLabels_length (items : List (Val ⊕ Action)) : ∀ (nt : Nat) labels,
    (tagLabels items nt labels).length = labels.length + labelCount items := by
  induction items with
  | nil => intro nt labels; rfl
  | cons item items ih =>
    intro nt labels
    cases item with
    | inl label =>
      simp only [tagLabels, ih, labelCount, length_cons, countP_cons, Sum.isLeft_inl,
        if_true]
      omega
    | inr form => simp [tagLabels, ih, labelCount]

/-- The forms among the items of a TAGBODY assemble. -/
def ItemsAssemble (items : List (Val ⊕ Action)) : Prop :=
  ∀ form flags, .inr form ∈ items → Assembling (form flags)

theorem tagbodyItems_cells : ∀ {items : List (Val ⊕ Action)} {st st' : CEnv} {r : Unit}
    {before body : List Cell} {done : List Int} {n : Int} {base : Nat},
    ItemsAssemble items → tagbodyItems items base st = .ok r st' →
    st.cells = before ++
      instrCells .tagbody (n :: (done ++ List.replicate (labelCount items) 0)) ++ body →
    base = before.length + 2 + done.length → Formed st.constants.length body →
    Completed done (done.length + labelCount items) body →
    st.constants.length ≤ st'.constants.length ∧ ∃ labels body',
      st'.cells = before ++ instrCells .tagbody (n :: labels) ++ body' ∧
      labels.length = done.length + labelCount items ∧ Formed st'.constants.length body' ∧
      Completed labels labels.length body'
  | [], st, st', r, before, body, done, n, base, _, ok, cells, _, formed, completed => by
      obtain ⟨-, rfl⟩ := CM.pure_eq_ok.mp ok
      refine ⟨Nat.le_refl _, done, body, ?_, rfl, formed, completed⟩
      simpa [labelCount] using cells
  | .inl label :: items, st, st', r, before, body, done, n, base, assemble, ok, cells, at_base,
      formed, completed => by
      obtain ⟨_, st₁, okComplete, okRest⟩ := CM.bind_eq_ok.mp ok
      have count : labelCount (.inl label :: items) = labelCount items + 1 :=
        countP_cons_of_pos rfl
      rw [count] at cells completed
      obtain ⟨fits, constants, cells₁⟩ := asmComplete_cells .tagbody (n :: done) before
        ((List.replicate (labelCount items) 0).map Cell.arg ++ body) okComplete
        (by rw [cells]; simp [instrCells, replicate_succ]) (by rw [at_base]; simp; omega)
      simp only [length_append, length_map, length_replicate] at fits cells₁
      have completed' : Completed
          (done ++ [(((labelCount items + body.length : Nat) : Int) + 1)])
          (done.length + 1 + labelCount items) body := by
        intro j d found
        by_cases bound : j < done.length
        · rw [List.getElem?_append_left bound] at found
          obtain ⟨fits, place, sum, boundary⟩ := completed j d found
          exact ⟨fits, place, by push_cast at sum ⊢; omega, boundary⟩
        · obtain rfl : j = done.length := by
            have := (List.getElem?_eq_some_iff.mp found).1
            simp only [length_append, length_cons, length_nil] at this
            omega
          rw [List.getElem?_append_right (by omega), Nat.sub_self] at found
          cases found
          exact ⟨fits, body.length, by push_cast; omega, body.length, rfl, .inl rfl⟩
      have assemble' : ItemsAssemble items := fun form flags member =>
        assemble form flags (mem_cons_of_mem _ member)
      have around : st₁.cells = before ++ instrCells .tagbody
          (n :: ((done ++ [((labelCount items + body.length : Nat) : Int) + 1]) ++
            List.replicate (labelCount items) 0)) ++ body := by
        rw [cells₁]
        simp [instrCells]
      obtain ⟨le, labels, body', cells', length, formed', all⟩ :=
        tagbodyItems_cells assemble' okRest around (by rw [at_base]; simp; omega)
          (by rw [constants]; exact formed) (by simpa using completed')
      rw [constants] at le
      refine ⟨le, labels, body', cells', ?_, formed', all⟩
      rw [length, count]
      simp only [length_append, length_cons, length_nil]
      omega
  | .inr form :: items, st, st', r, before, body, done, n, base, assemble, ok, cells, at_base,
      formed, completed => by
      obtain ⟨_, st₁, okForm, okRest⟩ := CM.bind_eq_ok.mp ok
      have count : labelCount (.inr form :: items) = labelCount items :=
        countP_cons_of_neg (by simp)
      rw [count] at cells completed ⊢
      obtain ⟨le, more, cells₁, formed₁⟩ := (assemble form .ignore (by simp)).adds okForm
      have assemble' : ItemsAssemble items := fun form flags member =>
        assemble form flags (mem_cons_of_mem _ member)
      obtain ⟨le', rest⟩ := tagbodyItems_cells assemble' okRest
        (by rw [cells₁, cells, append_assoc]) at_base ((formed.mono le).append formed₁)
        (completed.append formed₁.head)
      exact ⟨Nat.le_trans le le', rest⟩

theorem asmZeros_cells : ∀ (n : Nat) {st st' : CEnv} {r : Unit}, asmZeros n st = .ok r st' →
    st'.constants = st.constants ∧ st'.cells = st.cells ++ List.replicate n (.arg 0)
  | 0, st, st', r, ok => by
      obtain ⟨-, rfl⟩ := CM.pure_eq_ok.mp ok
      simp
  | n + 1, st, st', r, ok => by
      obtain ⟨_, st₁, okArg, okRest⟩ := CM.bind_eq_ok.mp ok
      obtain rfl := asmArg_eq_ok okArg
      obtain ⟨constants, cells⟩ := asmZeros_cells n okRest
      refine ⟨constants, ?_⟩
      rw [cells]
      simp [CEnv.cells, replicate_succ]

theorem Formed.tagbody {labels : List Int} {body : List Cell}
    (fits : Fits (labels.length : Int)) (formed : Formed size body)
    (completed : Completed labels labels.length body) :
    Formed size (instrCells .tagbody ((labels.length : Int) :: labels) ++ body) := by
  have operands : Opcode.operands .tagbody ((labels.length : Int) :: labels) =
      .integer :: List.replicate labels.length .label := by
    simp [Opcode.operands]
  refine Formed.cons ⟨by rw [operands]; simp, ?_, ?_, ?_⟩ ?_ formed
  · intro j n kind
    rw [operands] at kind
    have := mem_of_getElem? kind
    simp at this
  · intro j n kind
    rw [operands] at kind
    have := mem_of_getElem? kind
    simp at this
  · intro j n found _
    cases j with
    | zero =>
      cases found
      exact fits
    | succ j => exact (completed j n found).1
  · intro j n kind found
    rw [operands] at kind
    cases j with
    | zero => simp at kind
    | succ j =>
      obtain ⟨-, place, sum, boundary⟩ := completed j n found
      have inside := boundary.embed
        (instrCells .tagbody ((labels.length : Int) :: labels)) [] (.inl rfl)
      rw [append_nil] at inside
      convert inside using 1
      simp only [instrCells_length, length_cons]
      push_cast
      omega

end Ecl.Interp
