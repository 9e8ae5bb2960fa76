import Ecl.Interp.Environment

/- Code as a row of instructions: each opcode stands before the operands that
GET_OPARG, GET_DATA and GET_LABEL read, and the labels lead to instructions. -/
namespace Ecl.Interp

open List

/-- What reads an operand: GET_OPARG, GET_DATA or GET_LABEL. OP_FLET and
OP_LABELS take one for the index of the first of several functions. -/
inductive OperandKind where
  | integer
  | constant
  | functions
  | label
  deriving DecidableEq

/-- The operands of an instruction. OP_TAGBODY is followed by as many labels as
its first operand says. -/
def Opcode.operands (op : Opcode) (ns : List Int) : List OperandKind :=
  match op with
  | .quote | .vars | .pushvs | .pushq | .callg1 | .callg2 | .pushkeys | .function | .close
  | .bind | .pbind | .binds | .pbinds | .setqs | .psetqs | .block => [.constant]
  | .var | .list | .listA | .int | .pint | .pushv | .call | .fcall | .lfunction | .return
  | .unbind | .unbinds | .setq | .psetq | .values => [.integer]
  | .callg | .vbind | .vbinds => [.integer, .constant]
  | .flet | .labels => [.integer, .functions]
  | .go | .vsetq => [.integer, .integer]
  | .vsetqs => [.constant, .integer]
  | .jeql | .jneql => [.constant, .label]
  | .jmp | .jnil | .jt | .frame | .protect => [.label]
  | .tagbody => .integer :: List.replicate (ns.headD 0).toNat .label
  | _ => []

/-- The operands, counted from 0, that are pushed by asm_arg and asm_c, which do
not test their range, and not completed later. -/
def Opcode.unchecked : Opcode → Nat → Bool
  | .callg, 1 | .jeql, 0 | .jeql, 1 | .jneql, 0 | .bind, 0 | .binds, 0 | .vbind, 1 | .vbinds, 1
  | .vsetq, 1 | .vsetqs, 1 | .go, 1 | .flet, 1 | .labels, 1 | .jt, 0 | .jnil, 0 => true
  | _, _ => false

/-- The range of int16_t. -/
def Fits (n : Int) : Prop := -0x8000 ≤ n ∧ n < 0x8000

instance (n : Int) : Decidable (Fits n) := inferInstanceAs (Decidable (_ ∧ _))

theorem bmod_eq_iff {n : Int} : n.bmod 0x10000 = n ↔ Fits n := by
  unfold Fits Int.bmod
  constructor
  · intro same
    dsimp only at same
    split at same <;> omega
  · rintro ⟨lower, upper⟩
    dsimp only
    split <;> omega

theorem fits_of_maxOparg {n : Int} (range : ¬(n < -maxOparg ∨ maxOparg < n)) : Fits n := by
  unfold maxOparg at range
  unfold Fits
  omega

/-- Where an instruction starts, or the end. -/
def Boundary (cells : List Cell) (place : Int) : Prop :=
  ∃ pc : Nat, place = pc ∧ (pc = cells.length ∨ ∃ op, cells[pc]? = some (.op op))

/-- Code does not start with an operand. -/
def Headed (cells : List Cell) : Prop := cells = [] ∨ ∃ op rest, cells = .op op :: rest

/-- The operands of one instruction, for a data vector of some size. -/
structure Whole (size : Nat) (op : Opcode) (ns : List Int) : Prop where
  length : ns.length = (op.operands ns).length
  constant : ∀ (j : Nat) n, (op.operands ns)[j]? = some .constant → ns[j]? = some n →
    0 ≤ n ∧ n < size
  functions : ∀ (j : Nat) n, (op.operands ns)[j]? = some .functions → ns[j]? = some n →
    0 ≤ n ∧ n + ns.headD 0 ≤ size
  checked : ∀ (j : Nat) n, ns[j]? = some n → op.unchecked j = false → Fits n

/-- The labels of an instruction whose operands begin at `place`. -/
def Leads (cells : List Cell) (place : Nat) (op : Opcode) (ns : List Int) : Prop :=
  ∀ (j : Nat) n, (op.operands ns)[j]? = some .label → ns[j]? = some n →
    Boundary cells (((place + j : Nat) : Int) + n)

/-- A part of the code, from a place on, consists of instructions. -/
def Consists (size : Nat) (cells : List Cell) (start : Nat) (part : List Cell) : Prop :=
  ∀ (pc : Nat) op, part[pc]? = some (.op op) → ∃ ns : List Int,
    ns.map Cell.arg <+: part.drop (pc + 1) ∧ Whole size op ns ∧
      Leads cells (start + pc + 1) op ns ∧
      Boundary cells ((start + pc + 1 + ns.length : Nat) : Int)

/-- Code made of instructions whose labels do not lead out of it. -/
structure Formed (size : Nat) (cells : List Cell) : Prop where
  head : Headed cells
  inside : Consists size cells 0 cells

variable {size : Nat} {ns : List Int}

theorem Whole.mono {more : Nat} (whole : Whole size op ns) (le : size ≤ more) :
    Whole more op ns := by
  refine ⟨whole.length, fun j n kind found => ?_, fun j n kind found => ?_, whole.checked⟩
  · have := whole.constant j n kind found
    omega
  · have := whole.functions j n kind found
    omega

theorem Formed.mono {more : Nat} {cells : List Cell} (formed : Formed size cells)
    (le : size ≤ more) : Formed more cells := by
  refine ⟨formed.head, fun pc op found => ?_⟩
  obtain ⟨ns, args, whole, leads, next⟩ := formed.inside pc op found
  exact ⟨ns, args, whole.mono le, leads, next⟩

theorem Headed.append {cells more : List Cell} (first : Headed cells) (second : Headed more) :
    Headed (cells ++ more) := by
  obtain rfl | ⟨op, rest, rfl⟩ := first
  · exact second
  · exact .inr ⟨op, rest ++ more, rfl⟩

theorem Headed.cons (op : Opcode) (rest : List Cell) : Headed (.op op :: rest) :=
  .inr ⟨op, rest, rfl⟩

theorem boundary_split (before : List Cell) {after : List Cell} (head : Headed after) :
    Boundary (before ++ after) before.length := by
  refine ⟨before.length, rfl, ?_⟩
  obtain rfl | ⟨op, rest, rfl⟩ := head
  · exact .inl (by simp)
  · exact .inr ⟨op, by simp⟩

theorem Boundary.embed {cells : List Cell} {place : Int} (boundary : Boundary cells place)
    (before after : List Cell) (head : Headed after) :
    Boundary (before ++ cells ++ after) (before.length + place) := by
  obtain ⟨pc, rfl, rfl | ⟨op, found⟩⟩ := boundary
  · have split := boundary_split (before ++ cells) head
    simpa using split
  · refine ⟨before.length + pc, by simp, .inr ⟨op, ?_⟩⟩
    have bound := (List.getElem?_eq_some_iff.mp found).1
    rw [List.getElem?_append_left (by simp; omega), List.getElem?_append_right (by omega)]
    simpa using found

theorem Formed.embed {cells : List Cell} (formed : Formed size cells)
    (before after : List Cell) (head : Headed after) :
      Consists size (before ++ cells ++ after) before.length cells := by
  intro pc op found
  obtain ⟨ns, args, whole, leads, next⟩ := formed.inside pc op found
  refine ⟨ns, args, whole, fun j n kind at_j => ?_, ?_⟩
  · have := (leads j n kind at_j).embed before _ head
    convert this using 1
    push_cast
    omega
  · have := next.embed before _ head
    convert this using 1
    push_cast
    omega

theorem Consists.append {start : Nat} {cells first second : List Cell}
    (inside : Consists size cells start first)
    (inside' : Consists size cells (start + first.length) second) :
    Consists size cells start (first ++ second) := by
  intro pc op found
  by_cases bound : pc < first.length
  · rw [List.getElem?_append_left bound] at found
    obtain ⟨ns, args, rest⟩ := inside pc op found
    refine ⟨ns, ?_, rest⟩
    rw [drop_append_of_le_length (by omega)]
    exact args.trans (prefix_append _ _)
  · rw [List.getElem?_append_right (by omega)] at found
    obtain ⟨ns, args, whole, leads, next⟩ := inside' _ op found
    rw [show start + first.length + (pc - first.length) = start + pc by omega] at leads next
    refine ⟨ns, ?_, whole, leads, next⟩
    rw [drop_append, drop_eq_nil_of_le (by omega),
      show pc + 1 - first.length = pc - first.length + 1 by omega]
    exact args

/-- The words of one instruction. -/
def instrCells (op : Opcode) (ns : List Int) : List Cell := .op op :: ns.map Cell.arg

@[simp] theorem instrCells_length (op : Opcode) (ns : List Int) :
    (instrCells op ns).length = ns.length + 1 := by simp [instrCells]

theorem Headed.instr (op : Opcode) (ns : List Int) (rest : List Cell) :
    Headed (instrCells op ns ++ rest) := .cons op _

theorem Consists.instr {start : Nat} {cells : List Cell}
    (whole : Whole size op ns) (leads : Leads cells (start + 1) op ns)
    (next : Boundary cells ((start + 1 + ns.length : Nat) : Int)) :
    Consists size cells start (instrCells op ns) := by
  intro pc op' found
  cases pc with
  | zero =>
    cases found
    exact ⟨ns, by simp [instrCells], whole, leads, next⟩
  | succ pc => simp [instrCells] at found

theorem Formed.nil (size : Nat) : Formed size [] :=
  ⟨.inl rfl, fun pc op found => by simp at found⟩

theorem Formed.append {first second : List Cell} (formed : Formed size first)
    (formed' : Formed size second) : Formed size (first ++ second) := by
  refine ⟨formed.head.append formed'.head, Consists.append ?_ ?_⟩
  · have := formed.embed [] _ formed'.head
    simpa using this
  · have := formed'.embed first [] (.inl rfl)
    simpa using this

theorem Formed.instr (whole : Whole size op ns)
    (plain : .label ∉ op.operands ns) : Formed size (instrCells op ns) := by
  refine ⟨.cons op _, Consists.instr whole (fun j n kind _ => ?_) ?_⟩
  · exact absurd (mem_of_getElem? kind) plain
  · refine ⟨_, rfl, .inl ?_⟩
    simp only [instrCells_length]
    omega

theorem Formed.cons {cells : List Cell}
    (whole : Whole size op ns) (leads : Leads (instrCells op ns ++ cells) 1 op ns)
    (formed : Formed size cells) : Formed size (instrCells op ns ++ cells) := by
  refine ⟨.instr op ns cells, Consists.append (Consists.instr whole leads ?_) ?_⟩
  · have split := boundary_split (instrCells op ns) formed.head
    convert split using 1
    simp only [instrCells_length]
    omega
  · have := formed.embed (instrCells op ns) [] (.inl rfl)
    simpa using this

def CEnv.cells (st : CEnv) : List Cell := st.code.map Word.cell

/-- What is added to the code are instructions. -/
def Adds (st st' : CEnv) : Prop :=
  st.constants.length ≤ st'.constants.length ∧
    ∃ cells, st'.cells = st.cells ++ cells ∧ Formed st'.constants.length cells

theorem Adds.of_same {st st' : CEnv} (cells : st'.cells = st.cells)
    (le : st.constants.length ≤ st'.constants.length) : Adds st st' :=
  ⟨le, [], by simp [cells], .nil _⟩

theorem Adds.trans {st st₁ st₂ : CEnv} (first : Adds st st₁) (second : Adds st₁ st₂) :
    Adds st st₂ := by
  obtain ⟨le, cells, eq, formed⟩ := first
  obtain ⟨le', more, eq', formed'⟩ := second
  exact ⟨Nat.le_trans le le', cells ++ more, by simp [eq', eq], (formed.mono le').append formed'⟩

/-- An action that adds whole instructions. -/
class Assembling {α : Type} (a : CM α) : Prop where
  adds : ∀ {st : CEnv} {r : α} {st' : CEnv}, a st = .ok r st' → Adds st st'

section

variable {α β : Type} {a : CM α} {f : α → CM β}

instance Assembling.bind [first : Assembling a] [second : ∀ r, Assembling (f r)] :
    Assembling (a >>= f) where
  adds ok := by
    obtain ⟨b, st₁, okFirst, okSecond⟩ := CM.bind_eq_ok.mp ok
    exact (first.adds okFirst).trans ((second b).adds okSecond)

theorem Assembling.seq (first : Assembling a) (second : ∀ r, Assembling (f r)) :
    Assembling (a >>= f) :=
  inferInstance

theorem Assembling.of_same (same : ∀ {st : CEnv} {r : α} {st' : CEnv}, a st = .ok r st' →
    st'.code = st.code ∧ st.constants.length ≤ st'.constants.length) : Assembling a where
  adds ok := .of_same (by simp [CEnv.cells, (same ok).1]) (same ok).2

instance (r : α) : Assembling (pure r : CM α) := .of_same fun ok => by
  obtain ⟨-, rfl⟩ := CM.pure_eq_ok.mp ok
  exact ⟨rfl, Nat.le_refl _⟩

instance (reason : CompileError) : Assembling (CM.fail reason : CM α) := .of_same fun ok =>
  (CM.fail_eq_ok.mp ok).elim

end

instance : Assembling CM.get := .of_same fun ok => by
  obtain ⟨-, rfl⟩ := CM.get_eq_ok.mp ok
  exact ⟨rfl, Nat.le_refl _⟩

instance (record : Record) : Assembling (cRegister record) := .of_same fun ok => by
  obtain rfl := CM.modify_eq_ok.mp ok
  exact ⟨rfl, Nat.le_refl _⟩

instance (var : Sym) (allow : Bool) : Assembling (cVarRef var allow) := .of_same fun ok => by
  obtain ⟨-, rfl⟩ := cVarRef_eq_ok ok
  exact ⟨rfl, Nat.le_refl _⟩

instance (tag : Tag) : Assembling (cTagRef tag) := .of_same fun ok => by
  obtain ⟨_, _, _, -, -, rfl⟩ | ⟨-, -, rfl⟩ := cTagRef_eq_ok ok <;> exact ⟨rfl, Nat.le_refl _⟩

instance : Assembling mark := .of_same fun ok => by
  obtain rfl := CM.modify_eq_ok.mp ok
  exact ⟨rfl, Nat.le_refl _⟩

/-- An action that emits an opcode with operands of some kinds, which may be
the first ones of an instruction. -/
structure Emitting (op : Opcode) (kinds : List OperandKind) {α : Type} (a : CM α) : Prop where
  emits : ∀ {st : CEnv} {r : α} {st' : CEnv}, a st = .ok r st' →
    st.constants.length ≤ st'.constants.length ∧ ∃ ns : List Int,
      st'.cells = st.cells ++ instrCells op ns ∧ ns.length = kinds.length ∧
      (∀ (j : Nat) n, kinds[j]? = some .constant → ns[j]? = some n →
        0 ≤ n ∧ n < st'.constants.length) ∧
      ∀ (j : Nat) n, ns[j]? = some n → op.unchecked j = false → Fits n

section

variable {α : Type} {op : Opcode} {kinds : List OperandKind} {a : CM α}

theorem asmOp_emitting (op : Opcode) : Emitting op [] (asmOp op) := by
  refine ⟨fun {st r st'} ok => ?_⟩
  obtain rfl := CM.modify_eq_ok.mp ok
  exact ⟨Nat.le_refl _, [], by simp [CEnv.cells, instrCells], rfl, by simp, by simp⟩

theorem asmOp2_fits {op : Opcode} {n : Int} {st st' : CEnv} {r : Unit}
    (ok : asmOp2 op n st = .ok r st') : Fits n := by
  unfold asmOp2 at ok
  split at ok
  · cases ok
  · exact fits_of_maxOparg ‹_›

theorem asmOp2_emitting (op : Opcode) (n : Int) : Emitting op [.integer] (asmOp2 op n) := by
  refine ⟨fun {st r st'} ok => ?_⟩
  have fits := asmOp2_fits ok
  obtain rfl := asmOp2_eq_ok ok
  refine ⟨Nat.le_refl _, [n], by simp [CEnv.cells, instrCells], rfl, ?_, ?_⟩
  · intro j m kind
    cases j <;> simp at kind
  · intro j m found _
    obtain rfl := mem_singleton.mp (mem_of_getElem? found)
    exact fits

theorem cRegisterConstant_bound {c : Const} {n : Nat} {st st' : CEnv}
    (ok : cRegisterConstant c st = .ok n st') :
    st'.cells = st.cells ∧ st.constants.length ≤ st'.constants.length ∧
      n < st'.constants.length := by
  obtain ⟨same, grows, other, found, -⟩ := cRegisterConstant_eq_ok ok
  refine ⟨?_, grows.length_le, (List.getElem?_eq_some_iff.mp found).1⟩
  rw [same]
  rfl

theorem asmOp2c_emitting (op : Opcode) (c : Const) : Emitting op [.constant] (asmOp2c op c) := by
  refine ⟨fun {st r st'} ok => ?_⟩
  obtain ⟨n, st₁, okConst, okOp⟩ := CM.bind_eq_ok.mp ok
  obtain ⟨cells, le, bound⟩ := cRegisterConstant_bound okConst
  have fits := asmOp2_fits okOp
  obtain rfl := asmOp2_eq_ok okOp
  refine ⟨le, [(n : Int)], ?_, rfl, ?_, ?_⟩
  · rw [← cells]
    simp [CEnv.cells, instrCells]
  · intro j m _ found
    obtain rfl := mem_singleton.mp (mem_of_getElem? found)
    exact ⟨by omega, by simpa using bound⟩
  · intro j m found _
    obtain rfl := mem_singleton.mp (mem_of_getElem? found)
    exact fits

theorem Emitting.more {β : Type} {kind : OperandKind} {next : CM β} (first : Emitting op kinds a)
    (unchecked : op.unchecked kinds.length = true)
    (second : ∀ {st : CEnv} {r : β} {st' : CEnv}, next st = .ok r st' →
      st.constants.length ≤ st'.constants.length ∧ ∃ n : Int,
        st'.cells = st.cells ++ [.arg n] ∧ (kind = .constant → 0 ≤ n ∧ n < st'.constants.length)) :
    Emitting op (kinds ++ [kind]) (a >>= fun _ => next) := by
  refine ⟨fun {st r st'} ok => ?_⟩
  obtain ⟨_, st₁, okFirst, okSecond⟩ := CM.bind_eq_ok.mp ok
  obtain ⟨le, ns, cells, length, constant, checked⟩ := first.emits okFirst
  obtain ⟨le', n, cells', constant'⟩ := second okSecond
  refine ⟨Nat.le_trans le le', ns ++ [n], ?_, by simp [length], ?_, ?_⟩
  · simp [cells', cells, instrCells]
  · intro j m at_j found
    by_cases bound : j < ns.length
    · rw [List.getElem?_append_left (by omega)] at at_j found
      have := constant j m at_j found
      omega
    · obtain rfl : j = ns.length := by
        have := (List.getElem?_eq_some_iff.mp found).1
        simp only [length_append, length_cons, length_nil] at this
        omega
      rw [List.getElem?_append_right (by omega), length, Nat.sub_self] at at_j
      rw [List.getElem?_append_right (by omega), Nat.sub_self] at found
      cases found
      exact constant' (by simpa using at_j)
  · intro j m found free
    by_cases bound : j < ns.length
    · rw [List.getElem?_append_left bound] at found
      exact checked j m found free
    · obtain rfl : j = ns.length := by
        have := (List.getElem?_eq_some_iff.mp found).1
        simp only [length_append, length_cons, length_nil] at this
        omega
      rw [length, unchecked] at free
      cases free

theorem Emitting.arg (first : Emitting op kinds a) (n : Int)
    (unchecked : op.unchecked kinds.length = true) :
    Emitting op (kinds ++ [.integer]) (a >>= fun _ => asmArg n) :=
  first.more unchecked fun ok => by
    obtain rfl := asmArg_eq_ok ok
    exact ⟨Nat.le_refl _, n, by simp [CEnv.cells], by simp⟩

theorem Emitting.const (first : Emitting op kinds a) (c : Const)
    (unchecked : op.unchecked kinds.length = true) :
    Emitting op (kinds ++ [.constant]) (a >>= fun _ => asmC c) :=
  first.more unchecked fun ok => by
    obtain ⟨n, st₁, okConst, okArg⟩ := CM.bind_eq_ok.mp ok
    obtain ⟨cells, le, bound⟩ := cRegisterConstant_bound okConst
    obtain rfl := asmArg_eq_ok okArg
    refine ⟨le, n, ?_, fun _ => ⟨by omega, by simpa using bound⟩⟩
    rw [← cells]
    simp [CEnv.cells]

theorem Emitting.assembling (emitting : Emitting op kinds a) (all : op.operands = fun _ => kinds)
    (plain : kinds.all (fun kind => kind = .integer ∨ kind = .constant) = true) :
    Assembling a where
  adds ok := by
    obtain ⟨le, ns, cells, length, constant, checked⟩ := emitting.emits ok
    have plain := all_eq_true.mp plain
    refine ⟨le, _, cells, Formed.instr ⟨?_, ?_, ?_, checked⟩ ?_⟩
    · rw [all]
      exact length
    · rw [all]
      exact constant
    · intro j n kind
      rw [all] at kind
      have := plain _ (mem_of_getElem? kind)
      simp at this
    · intro label
      rw [all] at label
      have := plain _ label
      simp at this

end

end Ecl.Interp
