import Ecl.Interp.Translate

/- When the functions of the compiler return. -/
namespace Ecl.Interp

namespace CM

variable {α β : Type} {st st' : CEnv}

theorem bind_eq_ok {a : CM α} {f : α → CM β} {r : β} :
    (a >>= f) st = .ok r st' ↔ ∃ b st₁, a st = .ok b st₁ ∧ f b st₁ = .ok r st' := by
  change CM.bind a f st = .ok r st' ↔ _
  unfold CM.bind
  cases a st with
  | ok b st₁ => simp
  | error reason st₁ => simp

theorem bind_assoc {γ : Type} {a : CM α} {f : α → CM β} {g : β → CM γ} :
    (a >>= f) >>= g = a >>= fun x => f x >>= g := by
  funext st
  change CM.bind (CM.bind a f) g st = CM.bind a (fun x => CM.bind (f x) g) st
  unfold CM.bind
  cases a st <;> rfl

theorem pure_eq_ok {a r : α} : (Pure.pure a : CM α) st = .ok r st' ↔ a = r ∧ st = st' := by
  change CResult.ok a st = .ok r st' ↔ _
  simp

theorem get_eq_ok {env : CEnv} : CM.get st = .ok env st' ↔ st = env ∧ st = st' := by
  unfold CM.get
  simp

theorem modify_eq_ok {change : CEnv → CEnv} {r : Unit} :
    CM.modify change st = .ok r st' ↔ change st = st' := by
  unfold CM.modify
  simp

theorem fail_eq_ok {reason : CompileError} {r : α} : CM.fail reason st = .ok r st' ↔ False := by
  unfold CM.fail
  simp

end CM

variable {st st' : CEnv} {r : Unit}

theorem asmArg_eq_ok {n : Int} (ok : asmArg n st = .ok r st') :
    st' = { st with code := st.code ++ [⟨.arg n, st.marks⟩], marks := [] } :=
  (CM.modify_eq_ok.mp ok).symm

theorem asmOp2_eq_ok {code : Opcode} {n : Int} (ok : asmOp2 code n st = .ok r st') :
    st' = { st with code := st.code ++ [⟨.op code, st.marks⟩, ⟨.arg n, []⟩], marks := [] } := by
  unfold asmOp2 at ok
  split at ok
  · cases ok
  · obtain ⟨_, _, okOp, okArg⟩ := CM.bind_eq_ok.mp ok
    obtain rfl := CM.modify_eq_ok.mp okOp
    rw [asmArg_eq_ok okArg]
    simp

theorem cRegisterConstant_eq_ok {c : Const} {n : Nat} (ok : cRegisterConstant c st = .ok n st') :
    st' = { st with constants := st'.constants } ∧ st.constants <+: st'.constants ∧
      ∃ other, st'.constants[n]? = some other ∧ (other = c ∨ other.eql c = true) := by
  unfold cRegisterConstant at ok
  split at ok
  · rename_i found
    cases ok
    obtain ⟨bound, equal, -⟩ := List.findIdx?_eq_some_iff_getElem.mp found
    exact ⟨rfl, List.prefix_rfl, _, List.getElem?_eq_getElem bound, .inr equal⟩
  · cases ok
    exact ⟨rfl, List.prefix_append _ _, c, by simp, .inl rfl⟩

theorem Const.not_eql {c other : Const} (notObject : ∀ v, c ≠ .obj v) : ¬other.eql c = true := by
  cases c with
  | obj v => exact absurd rfl (notObject v)
  | _ => cases other <;> simp [Const.eql]

theorem asmComplete_eq_ok {op : Option Opcode} {pc : Nat} (ok : asmComplete op pc st = .ok r st') :
    st' = { st with
      code :=
        st.code.modify pc fun word =>
        { word with cell := .arg ((st.code.length : Int) - pc) } } := by
  unfold asmComplete at ok
  split at ok
  · cases ok
  · dsimp only at ok
    split at ok
    · cases ok
    · cases ok
      rfl

theorem cVarRef_eq_ok {var : Sym} {allow : Bool} {ref : VarRef}
    (ok : cVarRef var allow st = .ok ref st') :
    varRefLoop (some var) allow st.vars 0 = some ref ∧ st' = st := by
  unfold cVarRef at ok
  split at ok
  · rename_i found
    cases ok
    exact ⟨found, rfl⟩
  · cases ok

theorem cTagRef_eq_ok {tag : Tag} {ref : Option (Nat × Nat)} (ok : cTagRef tag st = .ok ref st') :
    (∃ index number vars, tagRefLoop tag st.vars 0 = some (index, number, vars) ∧
      ref = some (index, number) ∧ st' = { st with vars := vars }) ∨
      tagRefLoop tag st.vars 0 = none ∧ ref = none ∧ st' = st := by
  unfold cTagRef at ok
  split at ok
  · rename_i found
    cases ok
    exact .inl ⟨_, _, _, found, rfl, rfl⟩
  · rename_i missing
    cases ok
    exact .inr ⟨missing, rfl, rfl⟩

theorem asmJmp_eq_ok {op : Opcode} {label : Nat} (ok : asmJmp op st = .ok label st') :
    label = st.code.length + 1 ∧
      st' = { st with code := st.code ++ [⟨.op op, st.marks⟩, ⟨.arg 0, []⟩], marks := [] } := by
  simp only [asmJmp, CM.bind_eq_ok, CM.pure_eq_ok] at ok
  obtain ⟨_, st₁, okOp, pc, st₂, okPc, _, st₃, okArg, rfl, rfl⟩ := ok
  obtain rfl := CM.modify_eq_ok.mp okOp
  cases okPc
  rw [asmArg_eq_ok okArg]
  simp

/-- The key of a clause is an object or a list of objects. -/
def CaseTest.tested : CaseTest → Bool
  | .key _ | .keys _ _ => true
  | _ => false

theorem performCCase_tested {test : CaseTest} (tested : test.tested = true) (clause : List Action)
    (args : List (CaseTest × List Action)) (flags : Flag) :
    performCCase ((test, clause) :: args) flags = (do
      caseClause test.objects (args.isEmpty && !flags.useful) (compileBody clause flags)
        (performCCase args flags)
      return flags) := by
  cases test with
  | key v => rfl
  | keys first rest => rfl
  | empty => cases tested
  | otherwise => cases tested

end Ecl.Interp
