import Mathlib.Data.List.Basic

namespace Ecl

/-- Symbols, with the part of symbol.stype the bytecode compiler reads. The
keywords that head the records of a compiler environment, T,
:ALLOW-OTHER-KEYS and the uninterned FUNCTION that marks the boundary of a
function are named; every other symbol carries a serial number. -/
inductive Sym where
  | t
  | functionMark
  | kBlock
  | kTag
  | kFunction
  | kDeclare
  | kAllowOtherKeys
  | keyword (serial : Nat)
  | constant (serial : Nat)
  | special (serial : Nat)
  | ordinary (serial : Nat)
  deriving DecidableEq

/-- ecl_symbol_type(var) & stp_special. -/
def Sym.isSpecial : Sym → Bool
  | .special _ => true
  | _ => false

/-- ecl_symbol_type(var) & stp_constant: T, the keywords and DEFCONSTANTs. -/
def Sym.isConstant : Sym → Bool
  | .special _ | .ordinary _ | .functionMark => false
  | _ => true

/-- A cl_object as far as the interpreter can tell objects apart. Functions,
conses and all other heap objects are addresses, so that equality is EQL. -/
inductive Val where
  | nil
  | sym (name : Sym)
  | fixnum (value : Int)
  | cfun (name : Sym)
  | closure (address : Nat)
  | cons (address : Nat)
  | object (address : Nat)
  deriving DecidableEq

namespace Val

abbrev t : Val := .sym .t

instance : Inhabited Val := ⟨nil⟩

/-- SYMBOLP: NIL is a symbol. -/
def symbolp : Val → Bool
  | .nil | .sym _ => true
  | _ => false

end Val

end Ecl
