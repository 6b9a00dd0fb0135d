/-! Arithmetic, comparison and conversion operators. -/

namespace SsaOpt

inductive BinaryOp where
  | add | sub | mul | sdiv | udiv | srem | urem | and | or | xor | shl | ashr | lshr
deriving DecidableEq, Repr

inductive CompareOp where
  | eq | ne | slt | sle | sgt | sge | ult | ule | ugt | uge
deriving DecidableEq, Repr

inductive CastOp where
  | trunc | zext | sext | bitcast | inttoptr | ptrtoint | fptosi | sitofp
deriving DecidableEq, Repr

namespace BinaryOp

def all : List BinaryOp :=
  [.add, .sub, .mul, .sdiv, .udiv, .srem, .urem, .and, .or, .xor, .shl, .ashr, .lshr]

def mnemonic : BinaryOp → String
  | .add => "add"
  | .sub => "sub"
  | .mul => "mul"
  | .sdiv => "sdiv"
  | .udiv => "udiv"
  | .srem => "srem"
  | .urem => "urem"
  | .and => "and"
  | .or => "or"
  | .xor => "xor"
  | .shl => "shl"
  | .ashr => "ashr"
  | .lshr => "lshr"

/-- The name that diagnostics give the operator. -/
def label : BinaryOp → String
  | .add => "Add"
  | .sub => "Sub"
  | .mul => "Mul"
  | .sdiv => "SDiv"
  | .udiv => "UDiv"
  | .srem => "SRem"
  | .urem => "URem"
  | .and => "And"
  | .or => "Or"
  | .xor => "Xor"
  | .shl => "Shl"
  | .ashr => "AShr"
  | .lshr => "LShr"

def ofMnemonic? (s : String) : Option BinaryOp := all.find? (·.mnemonic == s)

/-- Swapping the two operands keeps the value. -/
def isCommutative : BinaryOp → Bool
  | .add | .mul | .and | .or | .xor => true
  | _ => false

/-- Division and remainder stop the program when the divisor is zero. -/
def canTrap : BinaryOp → Bool
  | .sdiv | .udiv | .srem | .urem => true
  | _ => false

end BinaryOp

namespace CompareOp

def all : List CompareOp := [.eq, .ne, .slt, .sle, .sgt, .sge, .ult, .ule, .ugt, .uge]

def mnemonic : CompareOp → String
  | .eq => "eq"
  | .ne => "ne"
  | .slt => "slt"
  | .sle => "sle"
  | .sgt => "sgt"
  | .sge => "sge"
  | .ult => "ult"
  | .ule => "ule"
  | .ugt => "ugt"
  | .uge => "uge"

/-- The name that diagnostics give the operator. -/
def label : CompareOp → String
  | .eq => "Eq"
  | .ne => "Ne"
  | .slt => "Slt"
  | .sle => "Sle"
  | .sgt => "Sgt"
  | .sge => "Sge"
  | .ult => "Ult"
  | .ule => "Ule"
  | .ugt => "Ugt"
  | .uge => "Uge"

def ofMnemonic? (s : String) : Option CompareOp := all.find? (·.mnemonic == s)

/-- Swapping the two operands keeps the value. -/
def isCommutative : CompareOp → Bool
  | .eq | .ne => true
  | _ => false

end CompareOp

namespace CastOp

def all : List CastOp := [.trunc, .zext, .sext, .bitcast, .inttoptr, .ptrtoint, .fptosi, .sitofp]

def mnemonic : CastOp → String
  | .trunc => "trunc"
  | .zext => "zext"
  | .sext => "sext"
  | .bitcast => "bitcast"
  | .inttoptr => "inttoptr"
  | .ptrtoint => "ptrtoint"
  | .fptosi => "fptosi"
  | .sitofp => "sitofp"

/-- The name that diagnostics give the operator. -/
def label : CastOp → String
  | .trunc => "Trunc"
  | .zext => "ZExt"
  | .sext => "SExt"
  | .bitcast => "Bitcast"
  | .inttoptr => "IntToPtr"
  | .ptrtoint => "PtrToInt"
  | .fptosi => "FpToSi"
  | .sitofp => "SiToFp"

def ofMnemonic? (s : String) : Option CastOp := all.find? (·.mnemonic == s)

end CastOp

end SsaOpt
