import SsaOpt.Decimal.Layout

/-! Types and literal operands. Floating-point literals are kept as bit patterns, so equality of
literals is identity of the value that the program text denotes; `numericEq` is the numeric
comparison. -/

namespace SsaOpt

/-- Value types carried by instructions. -/
inductive Ty where
  | i1 | i32 | i64 | f32 | f64 | ptr | void
deriving DecidableEq, Repr

namespace Ty

/-- The spelling used in program text. -/
def spelling : Ty → String
  | .i1 => "i1"
  | .i32 => "i32"
  | .i64 => "i64"
  | .f32 => "float"
  | .f64 => "double"
  | .ptr => "ptr"
  | .void => "void"

/-- An instruction of this type names no value. -/
def isVoid (t : Ty) : Bool := t = .void

end Ty

instance : ToString Ty := ⟨Ty.spelling⟩

inductive Literal where
  | i1 (value : Bool)
  | i32 (value : Int32)
  | i64 (value : Int64)
  | f32 (bits : UInt32)
  | f64 (bits : UInt64)
deriving DecidableEq, Repr

namespace Literal

/-- The number denoted by an integer literal. -/
def toInt? : Literal → Option Int
  | .i1 b => some (if b then 1 else 0)
  | .i32 n => some n.toInt
  | .i64 n => some n.toInt
  | .f32 _ | .f64 _ => none

def isInteger (l : Literal) : Bool := l.toInt?.isSome

/-- Equality that compares floating-point literals as numbers. -/
def numericEq : Literal → Literal → Bool
  | .f32 a, .f32 b => Decimal.single.numericEq a.toNat b.toNat
  | .f64 a, .f64 b => Decimal.double.numericEq a.toNat b.toNat
  | a, b => a = b

/-- Floating-point literals are positional from `0.0001` up to, not including, `1e16`. -/
def layout : Decimal.Layout where
  plainFrom := -4
  plainBelow := 16
  nan := "NaN"
  infinity := "inf"

def render : Literal → String
  | .i1 b => if b then "true" else "false"
  | .i32 n => toString n.toInt
  | .i64 n => toString n.toInt
  | .f32 bits => layout.render Decimal.single bits.toNat
  | .f64 bits => layout.render Decimal.double bits.toNat

end Literal

instance : ToString Literal := ⟨Literal.render⟩

end SsaOpt
