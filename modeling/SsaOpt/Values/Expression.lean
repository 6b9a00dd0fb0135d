import SsaOpt.Func.Basic

/-! What an instruction computes, as a value that can be compared. Equal expressions compute equal
values wherever both are available. -/

namespace SsaOpt

inductive Expression where
  | binary (op : BinaryOp) (ty : Ty) (lhs rhs : Operand)
  | compare (op : CompareOp) (lhs rhs : Operand)
  | cast (op : CastOp) (ty : Ty) (source : Operand)
  | select (ty : Ty) (cond onTrue onFalse : Operand)
  | elementPtr (operands : List Operand)
  | load (ty : Ty) (address : Operand)
  /-- A store or a call; it equals itself only. -/
  | effect (i : InstId)
deriving DecidableEq, Repr

namespace Expression

/-- The two operands, the lesser first if their order does not matter. -/
def ordered (commutative : Bool) (lhs rhs : Operand) : Operand × Operand :=
  if commutative && rhs.precedes lhs then (rhs, lhs) else (lhs, rhs)

/-- The expression of an instruction. Phis, terminators and allocations have none. -/
def ofInst? (f : Func) (i : InstId) : Checked (Option Expression) := do
  let x ← f.inst i
  match x.op with
  | .binary op =>
    let (lhs, rhs) := ordered op.isCommutative (← f.operand i 0) (← f.operand i 1)
    pure (some (.binary op x.ty lhs rhs))
  | .compare op =>
    let (lhs, rhs) := ordered op.isCommutative (← f.operand i 0) (← f.operand i 1)
    pure (some (.compare op lhs rhs))
  | .cast op => pure (some (.cast op x.ty (← f.operand i 0)))
  | .select =>
    pure (some (.select x.ty (← f.operand i 0) (← f.operand i 1) (← f.operand i 2)))
  | .elementPtr => pure (some (.elementPtr x.operands))
  | .load => pure (some (.load x.ty (← f.operand i 0)))
  | .store | .call _ => pure (some (.effect i))
  | .alloca _ | .phi _ | .memPhi _ | .jump _ | .branch _ _ | .ret => pure none

end Expression

end SsaOpt
