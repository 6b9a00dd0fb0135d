import SsaOpt.Func.Edit

/-! Construction of function bodies. A cursor emits at the end of a chosen block, keeps phis in
front, and records predecessors whenever it emits a terminator. -/

namespace SsaOpt

structure Cursor where
  func : Func
  /-- The block that receives instructions. -/
  current : Option BlockId := none

/-- A step of construction. -/
inductive Build where
  | block
  | switch (b : BlockId)
  | binary (op : BinaryOp) (ty : Ty) (lhs rhs : Operand)
  | compare (op : CompareOp) (lhs rhs : Operand)
  | cast (op : CastOp) (ty : Ty) (source : Operand)
  | select (ty : Ty) (cond onTrue onFalse : Operand)
  | elementPtr (base : Operand) (indices : List Operand)
  | load (ty : Ty) (address : Operand)
  | store (value address : Operand)
  | call (callee : String) (ty : Ty) (args : List Operand)
  | alloca (ty : Ty) (count : Nat)
  | phi (ty : Ty)
  | memPhi
  | incoming (phi : InstId) (value : Operand) (source : BlockId)
  | jump (dest : BlockId)
  | branch (cond : Operand) (onTrue onFalse : BlockId)
  | ret (value : Option Operand)
deriving DecidableEq, Repr

/-- What an edit answers. -/
inductive Reply where
  | done
  | block (b : BlockId)
  | inst (i : InstId)
  | count (n : Nat)
deriving DecidableEq, Repr

namespace Cursor

def requireCurrent (c : Cursor) : Checked BlockId :=
  match c.current with
  | some b => .ok b
  | none => .error .noCurrentBlock

/-- A fresh instruction at the end of the current block. -/
def emit (c : Cursor) (op : Opcode) (ty : Ty) (operands : List Operand) :
    Checked (InstId × Cursor) := do
  let b ← c.requireCurrent
  let (i, f) ← c.func.create op ty operands
  pure (i, { c with func := ← f.append i b })

/-- How many phis stand at the head of a list of instructions. -/
def leadingPhis (f : Func) : List InstId → Checked Nat
  | [] => pure 0
  | i :: rest => do
    if (← f.inst i).op.isPhi then pure ((← leadingPhis f rest) + 1) else pure 0

/-- A fresh phi after the phis of the current block. -/
def emitPhi (c : Cursor) (op : Opcode) (ty : Ty) : Checked (InstId × Cursor) := do
  let b ← c.requireCurrent
  let k ← leadingPhis c.func (← c.func.block b).insts
  let (i, f) ← c.func.create op ty []
  pure (i, { c with func := ← f.insertAt i b k })

/-- A fresh terminator; its targets record the current block as a predecessor. -/
def emitTerminator (c : Cursor) (op : Opcode) (operands : List Operand) :
    Checked (InstId × Cursor) := do
  let b ← c.requireCurrent
  let (i, c) ← c.emit op .void operands
  let f ← op.successors.foldlM (fun f s => f.addPred s b) c.func
  pure (i, { c with func := f })

/-- One more incoming edge of a phi. -/
def addIncoming (c : Cursor) (phi : InstId) (value : Operand) (source : BlockId) :
    Checked Cursor := do
  let f ← c.func.pushIncoming phi source
  pure { c with func := ← f.pushOperand phi value }

/-- Perform one step. -/
def build (c : Cursor) : Build → Checked (Reply × Cursor)
  | .block =>
    let (b, f) := c.func.addBlock
    pure (.block b, { c with func := f })
  | .switch b => pure (.done, { c with current := some b })
  | .binary op ty lhs rhs => named (c.emit (.binary op) ty [lhs, rhs])
  | .compare op lhs rhs => named (c.emit (.compare op) .i1 [lhs, rhs])
  | .cast op ty source => named (c.emit (.cast op) ty [source])
  | .select ty cond onTrue onFalse => named (c.emit .select ty [cond, onTrue, onFalse])
  | .elementPtr base indices => named (c.emit .elementPtr .ptr (base :: indices))
  | .load ty address => named (c.emit .load ty [address])
  | .store value address => named (c.emit .store .void [value, address])
  | .call callee ty args => named (c.emit (.call callee) ty args)
  | .alloca ty count => named (c.emit (.alloca count) ty [])
  | .phi ty => named (c.emitPhi (.phi []) ty)
  | .memPhi => named (c.emitPhi (.memPhi []) .void)
  | .incoming phi value source => do pure (.done, ← c.addIncoming phi value source)
  | .jump dest => named (c.emitTerminator (.jump dest) [])
  | .branch cond onTrue onFalse => named (c.emitTerminator (.branch onTrue onFalse) [cond])
  | .ret value => named (c.emit .ret .void value.toList)
where
  named (r : Checked (InstId × Cursor)) : Checked (Reply × Cursor) := do
    let (i, c) ← r
    pure (.inst i, c)

end Cursor

end SsaOpt
