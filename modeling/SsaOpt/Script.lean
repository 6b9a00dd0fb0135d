import SsaOpt.Cursor

/-! Edit scripts: sequences of construction steps and raw edits of one function. -/

namespace SsaOpt

inductive Edit where
  | build (step : Build)
  | create (op : Opcode) (ty : Ty) (operands : List Operand)
  | pushOperand (i : InstId) (o : Operand)
  | replaceUses (i : InstId) (o : Operand)
  | append (i : InstId) (b : BlockId)
  | insertBefore (i target : InstId)
  | detach (i : InstId)
  | erase (i : InstId)
deriving DecidableEq, Repr

namespace Cursor

/-- Perform one edit. -/
def edit (c : Cursor) : Edit → Checked (Reply × Cursor)
  | .build step => c.build step
  | .create op ty operands => do
    let (i, f) ← c.func.create op ty operands
    pure (.inst i, { c with func := f })
  | .pushOperand i o => silent (c.func.pushOperand i o)
  | .replaceUses i o => do
    let (n, f) ← c.func.replaceUses i o
    pure (.count n, { c with func := f })
  | .append i b => silent (c.func.append i b)
  | .insertBefore i target => silent (c.func.insertBefore i target)
  | .detach i => silent (c.func.detach i)
  | .erase i => silent (c.func.erase i)
where
  silent (r : Checked Func) : Checked (Reply × Cursor) := do
    pure (.done, { c with func := ← r })

/-- Perform a whole script; a fault anywhere is the fault of the script. -/
def run (c : Cursor) (script : List Edit) : Checked Cursor :=
  script.foldlM (fun c e => do pure (← c.edit e).2) c

end Cursor

end SsaOpt
