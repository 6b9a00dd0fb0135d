import SsaOpt.Opcode

/-! Faults: misuse of an operation, which ends the computation that contains it. -/

namespace SsaOpt

inductive Fault where
  /-- A handle or an operand slot that does not exist. -/
  | outOfBounds
  /-- An instruction was emitted before a block was chosen. -/
  | noCurrentBlock
  | alreadyPlaced (i : InstId)
  /-- The instruction to insert before stands in no block. -/
  | unplacedTarget (i : InstId)
  | eraseWithUses (i : InstId)
  /-- An incoming edge was added to an instruction that is no phi. -/
  | notPhi (i : InstId) (op : Opcode)
  /-- The meet of two blocks was asked for and one of them is unreachable. -/
  | unreachableMeet
  /-- Movable instructions read each other in a circle. -/
  | floatingCycle
  /-- A scope was closed and none was open. -/
  | noOpenScope
  /-- An iteration ran past the bound within which it settles. -/
  | unsettled
deriving DecidableEq, Repr

def Fault.message : Fault → String
  | .outOfBounds => "out of bounds"
  | .noCurrentBlock => "FunctionBuilder used before switch_to_block"
  | .alreadyPlaced i => s!"{i} is already placed"
  | .unplacedTarget i => s!"insertion point {i} is not placed"
  | .eraseWithUses i => s!"erasing {i} which still has uses"
  | .notPhi i op => s!"{i} is not a phi: {op.label}"
  | .unreachableMeet => "lca of unreachable block"
  | .floatingCycle => "assertion `left == right` failed: cycle among floating instructions"
  | .noOpenScope => "pop_scope without push_scope"
  | .unsettled => "iteration does not settle"

/-- A result, or the fault that prevented it. -/
abbrev Checked := Except Fault

/-- The value, or an out-of-bounds fault if there is none. -/
def Checked.ofOption {α : Type} : Option α → Checked α
  | some a => .ok a
  | none => .error .outOfBounds

end SsaOpt
