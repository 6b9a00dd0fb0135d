import SsaOpt.Operand
import SsaOpt.Operator
import SsaOpt.Text.Quoted

/-! Operation codes. An opcode carries what an instruction needs besides its operands: the callee,
the element count, the incoming blocks of a phi, the targets of a jump. -/

namespace SsaOpt

inductive Opcode where
  /-- Two operands. -/
  | binary (op : BinaryOp)
  /-- Two operands. -/
  | compare (op : CompareOp)
  /-- One operand. -/
  | cast (op : CastOp)
  /-- Condition, value if true, value if false. -/
  | select
  /-- Base address, then one operand for each index. -/
  | elementPtr
  /-- Address. -/
  | load
  /-- Value, then address. -/
  | store
  /-- Arguments. A call may read and write any memory. -/
  | call (callee : String)
  | alloca (count : Nat)
  /-- One operand for each incoming block. -/
  | phi (incoming : List BlockId)
  /-- Merge of memory states: no machine value, but it differs for each incoming edge. -/
  | memPhi (incoming : List BlockId)
  | jump (dest : BlockId)
  /-- Condition. -/
  | branch (onTrue onFalse : BlockId)
  /-- At most one operand, the value returned. -/
  | ret
deriving DecidableEq, Repr

namespace Opcode

def isTerminator : Opcode → Bool
  | .jump _ | .branch _ _ | .ret => true
  | _ => false

def isPhi : Opcode → Bool
  | .phi _ | .memPhi _ => true
  | _ => false

/-- The value depends on the operands alone. -/
def isPure : Opcode → Bool
  | .binary _ | .compare _ | .cast _ | .select | .elementPtr => true
  | _ => false

/-- The incoming blocks of a phi. -/
def incoming? : Opcode → Option (List BlockId)
  | .phi bs | .memPhi bs => some bs
  | _ => none

/-- Where control may go next; a branch with equal targets has one. -/
def successors : Opcode → List BlockId
  | .jump dest => [dest]
  | .branch onTrue onFalse => if onTrue = onFalse then [onTrue] else [onTrue, onFalse]
  | _ => []

theorem nodup_successors (op : Opcode) : op.successors.Nodup := by
  cases op <;> simp [successors]
  split <;> simp_all

/-- A record in diagnostics: fields between braces. -/
private def labelled (label fields : String) : String := label ++ " \x7b " ++ fields ++ " \x7d"

private def blockList (bs : List BlockId) : String := ", ".intercalate (bs.map toString)

/-- How diagnostics name the opcode. -/
def label : Opcode → String
  | .binary op => s!"Binary({op.label})"
  | .compare op => s!"Cmp({op.label})"
  | .cast op => s!"Cast({op.label})"
  | .select => "Select"
  | .elementPtr => "Gep"
  | .load => "Load"
  | .store => "Store"
  | .call callee => labelled "Call" ("callee: " ++ Text.quoted callee)
  | .alloca count => labelled "Alloca" s!"count: {count}"
  | .phi bs => labelled "Phi" s!"blocks: [{blockList bs}]"
  | .memPhi bs => labelled "MemPhi" s!"blocks: [{blockList bs}]"
  | .jump dest => s!"Jump({dest})"
  | .branch onTrue onFalse => labelled "Branch" s!"then_dest: {onTrue}, else_dest: {onFalse}"
  | .ret => "Ret"

end Opcode

end SsaOpt
