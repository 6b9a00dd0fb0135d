import SsaOpt.Fault
import SsaOpt.Literal

/-! Functions in static single assignment form.

A function owns two arenas, one of blocks and one of instructions. Handles are never reused: an
erased instruction stays in its arena, marked so. Blocks are laid out in creation order, and the
first is the entry. -/

namespace SsaOpt

structure Instruction where
  op : Opcode
  ty : Ty
  operands : List Operand := []
  /-- One edge for each operand slot that reads this instruction. -/
  uses : List Use := []
  /-- The block that lists the instruction, if it stands in one. -/
  home : Option BlockId := none
  erased : Bool := false
deriving DecidableEq, Repr

structure BasicBlock where
  /-- Program order. -/
  insts : List InstId := []
  /-- Predecessors recorded when terminators were emitted. -/
  preds : List BlockId := []
deriving DecidableEq, Repr

structure Func where
  name : String
  returnType : Ty
  params : List Ty
  /-- A declaration has no body of its own. -/
  isDeclaration : Bool := false
  blocks : Array BasicBlock := #[]
  insts : Array Instruction := #[]
deriving DecidableEq, Repr

namespace Func

/-- The data of an instruction. -/
def inst (f : Func) (i : InstId) : Checked Instruction := Checked.ofOption f.insts[i.index]?

/-- The data of a block. -/
def block (f : Func) (b : BlockId) : Checked BasicBlock := Checked.ofOption f.blocks[b.index]?

def numBlocks (f : Func) : Nat := f.blocks.size

/-- All blocks in layout order. -/
def blockIds (f : Func) : List BlockId := BlockId.upTo f.blocks.size

/-- All instructions ever created. -/
def instIds (f : Func) : List InstId := (List.range f.insts.size).map InstId.mk

def modifyInst (f : Func) (i : InstId) (g : Instruction → Instruction) : Func :=
  { f with insts := f.insts.modify i.index g }

def modifyBlock (f : Func) (b : BlockId) (g : BasicBlock → BasicBlock) : Func :=
  { f with blocks := f.blocks.modify b.index g }

theorem inst_eq_ok_iff {f : Func} {i : InstId} {x : Instruction} :
    f.inst i = .ok x ↔ f.insts[i.index]? = some x := by
  simp only [inst]
  cases f.insts[i.index]? <;> simp [Checked.ofOption]

theorem block_eq_ok_iff {f : Func} {b : BlockId} {x : BasicBlock} :
    f.block b = .ok x ↔ f.blocks[b.index]? = some x := by
  simp only [block]
  cases f.blocks[b.index]? <;> simp [Checked.ofOption]

/-- Every instruction that stands in a block, in layout order. -/
def placed (f : Func) : List InstId := f.blocks.toList.flatMap BasicBlock.insts

/-- The last instruction of the block if it ends the block. -/
def terminator? (f : Func) (b : BlockId) : Checked (Option InstId) := do
  match (← f.block b).insts.getLast? with
  | none => pure none
  | some i => pure (if (← f.inst i).op.isTerminator then some i else none)

/-- Where control may go from the end of the block. -/
def successors (f : Func) (b : BlockId) : Checked (List BlockId) := do
  match ← f.terminator? b with
  | none => pure []
  | some i => pure (← f.inst i).op.successors

/-- The place of an instruction in the list of its block. -/
def position? (f : Func) (i : InstId) : Checked (Option Nat) := do
  match (← f.inst i).home with
  | none => pure none
  | some b => pure ((← f.block b).insts.idxOf? i)

/-- The instructions that `i` reads, by slot. -/
def reads (f : Func) (i : InstId) : List InstId :=
  (f.insts[i.index]?.map fun x => x.operands.filterMap Operand.inst?).getD []

def isPhi (f : Func) (i : InstId) : Bool := f.insts[i.index]?.any (·.op.isPhi)

/-- The operand in slot `k` of an instruction. -/
def operand (f : Func) (i : InstId) (k : Nat) : Checked Operand := do
  Checked.ofOption (← f.inst i).operands[k]?

end Func

end SsaOpt
