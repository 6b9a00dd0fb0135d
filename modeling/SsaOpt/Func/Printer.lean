import SsaOpt.Func.Basic

/-! Program text of instructions and functions. -/

namespace SsaOpt

def renderOperands (os : List Operand) : String := ", ".intercalate (os.map Operand.render)

/-- The pairs of a phi. -/
def renderIncoming (os : List Operand) (bs : List BlockId) : String :=
  ", ".intercalate ((os.zip bs).map fun (o, b) => s!"[ {o}, {b} ]")

/-- An instruction without the name of its value. -/
def Instruction.body (x : Instruction) : String :=
  let os := renderOperands x.operands
  match x.op with
  | .binary op => s!"{op.mnemonic} {x.ty} {os}"
  | .compare op => s!"icmp {op.mnemonic} {os}"
  | .cast op => s!"{op.mnemonic} {os} to {x.ty}"
  | .select => s!"select {x.ty} {os}"
  | .elementPtr => s!"getelementptr {os}"
  | .load => s!"load {x.ty}, {os}"
  | .store => s!"store {os}"
  | .call callee => s!"call {x.ty} @{callee}({os})"
  | .alloca count => s!"alloca [{count} x {x.ty}]"
  | .phi bs => s!"phi {x.ty} {renderIncoming x.operands bs}"
  | .memPhi bs => s!"memphi {x.ty} {renderIncoming x.operands bs}"
  | .jump dest => s!"br {dest}"
  | .branch onTrue onFalse => s!"br {os}, {onTrue}, {onFalse}"
  | .ret => if x.operands.isEmpty then "ret" else s!"ret {os}"

/-- The line of instruction `i`. -/
def Instruction.render (i : InstId) (x : Instruction) : String :=
  if x.ty.isVoid then x.body else s!"{i} = {x.body}"

namespace Func

/-- The line of an instruction. -/
def renderInst (f : Func) (i : InstId) : Checked String := do
  pure ((← f.inst i).render i)

private def renderBlock (f : Func) (b : BlockId) : Checked String := do
  let lines ← (← f.block b).insts.mapM f.renderInst
  pure (s!"{b}:\n" ++ String.join (lines.map fun l => s!"  {l}\n"))

private def header (f : Func) : String :=
  let keyword := if f.isDeclaration then "declare" else "define"
  let params := ", ".intercalate (f.params.zipIdx.map fun (t, k) => s!"{t} %arg{k}")
  s!"{keyword} {f.returnType} @{f.name}({params})"

/-- The whole function. -/
def render (f : Func) : Checked String := do
  if f.isDeclaration then pure (f.header ++ "\n")
  else
    let blocks ← f.blockIds.mapM f.renderBlock
    pure (f.header ++ " \x7b\n" ++ String.join blocks ++ "\x7d\n")

end Func

end SsaOpt
