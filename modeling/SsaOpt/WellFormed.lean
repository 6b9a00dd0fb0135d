import SsaOpt.Analysis
import SsaOpt.Rejection

/-! Well-formedness of functions: the shape of blocks, agreement of operand slots and use edges, the
shape of phis, and dominance of uses by definitions. The first violation found is reported. -/

namespace SsaOpt

namespace Func

def reject {α : Type} (f : Func) (place : Place) (defect : Defect) : Except Halt α :=
  .error (.rejected (.malformed f.name place defect))

/-- The instructions of block `b` that are still to be checked. `phisOnly` holds while only phis
have been met. -/
def checkListed (f : Func) (b : BlockId) : Bool → List InstId → Except Halt Unit
  | _, [] => pure ()
  | phisOnly, i :: rest => do
    let x ← f.inst i
    if x.erased then f.reject (.block b) (.erasedListed i)
    else if x.home ≠ some b then f.reject (.block b) (.staleHome i)
    else if x.op.isPhi && !phisOnly then f.reject (.block b) (.latePhi i)
    else if x.op.isTerminator && !rest.isEmpty then f.reject (.block b) (.earlyTerminator i)
    else f.checkListed b (phisOnly && x.op.isPhi) rest

/-- Phis first, one terminator, at the end; every listed instruction is live and at home here. -/
def checkShape (f : Func) (b : BlockId) : Except Halt Unit := do
  let insts := (← f.block b).insts
  match insts.getLast? with
  | none => f.reject (.block b) .emptyBlock
  | some last =>
    if !(← f.inst last).op.isTerminator then f.reject (.block b) .unterminated
    else f.checkListed b true insts

/-- A slot that reads an instruction reads a live one, which records the edge. -/
def checkSlot (f : Func) (i : InstId) (o : Operand) (slot : Nat) : Except Halt Unit :=
  match o with
  | .inst d => do
    let x ← f.inst d
    if x.erased then f.reject (.inst i) (.readsErased slot d)
    else if ⟨i, slot⟩ ∉ x.uses then f.reject (.inst i) (.missingEdge slot d)
    else pure ()
  | _ => pure ()

/-- A recorded edge names a slot of a live instruction that reads back. -/
def checkEdge (f : Func) (i : InstId) (u : Use) : Except Halt Unit := do
  let user ← f.inst u.user
  if user.operands[u.index]? ≠ some (.inst i) || user.erased then
    f.reject (.inst i) (.danglingEdge u)
  else pure ()

def checkEdges (f : Func) (i : InstId) : Except Halt Unit := do
  let x ← f.inst i
  x.operands.zipIdx.forM fun (o, slot) => f.checkSlot i o slot
  x.uses.forM (f.checkEdge i)

/-- A phi has one incoming block for each operand, and each is a predecessor. -/
def checkPhi (f : Func) (a : Analysis) (b : BlockId) (i : InstId) : Except Halt Unit := do
  let x ← f.inst i
  match x.op.incoming? with
  | none => pure ()
  | some bs =>
    if bs.length ≠ x.operands.length then
      f.reject (.inst i) (.incomingCount bs.length x.operands.length)
    else
      bs.forM fun p =>
        if p ∈ a.graph.preds b then pure () else f.reject (.inst i) (.incomingStranger p b)

/-- `d` stands before `i` in the block that both share. -/
def standsBefore (f : Func) (d i : InstId) : Checked Bool := do
  match ← f.position? d, ← f.position? i with
  | some m, some n => pure (m < n)
  | none, some _ => pure true
  | _, none => pure false

/-- What slot `slot` of `i` in block `b` reads is defined on every path to the use. -/
def checkAvailable (f : Func) (a : Analysis) (b : BlockId) (i : InstId) (x : Instruction)
    (o : Operand) (slot : Nat) : Except Halt Unit :=
  match o with
  | .inst d => do
    match (← f.inst d).home with
    | none => f.reject (.inst i) (.readsDetached slot d)
    | some home =>
      match x.op.incoming? with
      | some bs => do
        let p ← (Checked.ofOption bs[slot]? : Checked BlockId)
        if a.dom.reachable p && !a.dom.dominates home p then
          f.reject (.inst i) (.edgeNotDominated d home p)
        else pure ()
      | none =>
        if !a.dom.dominates home b then f.reject (.inst i) (.useNotDominated d home b)
        else if home = b && !(← f.standsBefore d i) then f.reject (.inst i) (.usedBefore d)
        else pure ()
  | _ => pure ()

/-- Definitions dominate uses; unreachable blocks are exempt. -/
def checkDominance (f : Func) (a : Analysis) (b : BlockId) (i : InstId) : Except Halt Unit := do
  if a.dom.reachable b then
    let x ← f.inst i
    x.operands.zipIdx.forM fun (o, slot) => f.checkAvailable a b i x o slot
  else pure ()

def checkInst (f : Func) (a : Analysis) (b : BlockId) (i : InstId) : Except Halt Unit := do
  f.checkEdges i
  f.checkPhi a b i
  f.checkDominance a b i

def checkBlock (f : Func) (a : Analysis) (b : BlockId) : Except Halt Unit := do
  f.checkShape b
  (← f.block b).insts.forM (f.checkInst a b)

/-- Check a function; a declaration has nothing to check. -/
def check (f : Func) : Except Halt Unit :=
  if f.isDeclaration then pure ()
  else do
    let a ← Analysis.ofFunc f
    f.blockIds.forM (f.checkBlock a)

end Func

end SsaOpt
