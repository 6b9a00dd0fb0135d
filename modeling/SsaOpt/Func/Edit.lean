import SsaOpt.Func.Basic

/-! Edits of a function. Each keeps operand slots and use edges in step, and the block lists in
step with the homes of the instructions; each checks the handles it is given in a fixed order. -/

namespace SsaOpt

/-- Overwrite the entry at `k` with the last one and drop the last one. -/
def swapRemove {α : Type} (l : List α) (k : Nat) : List α :=
  match l.getLast? with
  | none => []
  | some last => (l.set k last).dropLast

namespace Func

/-- A fresh, empty block. -/
def addBlock (f : Func) : BlockId × Func :=
  (⟨f.blocks.size⟩, { f with blocks := f.blocks.push {} })

/-- Record a use edge on `d`. -/
def addUse (f : Func) (d : InstId) (u : Use) : Checked Func := do
  let _ ← f.inst d
  pure (f.modifyInst d fun x => { x with uses := x.uses ++ [u] })

/-- Forget a use edge of `d`. -/
def dropUse (f : Func) (d : InstId) (u : Use) : Checked Func := do
  match (← f.inst d).uses.idxOf? u with
  | none => pure f
  | some k => pure (f.modifyInst d fun x => { x with uses := swapRemove x.uses k })

/-- Record the edge on the instruction that `o` reads, if it reads one. -/
def linkOperand (f : Func) (o : Operand) (u : Use) : Checked Func :=
  match o with
  | .inst d => f.addUse d u
  | _ => pure f

/-- Forget the edge on the instruction that `o` reads, if it reads one. -/
def unlinkOperand (f : Func) (o : Operand) (u : Use) : Checked Func :=
  match o with
  | .inst d => f.dropUse d u
  | _ => pure f

/-- Give `i` one more operand. -/
def pushOperand (f : Func) (i : InstId) (o : Operand) : Checked Func := do
  let slot := (← f.inst i).operands.length
  (f.modifyInst i fun x => { x with operands := x.operands ++ [o] }).linkOperand o ⟨i, slot⟩

/-- A fresh instruction that stands in no block. -/
def create (f : Func) (op : Opcode) (ty : Ty) (operands : List Operand) :
    Checked (InstId × Func) := do
  let i : InstId := ⟨f.insts.size⟩
  let f ← operands.foldlM (fun f o => f.pushOperand i o) { f with insts := f.insts.push { op, ty } }
  pure (i, f)

/-- Give the phi `i` one more incoming block. -/
def pushIncoming (f : Func) (i : InstId) (b : BlockId) : Checked Func := do
  match (← f.inst i).op with
  | .phi bs => pure (f.modifyInst i fun x => { x with op := .phi (bs ++ [b]) })
  | .memPhi bs => pure (f.modifyInst i fun x => { x with op := .memPhi (bs ++ [b]) })
  | op => throw (.notPhi i op)

/-- Let the slot named by `u` read `o`. -/
def redirect (f : Func) (u : Use) (o : Operand) : Checked Func := do
  if u.index < (← f.inst u.user).operands.length then
    (f.modifyInst u.user fun x => { x with operands := x.operands.set u.index o }).linkOperand o u
  else throw .outOfBounds

/-- Let every slot that reads `i` read `o` instead; also the number of these slots. -/
def replaceUses (f : Func) (i : InstId) (o : Operand) : Checked (Nat × Func) := do
  if o = .inst i then pure (0, f)
  else
    let uses := (← f.inst i).uses
    let f ← uses.foldlM (fun f u => f.redirect u o) (f.modifyInst i fun x => { x with uses := [] })
    pure (uses.length, f)

/-- Put `i` into the list of `b` at place `k`. -/
def insertAt (f : Func) (i : InstId) (b : BlockId) (k : Nat) : Checked Func := do
  if (← f.inst i).home.isSome then throw (.alreadyPlaced i)
  let _ ← f.block b
  pure ((f.modifyBlock b fun x => { x with insts := x.insts.insertIdx k i }).modifyInst i
    fun x => { x with home := some b })

/-- Put `i` at the end of `b`. -/
def append (f : Func) (i : InstId) (b : BlockId) : Checked Func := do
  if (← f.inst i).home.isSome then throw (.alreadyPlaced i)
  let _ ← f.block b
  pure ((f.modifyBlock b fun x => { x with insts := x.insts ++ [i] }).modifyInst i
    fun x => { x with home := some b })

/-- Put `i` right before `target`. -/
def insertBefore (f : Func) (i target : InstId) : Checked Func := do
  match (← f.inst target).home, ← f.position? target with
  | some b, some k => f.insertAt i b k
  | _, _ => throw (.unplacedTarget target)

/-- Take `i` out of its block; operands and uses stay. -/
def detach (f : Func) (i : InstId) : Checked Func := do
  match (← f.inst i).home with
  | none => pure f
  | some b =>
    let _ ← f.block b
    pure ((f.modifyInst i fun x => { x with home := none }).modifyBlock b
      fun x => { x with insts := x.insts.filter (· ≠ i) })

/-- Delete `i`, which nothing reads: forget the edges of its operands and take it out of its
block. -/
def erase (f : Func) (i : InstId) : Checked Func := do
  let data ← f.inst i
  if !data.uses.isEmpty then throw (.eraseWithUses i)
  let f ← data.operands.zipIdx.foldlM (fun f (o, k) => f.unlinkOperand o ⟨i, k⟩)
    (f.modifyInst i fun x => { x with operands := [] })
  let f ← f.detach i
  pure (f.modifyInst i fun x => { x with erased := true })

/-- Record that control may come to `b` from `p`. -/
def addPred (f : Func) (b p : BlockId) : Checked Func := do
  if p ∈ (← f.block b).preds then pure f
  else pure (f.modifyBlock b fun x => { x with preds := x.preds ++ [p] })

end Func

end SsaOpt
