import SsaOpt.Analysis
import SsaOpt.Loads.Available
import SsaOpt.Remark

/-! Elimination of repeated loads.

The dominator tree is toured with the loads that are available on the path from the entry. The tree
does not show writes on paths that join from the side, so on entry to a block with several
predecessors all blocks between it and its immediate dominator are searched for clobbers. -/

namespace SsaOpt.Loads

/-- A block between `b` and its immediate dominator may write to any address. -/
def sideClobbers (a : Analysis) (clobbers : List BlockId) (b : BlockId) : Bool :=
  match a.dom.idom? b with
  | none => false
  | some d =>
    let preds := a.reachablePreds b
    if preds.length < 2 then false
    else (Search.reach a.reachablePreds [d] a.graph.size preds).any (· ∈ clobbers)

structure State where
  progress : Progress
  available : AvailableLoads := {}

/-- One instruction: reuse an available load of the same type, or make this one available. -/
def visitInst (eligible : List Address) (s : State) (i : InstId) : Checked State := do
  let f := s.progress.func
  match ← f.memoryEffect i with
  | .none => pure s
  | .write address => pure { s with available := s.available.invalidate address }
  | .clobber => pure { s with available := s.available.clear }
  | .read address =>
    if address ∉ eligible then pure s
    else
      match s.available.table.find? address with
      | none => pure { s with available := s.available.add address i }
      | some earlier =>
        if (← f.inst earlier).ty = (← f.inst i).ty then
          let p := s.progress.note (.loadReused f.name i (← f.renderInst i) earlier)
          pure { s with progress := ← p.replaceBy i earlier }
        else pure s

def visit (a : Analysis) (eligible : List Address) (clobbers : List BlockId) (s : State) :
    Visit → Checked State
  | .leave _ => pure { s with available := s.available.leaveBlock }
  | .enter b => do
    let s := { s with available := s.available.enterBlock }
    let f := s.progress.func
    let s :=
      if !s.available.table.isEmpty && sideClobbers a clobbers b then
        { progress := s.progress.note (.sideClobber f.name b), available := s.available.clear }
      else s
    (← f.block b).insts.foldlM (visitInst eligible) s

/-- Eliminate repeated loads. -/
def run (a : Analysis) (f : Func) : Checked Progress := do
  let eligible ← f.eligibleAddresses
  if eligible.isEmpty then pure { func := f }
  else
    let clobbers ← f.clobberBlocks
    pure (← a.dom.tour.foldlM (visit a eligible clobbers) { progress := { func := f } }).progress

end SsaOpt.Loads
