import SsaOpt.Dominators.Tree

/-! What the passes know about the control flow of a function: its graph, its dominator tree, its
natural loops and the loop depth of its blocks. -/

namespace SsaOpt

/-- Control flow and dominance of one function. Passes keep the terminators, so one analysis serves
all of them. -/
structure Analysis where
  graph : FlowGraph
  dom : Dominators
deriving DecidableEq, Repr

namespace Analysis

def ofFunc (f : Func) : Checked Analysis := do
  let graph ← FlowGraph.ofFunc f
  pure { graph, dom := ← Dominators.compute graph }

/-- The reachable predecessors of a block. -/
def reachablePreds (a : Analysis) (b : BlockId) : List BlockId :=
  (a.graph.preds b).filter a.dom.reachable

end Analysis

/-! ## Natural loops -/

/-- The loop of a back edge: its header, and the blocks from which control gets back to the header
without leaving through it. -/
structure NaturalLoop where
  header : BlockId
  body : List BlockId
deriving DecidableEq, Repr

namespace NaturalLoop

/-- Edges to a block that dominates their source, by source in reverse postorder. -/
def backEdges (a : Analysis) : List (BlockId × BlockId) :=
  a.dom.rpo.flatMap fun tail =>
    ((a.graph.succs tail).filter fun header => a.dom.dominates header tail).map fun header =>
      (tail, header)

/-- The loop of the back edge from `tail` to `header`. -/
def ofBackEdge (a : Analysis) (tail header : BlockId) : NaturalLoop where
  header
  body := header :: Search.reach a.reachablePreds [header] a.graph.size [tail]

/-- The loop of each back edge. -/
def all (a : Analysis) : List NaturalLoop :=
  (backEdges a).map fun (tail, header) => ofBackEdge a tail header

/-- Join a loop to the one with the same header, or put it at the end. -/
def insertMerged (l : NaturalLoop) : List NaturalLoop → List NaturalLoop
  | [] => [l]
  | m :: rest =>
    if m.header = l.header then
      { m with body := m.body ++ l.body.filter (· ∉ m.body) } :: rest
    else m :: insertMerged l rest

/-- One loop for each header, in the order in which headers first appear. -/
def mergeByHeader (ls : List NaturalLoop) : List NaturalLoop :=
  ls.foldl (fun merged l => insertMerged l merged) []

/-- The blocks of the loop among the first `n`, in increasing order. -/
def blocks (l : NaturalLoop) (n : Nat) : List BlockId := (BlockId.upTo n).filter (· ∈ l.body)

end NaturalLoop

/-- How many loops with different headers contain each block. -/
def loopDepths (a : Analysis) : Array Nat :=
  let merged := NaturalLoop.mergeByHeader (NaturalLoop.all a)
  BlockId.tabulate a.graph.size fun b => merged.countP (b ∈ ·.body)

end SsaOpt
