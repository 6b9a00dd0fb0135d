import SsaOpt.Func.Basic

/-! The control-flow graph of a function, its blocks in reverse postorder, and the search for what
can be reached in a graph. -/

namespace SsaOpt

structure FlowGraph where
  succRows : Array (List BlockId)
  predRows : Array (List BlockId)
deriving DecidableEq, Repr

namespace FlowGraph

def size (g : FlowGraph) : Nat := g.succRows.size

def blockIds (g : FlowGraph) : List BlockId := BlockId.upTo g.size

/-- Where control may go from the end of `b`. -/
def succs (g : FlowGraph) (b : BlockId) : List BlockId := g.succRows.getD b.index []

/-- Where control may come from to `b`, in layout order. -/
def preds (g : FlowGraph) (b : BlockId) : List BlockId := g.predRows.getD b.index []

/-- The graph with the given successors of each block. -/
def ofSuccs (rows : Array (List BlockId)) : FlowGraph where
  succRows := rows
  predRows := BlockId.tabulate rows.size fun b =>
    (BlockId.upTo rows.size).filter fun p => b ∈ rows.getD p.index []

theorem mem_preds_ofSuccs {rows : Array (List BlockId)} {p b : BlockId}
    (hb : b.index < rows.size) :
    p ∈ (ofSuccs rows).preds b ↔ p.index < rows.size ∧ b ∈ (ofSuccs rows).succs p := by
  simp only [preds, succs, ofSuccs, BlockId.getD_tabulate hb, List.mem_filter, BlockId.mem_upTo,
    decide_eq_true_eq]

/-- The graph of a function. Every branch target has to exist. -/
def ofFunc (f : Func) : Checked FlowGraph := do
  let rows ← f.blockIds.mapM f.successors
  if rows.any fun row => row.any fun b => f.numBlocks ≤ b.index then throw .outOfBounds
  pure (ofSuccs rows.toArray)

/-- Depth-first search with an explicit stack. A frame is a block and the successors it has not
looked at yet; a block is put in front of `done` when it has none left, so `done` is in reverse
postorder. -/
def explore (g : FlowGraph) :
    Nat → List BlockId → List (BlockId × List BlockId) → List BlockId → List BlockId
  | 0, _, _, done => done
  | _ + 1, _, [], done => done
  | fuel + 1, visited, (b, pending) :: stack, done =>
    match pending.dropWhile (· ∈ visited) with
    | [] => explore g fuel visited stack (b :: done)
    | s :: rest => explore g fuel (s :: visited) ((s, g.succs s) :: (b, rest) :: stack) done

/-- The blocks that the entry reaches, in reverse postorder. Each block is entered once and left
once, which bounds the search. -/
def reversePostorder (g : FlowGraph) : List BlockId :=
  if g.size = 0 then []
  else g.explore (2 * g.size + 1) [.entry] [(.entry, g.succs .entry)] []

end FlowGraph

end SsaOpt

/-! ## Worklist search

The search never enters a node of the barrier, and each step that does not end it finds one new
node, so a bound on the number of nodes bounds its length. -/

namespace SsaOpt.Search

variable {α : Type} [DecidableEq α]

/-- Continue a search that has found `found` and still has `work` to look at. -/
def grow (next : α → List α) (barrier : List α) : Nat → List α → List α → List α
  | 0, found, _ => found
  | fuel + 1, found, work =>
    match work.dropWhile fun x => x ∈ barrier || x ∈ found with
    | [] => found
    | x :: rest => grow next barrier fuel (x :: found) (next x ++ rest)

/-- The nodes that paths along `next` reach from `start` without entering `barrier`; `bound` is at
least the number of nodes. -/
def reach (next : α → List α) (barrier : List α) (bound : Nat) (start : List α) : List α :=
  grow next barrier bound [] start

end SsaOpt.Search
