import SsaOpt.FlowGraph

/-! Immediate dominators by iteration.

A table links each block to a candidate for its immediate dominator; the entry is linked to itself.
A pass goes through the blocks in reverse postorder and relinks each to the nearest common ancestor
of its linked predecessors. Passes are repeated until one changes nothing. -/

namespace SsaOpt

/-- A candidate for the immediate dominator of each block. -/
abbrev Links := Array (Option BlockId)

namespace Links

def get (links : Links) (b : BlockId) : Option BlockId := links.getD b.index none

/-- The link of a block that has one. -/
def follow (links : Links) (b : BlockId) : Checked BlockId := Checked.ofOption (links.get b)

/-- The nearest common ancestor of two blocks: the block of higher rank goes up until both are the
same. Ranks fall along links, so `fuel` is a bound on the sum of the ranks. -/
def intersect (links : Links) (rank : BlockId → Nat) : Nat → BlockId → BlockId → Checked BlockId
  | 0, _, _ => .error .unsettled
  | fuel + 1, a, b =>
    if a = b then .ok a
    else if rank b < rank a then do intersect links rank fuel (← links.follow a) b
    else do intersect links rank fuel a (← links.follow b)

/-- The nearest common ancestor of all linked blocks of a list. -/
def meet (links : Links) (rank : BlockId → Nat) (bs : List BlockId) : Checked (Option BlockId) :=
  match bs.filter fun b => (links.get b).isSome with
  | [] => .ok none
  | b :: rest => do
    pure (some (← rest.foldlM (fun a b => links.intersect rank (rank a + rank b + 1) a b) b))

/-- Relink one block. -/
def relink (g : FlowGraph) (rank : BlockId → Nat) (links : Links) (b : BlockId) :
    Checked Links := do
  match ← links.meet rank (g.preds b) with
  | none => pure links
  | some d => pure (links.setIfInBounds b.index (some d))

/-- Relink every block of a list in turn. -/
def pass (g : FlowGraph) (rank : BlockId → Nat) (order : List BlockId) (links : Links) :
    Checked Links :=
  order.foldlM (relink g rank) links

/-- Repeat passes until one changes nothing. -/
def settle (g : FlowGraph) (rank : BlockId → Nat) (order : List BlockId) :
    Nat → Links → Checked Links
  | 0, _ => .error .unsettled
  | fuel + 1, links => do
    let next ← pass g rank order links
    if next = links then pure links else settle g rank order fuel next

/-- The place of each block in the given order. -/
def ranks (n : Nat) (order : List BlockId) : Array Nat := BlockId.tabulate n order.idxOf

/-- The links of all blocks that the entry reaches. A pass that changes something lowers the sum of
the ranks of the links, which bounds the number of passes. -/
def compute (g : FlowGraph) (rpo : List BlockId) : Checked Links :=
  match rpo with
  | [] => .ok (Array.replicate g.size none)
  | entry :: rest =>
    let table := ranks g.size rpo
    let start : Links := (Array.replicate g.size none).setIfInBounds entry.index (some entry)
    settle g (fun b => table.getD b.index 0) rest (g.size * g.size + 1) start

/-- The blocks linked to each block, in increasing order; the entry is nobody's child. -/
def childRows (links : Links) : Array (List BlockId) :=
  BlockId.tabulate links.size fun a =>
    (BlockId.upTo links.size).filter fun b => b.index ≠ 0 && b ≠ a && links.get b = some a

/-- The children of each block in a table where any link may stand. -/
def children (links : Links) : Checked (Array (List BlockId)) :=
  if (BlockId.upTo links.size).all fun b =>
      b.index = 0 || (links.get b).all fun d => d = b || d.index < links.size then
    .ok links.childRows
  else .error .outOfBounds

end Links

end SsaOpt
