import SsaOpt.Dominators.Links

/-! The dominator tree and its queries.

The tree is walked depth first with an explicit stack. The stamps with which a block is entered and
left answer dominance queries in constant time. -/

namespace SsaOpt

/-- A step of the tour of a tree. -/
inductive Visit where
  | enter (b : BlockId)
  | leave (b : BlockId)
deriving DecidableEq, Repr

structure Dominators where
  /-- Reachable blocks in reverse postorder. -/
  rpo : List BlockId
  links : Links
  childRows : Array (List BlockId)
  /-- The entry has level 0. -/
  levels : Array Nat
  tour : List Visit
  entered : Array Nat
  left : Array Nat
deriving DecidableEq, Repr

namespace Dominators

/-- Tour of the subtree of `b`; `fuel` bounds its height. -/
def tourFrom (children : BlockId → List BlockId) : Nat → BlockId → List Visit
  | 0, _ => []
  | fuel + 1, b => .enter b :: ((children b).flatMap (tourFrom children fuel) ++ [.leave b])

/-- The strict ancestors of a block, nearest first. -/
def climb (links : Links) : Nat → BlockId → List BlockId
  | 0, _ => []
  | fuel + 1, b =>
    match links.get b with
    | some d => if d = b then [] else d :: climb links fuel d
    | none => []

/-- A walk over the tree that stamps each visit with the number of visits before it. A frame is a
block and the number of its children that were gone to. -/
structure Walk where
  clock : Nat := 0
  levels : Array Nat
  entered : Array Nat
  left : Array Nat
  frames : List (BlockId × Nat) := []

namespace Walk

/-- No block was visited. The stamp of a block that is never entered is above all others. -/
def idle (n : Nat) : Walk where
  levels := Array.replicate n 0
  entered := Array.replicate n 0xffffffff
  left := Array.replicate n 0

/-- The entry was entered. -/
def start (n : Nat) : Walk :=
  { idle n with
    clock := 1
    entered := (idle n).entered.setIfInBounds BlockId.entry.index 0
    frames := [(.entry, 0)] }

/-- One visit: enter the next child of the block on top, or leave the block if there is none. -/
def step (children : BlockId → List BlockId) (w : Walk) : Walk :=
  match w.frames with
  | [] => w
  | (b, slot) :: frames =>
    match (children b)[slot]? with
    | some c =>
      { w with
        clock := w.clock + 1
        levels := w.levels.setIfInBounds c.index (w.levels.getD b.index 0 + 1)
        entered := w.entered.setIfInBounds c.index w.clock
        frames := (c, 0) :: (b, slot + 1) :: frames }
    | none => { w with clock := w.clock + 1, left := w.left.setIfInBounds b.index w.clock, frames }

/-- Visit after visit, as long as a frame is left. -/
def run (children : BlockId → List BlockId) : Nat → Walk → Walk
  | 0, w => w
  | fuel + 1, w => run children fuel (w.step children)

end Walk

/-- Each block is entered once and left once, which bounds the walk. -/
def ofLinks (rpo : List BlockId) (links : Links) : Dominators :=
  let n := links.size
  let rows := links.childRows
  let children := fun b : BlockId => rows.getD b.index []
  let entry := (links.get .entry).isSome
  let walk := Walk.run children (2 * n) (if entry then Walk.start n else Walk.idle n)
  { rpo, links
    childRows := rows
    levels := walk.levels
    tour := if entry then tourFrom children n .entry else []
    entered := walk.entered
    left := walk.left }

/-- The dominator tree of a graph. -/
def compute (g : FlowGraph) : Checked Dominators := do
  let rpo := g.reversePostorder
  pure (ofLinks rpo (← Links.compute g rpo))

/-- Some path leads from the entry to the block. -/
def reachable (d : Dominators) (b : BlockId) : Bool := (d.links.get b).isSome

/-- The immediate dominator; the entry and unreachable blocks have none. -/
def idom? (d : Dominators) (b : BlockId) : Option BlockId :=
  match d.links.get b with
  | some a => if a = b then none else some a
  | none => none

def children (d : Dominators) (b : BlockId) : List BlockId := d.childRows.getD b.index []

def level (d : Dominators) (b : BlockId) : Nat := d.levels.getD b.index 0

/-- The block and its strict ancestors, nearest first. -/
def ancestors (d : Dominators) (b : BlockId) : List BlockId := b :: climb d.links d.links.size b

/-- Every path from the entry to `b` passes through `a`. False if either is unreachable. -/
def dominates (d : Dominators) (a b : BlockId) : Bool :=
  d.reachable a && d.reachable b &&
    d.entered.getD a.index 0 ≤ d.entered.getD b.index 0 &&
    d.left.getD b.index 0 ≤ d.left.getD a.index 0

/-- One step towards the entry, which stays where it is. -/
def up (d : Dominators) (b : BlockId) : BlockId := (d.links.get b).getD b

/-- Go up while the level is above `n`. -/
def ascend (d : Dominators) (n : Nat) : Nat → BlockId → BlockId
  | 0, b => b
  | fuel + 1, b => if n < d.level b then d.ascend n fuel (d.up b) else b

/-- Two blocks of one level go up together until they meet. -/
def meetFrom (d : Dominators) : Nat → BlockId → BlockId → BlockId
  | 0, a, _ => a
  | fuel + 1, a, b => if a = b then a else d.meetFrom fuel (d.up a) (d.up b)

/-- The nearest common ancestor of two reachable blocks: the lower one goes up to the level of the
other, then both go up. -/
def meet (d : Dominators) (a b : BlockId) : BlockId :=
  let a := d.ascend (d.level b) (d.level a) a
  let b := d.ascend (d.level a) (d.level b) b
  d.meetFrom (d.level a) a b

/-- The block has to exist. -/
def require (d : Dominators) (b : BlockId) : Checked Unit :=
  if b.index < d.links.size then .ok () else .error .outOfBounds

/-- `dominates` for any two handles. -/
def dominates? (d : Dominators) (a b : BlockId) : Checked Bool := do
  d.require a
  if !d.reachable a then pure false
  else
    d.require b
    pure (d.dominates a b)

/-- `meet` for any two handles. -/
def meet? (d : Dominators) (a b : BlockId) : Checked BlockId := do
  d.require a
  if !d.reachable a then throw .unreachableMeet
  d.require b
  if !d.reachable b then throw .unreachableMeet
  pure (d.meet a b)

end Dominators

end SsaOpt
