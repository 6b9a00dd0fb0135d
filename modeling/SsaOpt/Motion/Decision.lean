import SsaOpt.Analysis
import SsaOpt.Rejection
import SsaOpt.Settings

/-! Where one instruction goes.

The legal blocks form a chain in the dominator tree, from the deepest block that defines an operand
down to the nearest common dominator of the uses. -/

namespace SsaOpt.Motion

inductive Decision where
  /-- The instruction is not considered. -/
  | leave
  | noLegalBlock (current : BlockId)
  | site (s : Site)
deriving DecidableEq, Repr

/-- The blocks of some sites, or none as soon as one is unreachable. -/
def reachableSites {α : Type} (d : Dominators) (site : α → Except Halt BlockId) :
    List α → Except Halt (Option (List BlockId))
  | [] => pure (some [])
  | x :: rest => do
    let b ← site x
    d.require b
    if d.reachable b then pure ((← reachableSites d site rest).map (b :: ·)) else pure none

/-- The deepest of some blocks; the first of equally deep ones. -/
def deepest (d : Dominators) (start : BlockId) (bs : List BlockId) : BlockId :=
  bs.foldl (fun deepest b => if d.level deepest < d.level b then b else deepest) start

/-- The nearest common dominator of the uses; without uses, the block that the instruction is in. -/
def latestBlock (d : Dominators) (current : BlockId) : List BlockId → BlockId
  | [] => current
  | b :: rest => rest.foldl d.meet b

/-- A chain of blocks up to and including `stop`. -/
def upToBlock (stop : BlockId) : List BlockId → List BlockId
  | [] => []
  | b :: rest => if b = stop then [b] else b :: upToBlock stop rest

/-- The first block of least loop depth. -/
def shallowest (depth : BlockId → Nat) (start : BlockId) (bs : List BlockId) : BlockId :=
  bs.foldl (fun best b => if depth b < depth best then b else best) start

/-- A division or remainder whose divisor is not known to differ from zero. -/
def mayTrap (f : Func) (i : InstId) : Checked Bool := do
  match (← f.inst i).op with
  | .binary op =>
    if op.canTrap then
      let divisor := (← f.operand i 1).lit?.bind Literal.toInt?
      pure (divisor.all (· = 0))
    else pure false
  | _ => pure false

/-- The block of least loop depth from `latest` up to the earliest block. An instruction that may
trap goes no higher than where it is, since something there may guard it. -/
def bestBlock (a : Analysis) (depth : BlockId → Nat) (policy : Placement) (f : Func) (i : InstId)
    (earliest latest current : BlockId) : Checked BlockId :=
  match policy with
  | .late => pure latest
  | .hoist => do
    let ceiling := if ← mayTrap f i then current else earliest
    pure (shallowest depth latest (upToBlock ceiling (a.dom.ancestors latest)))

/-- The nearest ancestor of `best` in which all operands are defined. -/
def legalBlock? (d : Dominators) (best : BlockId) (defs : List BlockId) : Option BlockId :=
  defs.foldlM (fun chosen home => (d.ancestors chosen).find? (d.dominates home)) best

/-- Where `i` goes. -/
def decision (a : Analysis) (depth : BlockId → Nat) (policy : Placement) (f : Func) (i : InstId) :
    Except Halt Decision := do
  let x ← f.inst i
  match x.home, a.dom.rpo.head? with
  | some current, some entry =>
    if !a.dom.reachable current then pure .leave
    else
      match ← reachableSites a.dom (f.definingBlock i) (x.operands.filterMap Operand.inst?) with
      | none => pure .leave
      | some defs =>
        match ← reachableSites a.dom (f.useBlock i) x.uses with
        | none => pure .leave
        | some useBlocks => do
          let earliest := deepest a.dom entry defs
          let latest := latestBlock a.dom current useBlocks
          match useBlocks.find? fun b => !a.dom.dominates latest b with
          | some b => throw (.rejected (.latestNotDominating f.name i latest b))
          | none => do
            let best ← bestBlock a depth policy f i earliest latest current
            match legalBlock? a.dom best defs with
            | none => pure (.noLegalBlock current)
            | some chosen => pure (.site { earliest, latest, best, chosen, current })
  | _, _ => pure .leave

end SsaOpt.Motion
