import SsaOpt.Analysis
import SsaOpt.Motion.Decision
import SsaOpt.Motion.Order
import SsaOpt.Remark

/-! Code motion: sweeps over the floating instructions, consumers first, until one moves nothing. A
moved operand may let its consumer move in the next sweep. -/

namespace SsaOpt.Motion

/-- What is known about a function whose instructions are moved. -/
structure Setting where
  analysis : Analysis
  depths : Array Nat
  policy : Placement

/-- The instruction of `b` to insert before: the first user that is no phi, else the terminator. -/
def target? (f : Func) (i : InstId) (b : BlockId) : Checked (Option InstId) := do
  let us := users f i
  match (← f.block b).insts.find? fun j => !f.isPhi j && j ∈ us with
  | some j => pure (some j)
  | none => f.terminator? b

/-- Take `i` out of its block and put it into `b`. -/
def relocate (f : Func) (i : InstId) (b : BlockId) : Checked Func := do
  let f ← f.detach i
  match ← target? f i b with
  | some j => f.insertBefore i j
  | none => f.append i b

/-- Carry out a decision. -/
def carryOut (p : Progress) (i : InstId) : Decision → Checked Progress
  | .leave => pure p
  | .noLegalBlock current => pure (p.note (.noLegalBlock p.func.name i current))
  | .site s => do
    let p := p.note (.sited i s)
    if s.chosen = s.current then pure p
    else
      let line ← p.func.renderInst i
      let p := p.note (.moved p.func.name i line s.current s.chosen)
      pure { p with func := ← relocate p.func i s.chosen, changes := p.changes + 1 }

/-- Place the instructions of a list in turn. A rejection ends the sweep; what was moved before
stays moved. -/
def placeAll (s : Setting) : List InstId → Progress → Checked (Progress × Option Rejection)
  | [], p => pure (p, none)
  | i :: rest, p =>
    match decision s.analysis (fun b => s.depths.getD b.index 0) s.policy p.func i with
    | .error (.fault e) => throw e
    | .error (.rejected r) => pure (p, some r)
    | .ok d => do placeAll s rest (← carryOut p i d)

def sweep (s : Setting) (p : Progress) : Checked (Progress × Option Rejection) := do
  let is ← floating p.func
  if is.isEmpty then pure (p, none)
  else
    let order ← consumersFirst p.func is
    let pins := pinned p.func order
    placeAll s (order.filter (· ∉ pins)) p

/-- At most `remaining` more sweeps out of `limit`. -/
def sweeps (s : Setting) (limit : Nat) : Nat → Progress → Checked (Progress × Option Rejection)
  | 0, p => pure (p.note (.sweepLimit p.func.name limit), none)
  | remaining + 1, p => do
    let (q, rejection) ← sweep s p
    if rejection.isSome || q.changes = p.changes then pure (q, rejection)
    else sweeps s limit remaining q

/-- Move the instructions of a function; there is always at least one sweep. -/
def run (a : Analysis) (settings : Settings) (f : Func) : Checked (Progress × Option Rejection) :=
  let limit := max 1 settings.maxSweeps
  sweeps ⟨a, loopDepths a, settings.placement⟩ limit limit { func := f }

end SsaOpt.Motion
