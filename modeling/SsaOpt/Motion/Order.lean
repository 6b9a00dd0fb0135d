import SsaOpt.Func.Basic

/-! Which instructions float, in which order they are placed, and which of them are pinned. -/

namespace SsaOpt.Motion

/-- Arithmetic and address computations may stand in any block where their operands are defined. -/
def floats : Opcode → Bool
  | .binary _ | .elementPtr => true
  | _ => false

/-- The floating instructions in layout order. -/
def floating (f : Func) : Checked (List InstId) :=
  f.placed.filterM fun i => do pure (floats (← f.inst i).op)

/-- Each instruction of a list with those of the list that it reads. -/
def producers (f : Func) (is : List InstId) : List (InstId × List InstId) :=
  is.map fun i => (i, (f.reads i).filter (· ∈ is))

/-- Take instructions from the queue. An instruction joins the queue when the last one it reads is
taken; `taken` holds the latest first. -/
def drain (table : List (InstId × List InstId)) :
    Nat → List InstId → List InstId → List InstId
  | 0, _, taken => taken
  | _ + 1, [], taken => taken
  | fuel + 1, i :: queue, taken =>
    let taken := i :: taken
    let ready := table.filter fun (_, reads) => i ∈ reads && reads.all (· ∈ taken)
    drain table fuel (queue ++ ready.map Prod.fst) taken

/-- The instructions of a list, each before all those of the list that it reads. There is no such
order if they read each other in a circle. -/
def consumersFirst (f : Func) (is : List InstId) : Checked (List InstId) :=
  let table := producers f is
  let free := (table.filter fun (_, reads) => reads.isEmpty).map Prod.fst
  let order := drain table (is.length + 1) free []
  if order.length = is.length then .ok order else .error .floatingCycle

/-- The users of an instruction. -/
def users (f : Func) (i : InstId) : List InstId :=
  (f.insts[i.index]?.map fun x => x.uses.map Use.user).getD []

/-- The instruction reads a phi or is read by one. -/
def touchesPhi (f : Func) (i : InstId) : Bool :=
  (f.reads i).any f.isPhi || (users f i).any f.isPhi

/-- Everything that touches a phi, and everything read by a pinned instruction. The order has
consumers first, so one pass finds all of the latter. -/
def pinned (f : Func) (order : List InstId) : List InstId :=
  order.foldl (fun pins i => if (users f i).any (· ∈ pins) then i :: pins else pins)
    (order.filter (touchesPhi f))

end SsaOpt.Motion
