import SsaOpt.Func.Basic

/-! Rejections: inconsistencies found in a function. Unlike a fault, a rejection leaves the function
as it was when the inconsistency was met. -/

namespace SsaOpt

/-- Where an inconsistency was found. -/
inductive Place where
  | block (b : BlockId)
  | inst (i : InstId)
deriving DecidableEq, Repr

instance : ToString Place := ⟨fun
  | .block b => toString b
  | .inst i => toString i⟩

/-- The rules of well-formed functions, each named by its violation. -/
inductive Defect where
  | emptyBlock
  | unterminated
  | erasedListed (i : InstId)
  | staleHome (i : InstId)
  | latePhi (i : InstId)
  | earlyTerminator (i : InstId)
  /-- A slot reads an erased instruction. -/
  | readsErased (slot : Nat) (d : InstId)
  /-- The instruction that a slot reads does not record the edge. -/
  | missingEdge (slot : Nat) (d : InstId)
  /-- A recorded edge whose slot reads something else. -/
  | danglingEdge (u : Use)
  | incomingCount (blocks operands : Nat)
  | incomingStranger (incoming b : BlockId)
  /-- A slot reads an instruction that stands in no block. -/
  | readsDetached (slot : Nat) (d : InstId)
  | edgeNotDominated (d : InstId) (home incoming : BlockId)
  | useNotDominated (d : InstId) (home b : BlockId)
  | usedBefore (d : InstId)
deriving DecidableEq, Repr

def Defect.message : Defect → String
  | .emptyBlock => "block is empty"
  | .unterminated => "block does not end in a terminator"
  | .erasedListed i => s!"{i} is erased but still listed"
  | .staleHome i => s!"{i} has a stale parent link"
  | .latePhi i => s!"phi {i} follows a non-phi"
  | .earlyTerminator i => s!"terminator {i} is not last"
  | .readsErased slot d => s!"operand {slot} reads erased {d}"
  | .missingEdge slot d => s!"operand {slot} has no use edge on {d}"
  | .danglingEdge u => s!"dangling use edge {u}"
  | .incomingCount blocks operands => s!"{blocks} incoming blocks for {operands} operands"
  | .incomingStranger incoming b => s!"incoming {incoming} is not a predecessor of {b}"
  | .readsDetached slot d => s!"operand {slot} reads detached {d}"
  | .edgeNotDominated d home incoming =>
    s!"{d} in {home} does not dominate incoming edge from {incoming}"
  | .useNotDominated d home b => s!"{d} in {home} does not dominate use in {b}"
  | .usedBefore d => s!"{d} is used before its definition"

inductive Rejection where
  /-- `inst` is read by `user`, which stands in no block. -/
  | detachedUser (func : String) (inst user : InstId)
  /-- `inst` reads `operand`, which stands in no block. -/
  | detachedOperand (func : String) (inst operand : InstId)
  /-- The latest legal block of `inst` does not dominate a use it was computed from. -/
  | latestNotDominating (func : String) (inst : InstId) (latest useBlock : BlockId)
  /-- A phi reads `inst` in a slot that has no incoming block. -/
  | noIncoming (func : String) (phi inst : InstId) (slot : Nat)
  /-- The function is not well formed. -/
  | malformed (func : String) (place : Place) (defect : Defect)
deriving DecidableEq, Repr

def Rejection.message : Rejection → String
  | .detachedUser func inst user =>
    s!"in function `{func}`: {inst} is used by {user}, which is not attached to any block"
  | .detachedOperand func inst operand =>
    s!"in function `{func}`: {inst} reads {operand}, which is not attached to any block"
  | .latestNotDominating func inst latest useBlock =>
    s!"in function `{func}`: latest legal block {latest} of {inst} " ++
      s!"does not dominate its use in {useBlock}"
  | .noIncoming func phi inst slot =>
    s!"in function `{func}`: phi {phi} records a use of {inst} " ++
      s!"at operand {slot} with no incoming block"
  | .malformed func place defect => s!"in function `{func}` at {place}: {defect.message}"

/-- What can end a computation early. -/
inductive Halt where
  | fault (e : Fault)
  | rejected (r : Rejection)
deriving DecidableEq, Repr

instance : MonadLift Checked (Except Halt) where
  monadLift x := x.mapError Halt.fault

namespace Func

/-- The block where a use happens: the block of the user, or for a phi the block that the value
comes in from. -/
def useBlock (f : Func) (i : InstId) (u : Use) : Except Halt BlockId := do
  let user ← f.inst u.user
  match user.op.incoming? with
  | some bs =>
    match bs[u.index]? with
    | some b => pure b
    | none => throw (.rejected (.noIncoming f.name u.user i u.index))
  | none =>
    match user.home with
    | some b => pure b
    | none => throw (.rejected (.detachedUser f.name i u.user))

/-- The block of an instruction that `i` reads. -/
def definingBlock (f : Func) (i operand : InstId) : Except Halt BlockId := do
  match (← f.inst operand).home with
  | some b => pure b
  | none => throw (.rejected (.detachedOperand f.name i operand))

end Func

end SsaOpt
