import SsaOpt.Func.Basic

/-! Known addresses and what instructions do to memory.

An address is known if it is computed from a base and integer literals. Two known addresses are the
same if base and indices are. -/

namespace SsaOpt

/-- Base operand, then index operands. -/
abbrev Address := List Operand

instance : LawfulBEq Address := inferInstance

/-- What an instruction does to the memory contents that are known. -/
inductive MemoryEffect where
  | none
  | read (address : Address)
  /-- A write to one known address. -/
  | write (address : Address)
  /-- A write that may reach any address. -/
  | clobber
deriving DecidableEq, Repr

namespace Func

/-- The operands of the address computation that `o` reads, if it reads one. -/
def addressOf? (f : Func) (o : Operand) : Checked (Option Address) :=
  match o with
  | .inst i => do
    let x ← f.inst i
    pure (if x.op = .elementPtr then some x.operands else none)
  | _ => pure none

/-- All indices are integer literals. An address without a base is out of bounds. -/
def isKnown (address : Address) : Checked Bool :=
  match address with
  | [] => .error .outOfBounds
  | _ :: indices => .ok (indices.all Operand.isIntegerLit)

/-- The known address that `o` denotes. -/
def knownAddress? (f : Func) (o : Operand) : Checked (Option Address) := do
  match ← f.addressOf? o with
  | none => pure none
  | some address => pure (if ← isKnown address then some address else none)

def memoryEffect (f : Func) (i : InstId) : Checked MemoryEffect := do
  match (← f.inst i).op with
  | .load =>
    match ← f.knownAddress? (← f.operand i 0) with
    | some address => pure (.read address)
    | none => pure .none
  | .store =>
    match ← f.knownAddress? (← f.operand i 1) with
    | some address => pure (.write address)
    | none => pure .clobber
  | .call _ => pure .clobber
  | _ => pure .none

/-- The known address that `i` computes. -/
def computedAddress? (f : Func) (i : InstId) : Checked (Option Address) := do
  let x ← f.inst i
  match x.op with
  | .elementPtr => pure (if ← isKnown x.operands then some x.operands else none)
  | _ => pure none

/-- The computed address that `i` stores to, known or not. -/
def storedAddress? (f : Func) (i : InstId) : Checked (Option Address) := do
  match (← f.inst i).op with
  | .store => f.addressOf? (← f.operand i 1)
  | _ => pure none

/-- The known addresses computed in the function to which nothing is stored. -/
def eligibleAddresses (f : Func) : Checked (List Address) := do
  let computed ← f.placed.filterMapM f.computedAddress?
  let stored ← f.placed.filterMapM f.storedAddress?
  pure (computed.filter (· ∉ stored))

/-- Some instruction of the list may write to any address. -/
def anyClobbers (f : Func) : List InstId → Checked Bool
  | [] => pure false
  | i :: rest => do
    if (← f.memoryEffect i) = .clobber then pure true else f.anyClobbers rest

/-- The blocks with an instruction that may write to any address. -/
def clobberBlocks (f : Func) : Checked (List BlockId) :=
  f.blockIds.filterM fun b => do f.anyClobbers (← f.block b).insts

end Func

end SsaOpt
