import SsaOpt.Bindings
import SsaOpt.Loads.Address

/-! Loads whose result is still in memory, along one path of the dominator tree. -/

namespace SsaOpt

structure AvailableLoads where
  table : Bindings Address InstId := {}
  /-- The addresses that each block of the path added, innermost block first. -/
  frames : List (List Address) := []
deriving DecidableEq, Repr

namespace AvailableLoads

def onTop (frames : List (List Address)) (g : List Address → List Address) : List (List Address) :=
  match frames with
  | [] => []
  | frame :: rest => g frame :: rest

def enterBlock (l : AvailableLoads) : AvailableLoads := { l with frames := [] :: l.frames }

/-- Forget what the innermost block added. -/
def leaveBlock (l : AvailableLoads) : AvailableLoads :=
  match l.frames with
  | [] => l
  | added :: frames => { table := added.foldl Bindings.erase l.table, frames }

def add (l : AvailableLoads) (address : Address) (i : InstId) : AvailableLoads :=
  { table := l.table.insert address i, frames := onTop l.frames (· ++ [address]) }

/-- Forget one address. -/
def invalidate (l : AvailableLoads) (address : Address) : AvailableLoads :=
  { table := l.table.erase address, frames := onTop l.frames (·.filter (· ≠ address)) }

/-- Forget everything; this is not undone when the block is left. -/
def clear (l : AvailableLoads) : AvailableLoads :=
  { table := {}, frames := onTop l.frames fun _ => [] }

end AvailableLoads

end SsaOpt
