import SsaOpt.Bindings
import SsaOpt.Fault

/-! A map with nested scopes. What is bound while a scope is open is undone when the scope is
closed; a binding that was hidden comes back. Only one map is kept, with a journal of the bindings
that were overwritten. -/

namespace SsaOpt

structure ScopedTable (κ ν : Type) where
  current : Bindings κ ν := {}
  /-- Overwritten bindings, latest first. -/
  undo : List (κ × Option ν) := []
  /-- Length of the journal when each open scope was opened, innermost first. -/
  marks : List Nat := []
deriving DecidableEq, Repr

namespace ScopedTable

variable {κ ν : Type} [DecidableEq κ]

def empty : ScopedTable κ ν := {}

def find? (t : ScopedTable κ ν) (k : κ) : Option ν := t.current.find? k

def pushScope (t : ScopedTable κ ν) : ScopedTable κ ν :=
  { t with marks := t.undo.length :: t.marks }

/-- Bind `k` in the innermost scope. Without an open scope there is nothing to undo. -/
def insert (t : ScopedTable κ ν) (k : κ) (v : ν) : ScopedTable κ ν :=
  { t with
    current := t.current.insert k v
    undo := if t.marks.isEmpty then t.undo else (k, t.current.find? k) :: t.undo }

/-- Close the innermost scope: undo the journal, latest entry first, down to its mark. -/
def popScope (t : ScopedTable κ ν) : Checked (ScopedTable κ ν) :=
  match t.marks with
  | [] => .error .noOpenScope
  | mark :: marks =>
    let fresh := t.undo.length - mark
    .ok {
      current := (t.undo.take fresh).foldl (fun m (k, old) => m.restore k old) t.current
      undo := t.undo.drop fresh
      marks }

theorem find?_insert (t : ScopedTable κ ν) (k k' : κ) (v : ν) :
    (t.insert k v).find? k' = if k' = k then some v else t.find? k' :=
  Bindings.find?_insert t.current k k' v

end ScopedTable

end SsaOpt
