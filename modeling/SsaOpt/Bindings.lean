/-! Finite maps as association lists, at most one entry for each key. -/

namespace SsaOpt

structure Bindings (κ ν : Type) where
  entries : List (κ × ν) := []
deriving DecidableEq, Repr

namespace Bindings

variable {κ ν : Type} [DecidableEq κ]

def empty : Bindings κ ν := {}

def isEmpty (m : Bindings κ ν) : Bool := m.entries.isEmpty

def find? (m : Bindings κ ν) (k : κ) : Option ν := m.entries.lookup k

def erase (m : Bindings κ ν) (k : κ) : Bindings κ ν := ⟨m.entries.filter fun e => e.1 ≠ k⟩

def insert (m : Bindings κ ν) (k : κ) (v : ν) : Bindings κ ν := ⟨(k, v) :: (m.erase k).entries⟩

/-- Bind `k` to the given value, or unbind it if there is none. -/
def restore (m : Bindings κ ν) (k : κ) : Option ν → Bindings κ ν
  | some v => m.insert k v
  | none => m.erase k

theorem lookup_filter_ne (k k' : κ) (l : List (κ × ν)) :
    (l.filter fun e => e.1 ≠ k).lookup k' = if k' = k then none else l.lookup k' := by
  induction l with
  | nil => simp
  | cons e rest ih => grind

theorem find?_erase (m : Bindings κ ν) (k k' : κ) :
    (m.erase k).find? k' = if k' = k then none else m.find? k' :=
  lookup_filter_ne k k' m.entries

theorem find?_insert (m : Bindings κ ν) (k k' : κ) (v : ν) :
    (m.insert k v).find? k' = if k' = k then some v else m.find? k' := by
  have h := find?_erase m k k'
  simp only [find?] at h
  grind [find?, insert]

theorem find?_restore (m : Bindings κ ν) (k k' : κ) (v : Option ν) :
    (m.restore k v).find? k' = if k' = k then v else m.find? k' := by
  cases v with
  | none => exact find?_erase m k k'
  | some v => exact find?_insert m k k' v

end Bindings

end SsaOpt
