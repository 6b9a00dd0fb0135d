import Mathlib.Data.List.Basic
import SsaOpt.ScopedTable

/-! A table with scopes as a stack of maps: what the keys are bound to now, what they will be bound
to after the innermost scope is closed, after the next one, and so on. Opening a scope doubles the
top of the stack, a binding changes the top alone, and closing a scope removes it. -/

namespace SsaOpt.ScopedTable

variable {κ ν : Type} [DecidableEq κ] {t t' : ScopedTable κ ν} {k : κ} {v : ν} {mark : Nat}
  {marks : List Nat}

/-- The map after the journal was undone down to a mark. -/
def undoTo (t : ScopedTable κ ν) (mark : Nat) : Bindings κ ν :=
  (t.undo.take (t.undo.length - mark)).foldl (fun m (k, old) => m.restore k old) t.current

/-- The bindings now, then those after closing each of the open scopes. -/
def layers (t : ScopedTable κ ν) : List (κ → Option ν) :=
  t.find? :: t.marks.map fun mark => (t.undoTo mark).find?

/-- A scope opened later has a later mark, and no mark is beyond the journal. -/
def Nested (t : ScopedTable κ ν) : Prop := (t.undo.length :: t.marks).Pairwise (· ≥ ·)

omit [DecidableEq κ] in
theorem nested_empty : ({} : ScopedTable κ ν).Nested := List.pairwise_singleton _ _

/-- What a journal restores depends only on what the keys are bound to. -/
theorem find?_restoreAll_congr (l : List (κ × Option ν)) : ∀ {m m' : Bindings κ ν},
    m.find? = m'.find? → (l.foldl (fun m (k, old) => m.restore k old) m).find? =
      (l.foldl (fun m (k, old) => m.restore k old) m').find? := by
  induction l with
  | nil => exact fun h => h
  | cons entry l ih =>
    intro m m' h
    refine ih (funext fun k => ?_)
    rw [Bindings.find?_restore, Bindings.find?_restore, h]

/-! ## Opening a scope -/

theorem layers_pushScope (t : ScopedTable κ ν) : t.pushScope.layers = t.find? :: t.layers := by
  have hnow : t.undoTo t.undo.length = t.current := by
    unfold undoTo
    rw [Nat.sub_self]
    rfl
  show t.find? :: (t.undoTo t.undo.length).find? :: _ = _
  rw [hnow]
  rfl

omit [DecidableEq κ] in
theorem Nested.pushScope (h : t.Nested) : t.pushScope.Nested := by
  refine List.pairwise_cons.mpr ⟨fun m hm => ?_, h⟩
  rcases List.mem_cons.mp hm with rfl | hm
  · exact Nat.le_refl _
  · exact (List.pairwise_cons.mp h).1 m hm

/-! ## Binding a key -/

/-- Undoing a binding first brings back what the key was bound to. -/
theorem find?_undoTo_insert (hopen : t.marks ≠ []) (hmark : mark ≤ t.undo.length) :
    ((t.insert k v).undoTo mark).find? = (t.undoTo mark).find? := by
  have hundo : (t.insert k v).undo = (k, t.current.find? k) :: t.undo := by
    simp [insert, hopen]
  have hlen : (t.undo.length + 1) - mark = (t.undo.length - mark) + 1 := by omega
  unfold undoTo
  rw [hundo, List.length_cons, hlen, List.take_succ_cons, List.foldl_cons]
  refine find?_restoreAll_congr _ (funext fun k' => ?_)
  show ((t.current.insert k v).restore k (t.current.find? k)).find? k' = t.current.find? k'
  rw [Bindings.find?_restore, Bindings.find?_insert]
  split
  · next hk => rw [hk]
  · rfl

theorem layers_insert (h : t.Nested) (k : κ) (v : ν) :
    (t.insert k v).layers = (t.insert k v).find? :: t.layers.tail := by
  refine congrArg (List.cons _) (List.map_congr_left fun mark hmark => ?_)
  exact find?_undoTo_insert (List.ne_nil_of_mem hmark) ((List.pairwise_cons.mp h).1 mark hmark)

theorem Nested.insert (h : t.Nested) (k : κ) (v : ν) : (t.insert k v).Nested := by
  obtain ⟨hlast, hmarks⟩ := List.pairwise_cons.mp h
  have hlen : t.undo.length ≤ (t.insert k v).undo.length := by
    unfold ScopedTable.insert
    dsimp only
    split
    · exact Nat.le_refl _
    · exact Nat.le_succ _
  exact List.pairwise_cons.mpr ⟨fun m hm => Nat.le_trans (hlast m hm) hlen, hmarks⟩

/-! ## Closing a scope -/

/-- Closing a scope takes the top off the stack. -/
theorem layers_popScope (h : t.Nested) (hpop : t.popScope = .ok t') :
    t'.layers = t.layers.tail ∧ t'.Nested ∧ t'.marks = t.marks.tail := by
  unfold popScope at hpop
  cases hmarks : t.marks with
  | nil =>
    rw [hmarks] at hpop
    cases hpop
  | cons mark marks =>
    rw [hmarks] at hpop
    obtain rfl := Except.ok.inj hpop
    have hnested := h
    unfold Nested at hnested
    rw [hmarks] at hnested
    obtain ⟨hlast, hmarks'⟩ := List.pairwise_cons.mp hnested
    have hmark := hlast mark List.mem_cons_self
    have hlen : (t.undo.drop (t.undo.length - mark)).length = mark := by
      rw [List.length_drop]
      omega
    refine ⟨?_, ?_, rfl⟩
    · have htail : t.layers.tail =
          (t.undoTo mark).find? :: marks.map fun m => (t.undoTo m).find? := by
        unfold layers
        rw [hmarks]
        rfl
      rw [htail]
      refine congrArg (List.cons _) (List.map_congr_left fun m hm => ?_)
      -- undoing down to `mark` and then down to `m` is undoing down to `m`
      have hle := (List.pairwise_cons.mp hmarks').1 m hm
      have hsum : t.undo.length - m = (t.undo.length - mark) + (mark - m) := by omega
      unfold undoTo
      rw [hlen, hsum, List.take_add, List.foldl_append]
    · unfold Nested
      rw [hlen]
      exact hmarks'

end SsaOpt.ScopedTable
