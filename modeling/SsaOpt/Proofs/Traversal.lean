import Mathlib.Data.List.Perm.Subperm
import Mathlib.Logic.Function.Iterate
import SsaOpt.FlowGraph
import SsaOpt.Proofs.Path

/-! Depth-first search. The search is a loop that looks at one successor a round, with an explicit
stack of frames: a block, and the slot of its row to look at next. A block is marked when it is put
on the stack, and done when its row has no slot left. -/

namespace SsaOpt

theorem BlockId.length_le_of_nodup {n : Nat} {bs : List BlockId} (hnd : bs.Nodup)
    (h : ∀ b ∈ bs, b.index < n) : bs.length ≤ n := by
  have hsub : bs ⊆ BlockId.upTo n := fun b hb => BlockId.mem_upTo.mpr (h b hb)
  simpa using (hnd.subperm hsub).length_le

namespace FlowGraph

/-- Control may go from the end of `a` to `b`. -/
def Edge (g : FlowGraph) (a b : BlockId) : Prop := b ∈ g.succs a

/-- Every successor is a block of the graph. -/
def TargetsExist (g : FlowGraph) : Prop := ∀ row ∈ g.succRows, ∀ b ∈ row, b.index < g.size

instance (g : FlowGraph) : Decidable g.TargetsExist := inferInstanceAs (Decidable (∀ _ ∈ _, _))

/-- Every target exists, and both records of the edges agree. -/
structure Valid (g : FlowGraph) : Prop where
  target_lt : ∀ {a b : BlockId}, g.Edge a b → b.index < g.size
  mem_preds : ∀ {a b : BlockId}, a ∈ g.preds b ↔ g.Edge a b

theorem Edge.source_lt {g : FlowGraph} {a b : BlockId} (h : g.Edge a b) : a.index < g.size := by
  by_contra hlt
  have hrow : g.succRows[a.index]? = none := Array.getElem?_eq_none (Nat.not_lt.mp hlt)
  simp [Edge, succs, Array.getD_eq_getD_getElem?, hrow] at h

theorem valid_ofSuccs {rows : Array (List BlockId)}
    (h : ∀ a b : BlockId, b ∈ (ofSuccs rows).succs a → b.index < rows.size) :
    (ofSuccs rows).Valid := by
  refine ⟨fun {a b} hab => h a b hab, fun {a b} => ?_⟩
  by_cases hb : b.index < rows.size
  · rw [mem_preds_ofSuccs hb]
    exact ⟨And.right, fun hab => ⟨Edge.source_lt hab, hab⟩⟩
  · have hrow : (ofSuccs rows).predRows[b.index]? = none := by
      apply Array.getElem?_eq_none
      simpa [ofSuccs] using hb
    constructor
    · intro ha
      simp [preds, Array.getD_eq_getD_getElem?, hrow] at ha
    · intro hab
      exact absurd (h a b hab) hb

theorem targetsExist_iff {g : FlowGraph} :
    g.TargetsExist ↔ ∀ a b : BlockId, g.Edge a b → b.index < g.size := by
  constructor
  · intro h a b hab
    have ha : a.index < g.succRows.size := hab.source_lt
    have hrow : g.succs a = g.succRows[a.index] := by
      simp [succs, Array.getD_eq_getD_getElem?, ha]
    rw [Edge, hrow] at hab
    exact h _ (Array.getElem_mem ha) b hab
  · intro h row hrow b hb
    obtain ⟨i, hi, rfl⟩ := Array.getElem_of_mem hrow
    refine h ⟨i⟩ b ?_
    simpa [Edge, succs, Array.getD_eq_getD_getElem?, hi] using hb

theorem Valid.targetsExist {g : FlowGraph} (hg : g.Valid) : g.TargetsExist :=
  targetsExist_iff.mpr fun _ _ hab => hg.target_lt hab

theorem TargetsExist.lt_of_reaches {g : FlowGraph} (ht : g.TargetsExist) (h₀ : 0 < g.size)
    {b : BlockId} (h : Reaches g.Edge .entry b) : b.index < g.size := by
  obtain ⟨p, hp⟩ := h
  cases hp with
  | start => exact h₀
  | step _ he => exact targetsExist_iff.mp ht _ _ he

theorem Valid.lt_of_reaches {g : FlowGraph} (hg : g.Valid) (h₀ : 0 < g.size) {b : BlockId}
    (h : Reaches g.Edge .entry b) : b.index < g.size :=
  hg.targetsExist.lt_of_reaches h₀ h

/-! ## The loop -/

/-- The search between two rounds: the blocks marked so far, the frames with the top one first, and
the blocks that are done with the last one first. -/
structure Traversal where
  visited : List BlockId
  frames : List (BlockId × Nat)
  done : List BlockId

namespace Traversal

/-- The entry is marked, and none of its slots was looked at. -/
def start : Traversal := ⟨[.entry], [(.entry, 0)], []⟩

/-- The blocks on the stack, bottom first. -/
def opened (t : Traversal) : List BlockId := (t.frames.map Prod.fst).reverse

end Traversal

/-- One round of the search: the block on top looks at its next slot, or is done if it has none
left. Without a frame there is nothing to do. -/
def advance (g : FlowGraph) (t : Traversal) : Traversal :=
  match t.frames with
  | [] => t
  | (b, slot) :: frames =>
    match (g.succs b)[slot]? with
    | none => { t with frames, done := b :: t.done }
    | some s =>
      if s ∈ t.visited then { t with frames := (b, slot + 1) :: frames }
      else { t with visited := s :: t.visited, frames := (s, 0) :: (b, slot + 1) :: frames }

/-- After some number of rounds no frame is left, and the blocks that are done are `order`. -/
def EndsWith (g : FlowGraph) (t : Traversal) (order : List BlockId) : Prop :=
  ∃ rounds, (Nat.iterate g.advance rounds t).frames = [] ∧
    (Nat.iterate g.advance rounds t).done = order

theorem EndsWith.of_advance {g : FlowGraph} {t : Traversal} {order : List BlockId}
    (h : g.EndsWith (g.advance t) order) : g.EndsWith t order := by
  obtain ⟨n, hframes, hdone⟩ := h
  exact ⟨n + 1, hframes, hdone⟩

section Rounds

variable {g : FlowGraph} {visited done : List BlockId} {b s : BlockId} {slot : Nat}
  {frames : List (BlockId × Nat)}

theorem edge_of_slot (h : (g.succs b)[slot]? = some s) : g.Edge b s := List.mem_of_getElem? h

theorem mem_take_of_slot {x : BlockId} (h : (g.succs b)[slot]? = some s)
    (hx : x ∈ (g.succs b).take (slot + 1)) : x = s ∨ x ∈ (g.succs b).take slot := by
  rw [List.take_add_one, h] at hx
  simpa [or_comm] using hx

theorem advance_finish (h : (g.succs b)[slot]? = none) :
    g.advance ⟨visited, (b, slot) :: frames, done⟩ = ⟨visited, frames, b :: done⟩ := by
  simp [advance, h]

theorem advance_pass (h : (g.succs b)[slot]? = some s) (hs : s ∈ visited) :
    g.advance ⟨visited, (b, slot) :: frames, done⟩ = ⟨visited, (b, slot + 1) :: frames, done⟩ := by
  simp [advance, h, hs]

theorem advance_enter (h : (g.succs b)[slot]? = some s) (hs : s ∉ visited) :
    g.advance ⟨visited, (b, slot) :: frames, done⟩ =
      ⟨s :: visited, (s, 0) :: (b, slot + 1) :: frames, done⟩ := by
  simp [advance, h, hs]

end Rounds

/-! ## What every round keeps -/

/-- Every block of the list but the entry stands behind one of its predecessors. -/
def ParentsFirst (g : FlowGraph) (order : List BlockId) : Prop :=
  ∀ pre c post, order = pre ++ c :: post → c = .entry ∨ ∃ p ∈ pre, g.Edge p c

theorem ParentsFirst.insert {g : FlowGraph} {x y : List BlockId} {b s : BlockId}
    (h : g.ParentsFirst (x ++ y)) (hb : b ∈ x) (hs : g.Edge b s) :
    g.ParentsFirst (x ++ s :: y) := by
  intro pre c post he
  rcases List.append_eq_append_iff.mp he with ⟨t, rfl, ht⟩ | ⟨t, rfl, ht⟩
  · cases t with
    | nil =>
      obtain ⟨rfl, -⟩ : s = c ∧ y = post := by simpa using ht
      exact .inr ⟨b, by simpa using hb, hs⟩
    | cons z t =>
      obtain ⟨rfl, rfl⟩ : s = z ∧ y = t ++ c :: post := by simpa using ht
      rcases h (x ++ t) c post (by simp) with hc | ⟨p, hp, hpc⟩
      · exact .inl hc
      · refine .inr ⟨p, ?_, hpc⟩
        rcases List.mem_append.mp hp with hp | hp <;> simp [hp]
  · cases t with
    | nil =>
      obtain ⟨rfl, -⟩ : c = s ∧ post = y := by simpa using ht
      exact .inr ⟨b, by simpa using hb, hs⟩
    | cons z t =>
      obtain ⟨rfl, rfl⟩ : c = z ∧ post = t ++ s :: y := by simpa using ht
      exact h pre c (t ++ y) (by simp)

/-- Every edge leads to a later block of the list, or to a block that leads back. -/
def RetreatsOnCycles (g : FlowGraph) (order : List BlockId) : Prop :=
  ∀ pre u post, order = pre ++ u :: post → ∀ v, g.Edge u v → v ∈ post ∨ Reaches g.Edge v u

theorem RetreatsOnCycles.cons {g : FlowGraph} {order : List BlockId} {b : BlockId}
    (h : g.RetreatsOnCycles order) (hb : ∀ v, g.Edge b v → v ∈ order ∨ Reaches g.Edge v b) :
    g.RetreatsOnCycles (b :: order) := by
  intro pre u post he
  cases pre with
  | nil =>
    obtain ⟨rfl, rfl⟩ : b = u ∧ order = post := by simpa using he
    exact hb
  | cons c pre =>
    obtain ⟨-, rfl⟩ : b = c ∧ order = pre ++ u :: post := by simpa using he
    exact h pre u post rfl

/-- The state of the search. The blocks on the stack are a path from the entry, and all they have
looked at is marked; the blocks that are done lead to marked ones only. With the blocks on the stack
in front, those that are done are in reverse postorder already; blocks that are found later come in
between. -/
structure Exploring (g : FlowGraph) (t : Traversal) : Prop where
  nodup : t.visited.Nodup
  perm : t.visited.Perm (t.opened ++ t.done)
  entry_mem : .entry ∈ t.visited
  reaches : ∀ b ∈ t.visited, Reaches g.Edge .entry b
  trail : t.opened = [] ∨ ∃ b, Path g.Edge .entry b t.opened
  looked : ∀ b slot, (b, slot) ∈ t.frames → ∀ s ∈ (g.succs b).take slot, s ∈ t.visited
  closed : ∀ b ∈ t.done, ∀ s, g.Edge b s → s ∈ t.visited
  ordered : g.ParentsFirst (t.opened ++ t.done)
  retreats : g.RetreatsOnCycles t.done

theorem Exploring.start (g : FlowGraph) : g.Exploring .start where
  nodup := List.nodup_singleton _
  perm := List.Perm.refl _
  entry_mem := List.mem_singleton_self _
  reaches b hb := by
    obtain rfl := List.mem_singleton.mp hb
    exact .refl
  trail := .inr ⟨.entry, .start⟩
  looked b slot hb := by
    obtain ⟨rfl, rfl⟩ : b = .entry ∧ slot = 0 := by simpa [Traversal.start] using hb
    simp
  closed b hb := by simp [Traversal.start] at hb
  ordered pre c post he := by
    cases pre with
    | nil => exact .inl (by simpa using (List.cons.inj he).1.symm)
    | cons x pre => simp [Traversal.start, Traversal.opened] at he
  retreats pre u post he := by simp [Traversal.start] at he

section Steps

variable {g : FlowGraph} {visited done : List BlockId} {b s : BlockId} {slot : Nat}
  {frames : List (BlockId × Nat)} (h : g.Exploring ⟨visited, (b, slot) :: frames, done⟩)
include h

/-- The blocks on the stack lead to the one on top. -/
theorem Exploring.path_top :
    Path g.Edge .entry b ((frames.map Prod.fst).reverse ++ [b]) := by
  rcases h.trail with he | ⟨c, hc⟩
  · simp [Traversal.opened] at he
  · obtain ⟨front, hfront⟩ := hc.exists_eq_concat
    simp only [Traversal.opened, List.map_cons, List.reverse_cons] at hc hfront
    obtain rfl : b = c := by simpa using (List.append_inj' hfront rfl).2
    exact hc

/-- A marked block is done, or it is on the stack and leads to the one on top. -/
theorem Exploring.done_or_reaches_top {v : BlockId} (hv : v ∈ visited) :
    v ∈ done ∨ Reaches g.Edge v b := by
  rcases List.mem_append.mp (h.perm.mem_iff.mp hv) with hopen | hdone
  · -- the part of the stack from `v` on is a path of its own
    obtain ⟨x, y, he⟩ := List.append_of_mem hopen
    simp only [Traversal.opened, List.map_cons, List.reverse_cons] at he
    exact .inr (h.path_top.split he).2.reaches
  · exact .inl hdone

/-- A block without slots left has marked all its successors. -/
theorem Exploring.mem_of_edge (hslot : (g.succs b)[slot]? = none) (hs : g.Edge b s) :
    s ∈ visited := by
  refine h.looked b slot List.mem_cons_self s ?_
  rwa [List.take_of_length_le (List.getElem?_eq_none_iff.mp hslot)]

/-- The block on top has no slot left. -/
theorem Exploring.finish (hslot : (g.succs b)[slot]? = none) :
    g.Exploring ⟨visited, frames, b :: done⟩ where
  nodup := h.nodup
  perm := by simpa [Traversal.opened] using h.perm
  entry_mem := h.entry_mem
  reaches := h.reaches
  trail := by
    rcases h.path_top.last_step with ⟨-, he⟩ | ⟨c, p, hp, -, he⟩
    · exact .inl (by simpa [Traversal.opened] using congrArg List.length he)
    · refine .inr ⟨c, ?_⟩
      rwa [Traversal.opened, (List.append_inj' he rfl).1]
  looked c k hc := h.looked c k (List.mem_cons_of_mem _ hc)
  closed c hc s hs := by
    rcases List.mem_cons.mp hc with rfl | hc
    · exact h.mem_of_edge hslot hs
    · exact h.closed c hc s hs
  ordered := by simpa [Traversal.opened] using h.ordered
  retreats := h.retreats.cons fun _ hv => h.done_or_reaches_top (h.mem_of_edge hslot hv)

/-- The block on top looks at a block that was marked before. -/
theorem Exploring.pass (hslot : (g.succs b)[slot]? = some s) (hs : s ∈ visited) :
    g.Exploring ⟨visited, (b, slot + 1) :: frames, done⟩ where
  nodup := h.nodup
  perm := h.perm
  entry_mem := h.entry_mem
  reaches := h.reaches
  trail := h.trail
  looked c k hc x hx := by
    rcases List.mem_cons.mp hc with he | hc
    · obtain ⟨rfl, rfl⟩ := Prod.mk.inj he
      rcases mem_take_of_slot hslot hx with rfl | hx
      · exact hs
      · exact h.looked c slot List.mem_cons_self x hx
    · exact h.looked c k (List.mem_cons_of_mem _ hc) x hx
  closed := h.closed
  ordered := h.ordered
  retreats := h.retreats

/-- The block on top looks at a block that was not marked before. -/
theorem Exploring.enter (hslot : (g.succs b)[slot]? = some s) (hs : s ∉ visited) :
    g.Exploring ⟨s :: visited, (s, 0) :: (b, slot + 1) :: frames, done⟩ where
  nodup := List.nodup_cons.mpr ⟨hs, h.nodup⟩
  perm := by
    have hp : visited.Perm (((frames.map Prod.fst).reverse ++ [b]) ++ done) := by
      simpa [Traversal.opened] using h.perm
    simpa [Traversal.opened] using List.perm_cons_append_cons s hp
  entry_mem := List.mem_cons_of_mem _ h.entry_mem
  reaches c hc := by
    rcases List.mem_cons.mp hc with rfl | hc
    · exact h.path_top.reaches.step (edge_of_slot hslot)
    · exact h.reaches c hc
  trail := .inr ⟨s, by simpa [Traversal.opened] using h.path_top.step (edge_of_slot hslot)⟩
  looked c k hc x hx := by
    simp only [List.mem_cons, Prod.mk.injEq] at hc ⊢
    rcases hc with ⟨rfl, rfl⟩ | ⟨rfl, rfl⟩ | hc
    · simp at hx
    · exact (mem_take_of_slot hslot hx).imp id (h.looked c slot List.mem_cons_self x)
    · exact .inr (h.looked c k (List.mem_cons_of_mem _ hc) x hx)
  closed c hc x hx := List.mem_cons_of_mem _ (h.closed c hc x hx)
  ordered := by
    have ho : g.ParentsFirst (((frames.map Prod.fst).reverse ++ [b]) ++ done) := by
      simpa [Traversal.opened] using h.ordered
    simpa [Traversal.opened] using ho.insert (b := b) (by simp) (edge_of_slot hslot)
  retreats := h.retreats

end Steps

theorem Exploring.advance {g : FlowGraph} {t : Traversal} (h : g.Exploring t) :
    g.Exploring (g.advance t) := by
  obtain ⟨visited, frames, done⟩ := t
  cases frames with
  | nil => exact h
  | cons frame frames =>
    obtain ⟨b, slot⟩ := frame
    cases hslot : (g.succs b)[slot]? with
    | none =>
      rw [advance_finish hslot]
      exact h.finish hslot
    | some s =>
      by_cases hs : s ∈ visited
      · rw [advance_pass hslot hs]
        exact h.pass hslot hs
      · rw [advance_enter hslot hs]
        exact h.enter hslot hs

theorem Exploring.iterate {g : FlowGraph} {t : Traversal} (h : g.Exploring t) (rounds : Nat) :
    g.Exploring (Nat.iterate g.advance rounds t) := by
  induction rounds with
  | zero => exact h
  | succ n ih =>
    rw [Function.iterate_succ_apply']
    exact ih.advance

theorem Exploring.length_le {g : FlowGraph} {t : Traversal} (h : g.Exploring t)
    (ht : g.TargetsExist) (h₀ : 0 < g.size) : t.visited.length ≤ g.size :=
  BlockId.length_le_of_nodup h.nodup fun b hb => ht.lt_of_reaches h₀ (h.reaches b hb)

/-! ## The loop ends -/

section Explore

variable {g : FlowGraph} {visited done rest : List BlockId} {b s : BlockId}
  {stack : List (BlockId × List BlockId)}

theorem explore_finish (fuel : Nat) :
    g.explore (fuel + 1) visited ((b, []) :: stack) done =
      g.explore fuel visited stack (b :: done) := rfl

theorem explore_pass (fuel : Nat) (hs : s ∈ visited) :
    g.explore fuel visited ((b, s :: rest) :: stack) done =
      g.explore fuel visited ((b, rest) :: stack) done := by
  cases fuel with
  | zero => rfl
  | succ fuel => simp [explore, hs]

theorem explore_enter (fuel : Nat) (hs : s ∉ visited) :
    g.explore (fuel + 1) visited ((b, s :: rest) :: stack) done =
      g.explore fuel (s :: visited) ((s, g.succs s) :: (b, rest) :: stack) done := by
  simp [explore, hs]

end Explore

/-- The frames, with the part of each row that was not looked at. -/
def pending (g : FlowGraph) (frames : List (BlockId × Nat)) : List (BlockId × List BlockId) :=
  frames.map fun frame => (frame.1, (g.succs frame.1).drop frame.2)

/-- The search computes the end of the loop. Marking a block uses up one that was not marked yet,
and a block that is done is one frame less; passing over a marked block only shortens a row. -/
theorem Exploring.endsWith_explore {g : FlowGraph} (ht : g.TargetsExist) (h₀ : 0 < g.size)
    (fuel : Nat) : ∀ t : Traversal, g.Exploring t →
      2 * (g.size - t.visited.length) + t.frames.length < fuel →
      g.EndsWith t (g.explore fuel t.visited (g.pending t.frames) t.done) := by
  induction fuel with
  | zero => intro _ _ hf; omega
  | succ fuel ih =>
    rintro ⟨visited, frames, done⟩ h hf
    cases frames with
    | nil => exact ⟨0, rfl, rfl⟩
    | cons frame frames =>
      obtain ⟨b, slot⟩ := frame
      simp only [pending, List.map_cons]
      -- the rest of the row on top gets shorter while the fuel stays the same
      generalize hrow : (g.succs b).drop slot = row
      induction row generalizing slot with
      | nil =>
        have hslot : (g.succs b)[slot]? = none := by rw [← List.head?_drop, hrow]; rfl
        rw [explore_finish]
        refine .of_advance ?_
        rw [advance_finish hslot]
        refine ih _ (h.finish hslot) ?_
        simp only [List.length_cons] at hf ⊢
        omega
      | cons s rest ihrow =>
        have hslot : (g.succs b)[slot]? = some s := by rw [← List.head?_drop, hrow]; rfl
        have hrest : (g.succs b).drop (slot + 1) = rest := by rw [← List.tail_drop, hrow]; rfl
        refine .of_advance ?_
        by_cases hs : s ∈ visited
        · rw [explore_pass _ hs, advance_pass hslot hs]
          exact ihrow (slot + 1) (h.pass hslot hs) hf hrest
        · rw [explore_enter _ hs, advance_enter hslot hs]
          have hnext := h.enter hslot hs
          have hlen := hnext.length_le ht h₀
          have hend := ih _ hnext (by simp only [List.length_cons] at hf hlen ⊢; omega)
          simpa only [pending, List.map_cons, List.drop_zero, hrest] using hend

theorem TargetsExist.endsWith_reversePostorder {g : FlowGraph} (ht : g.TargetsExist)
    (h₀ : 0 < g.size) : g.EndsWith .start g.reversePostorder := by
  rw [reversePostorder, if_neg (by omega)]
  refine Exploring.endsWith_explore ht h₀ _ .start (Exploring.start g) ?_
  simp only [Traversal.start, List.length_cons, List.length_nil]
  omega

end FlowGraph

end SsaOpt
