import SsaOpt.Proofs.Traversal

/-! Reverse postorder. The search finds every block that the entry reaches, each once, and puts
every block after some predecessor of it. So a block stands after all its strict dominators. An edge
that does not lead to a later block lies on a cycle: when its source was done, its target was still
on the stack. -/

namespace SsaOpt

namespace FlowGraph

/-- What holds of the blocks in reverse postorder. -/
structure Postordered (g : FlowGraph) (order : List BlockId) : Prop where
  nodup : order.Nodup
  mem_iff : ∀ b, b ∈ order ↔ Reaches g.Edge .entry b
  parentsFirst : g.ParentsFirst order
  retreats : g.RetreatsOnCycles order

theorem Exploring.postordered {g : FlowGraph} {t : Traversal} (h : g.Exploring t)
    (hframes : t.frames = []) : g.Postordered t.done := by
  have hopened : t.opened = [] := by simp [Traversal.opened, hframes]
  have hperm : t.visited.Perm t.done := by simpa [hopened] using h.perm
  refine ⟨hperm.nodup_iff.mp h.nodup,
    fun b => ⟨fun hb => h.reaches b (hperm.mem_iff.mpr hb), ?_⟩,
    by simpa [hopened] using h.ordered, h.retreats⟩
  rintro ⟨p, hp⟩
  induction hp with
  | start => exact hperm.mem_iff.mp h.entry_mem
  | step _ he ih => exact hperm.mem_iff.mp (h.closed _ ih _ he)

theorem TargetsExist.postordered {g : FlowGraph} (ht : g.TargetsExist) (h₀ : 0 < g.size) :
    g.Postordered g.reversePostorder := by
  obtain ⟨n, hframes, hdone⟩ := ht.endsWith_reversePostorder h₀
  rw [← hdone]
  exact ((Exploring.start g).iterate n).postordered hframes

theorem Valid.postordered {g : FlowGraph} (hg : g.Valid) (h₀ : 0 < g.size) :
    g.Postordered g.reversePostorder :=
  hg.targetsExist.postordered h₀

namespace Postordered

variable {g : FlowGraph} {order : List BlockId} (h : g.Postordered order)
include h

theorem exists_eq_cons : ∃ rest, order = .entry :: rest := by
  cases order with
  | nil => exact absurd ((h.mem_iff .entry).mpr .refl) (by simp)
  | cons c rest =>
    rcases h.parentsFirst [] c rest rfl with rfl | ⟨p, hp, -⟩
    · exact ⟨rest, rfl⟩
    · simp at hp

theorem idxOf_lt_of_mem {pre post : List BlockId} {a b : BlockId} (he : order = pre ++ b :: post)
    (ha : a ∈ pre) : order.idxOf a < order.idxOf b := by
  subst he
  have hb : b ∉ pre := by
    intro hb
    exact (List.nodup_append'.mp h.nodup).2.2 hb List.mem_cons_self
  rw [List.idxOf_append_of_mem ha, List.idxOf_append_of_notMem hb]
  have := List.idxOf_lt_length_of_mem ha
  omega

theorem exists_parent {b : BlockId} (hb : b ∈ order) (hne : b ≠ .entry) :
    ∃ p ∈ order, g.Edge p b ∧ order.idxOf p < order.idxOf b := by
  obtain ⟨pre, post, he⟩ := List.append_of_mem hb
  obtain ⟨p, hp, hpb⟩ := (h.parentsFirst pre b post he).resolve_left hne
  exact ⟨p, by simp [he, hp], hpb, h.idxOf_lt_of_mem he hp⟩

/-- Parents lead to a block along blocks of lower place. -/
theorem exists_rising_path {b : BlockId} (hb : b ∈ order) :
    ∃ p, Path g.Edge .entry b p ∧ ∀ c ∈ p, c = b ∨ order.idxOf c < order.idxOf b := by
  generalize hn : order.idxOf b = n
  induction n using Nat.strongRecOn generalizing b with
  | _ n ih =>
    subst hn
    by_cases he : b = .entry
    · subst he
      exact ⟨_, .start, fun c hc => .inl (by simpa using hc)⟩
    · obtain ⟨q, hq, hqb, hlt⟩ := h.exists_parent hb he
      obtain ⟨p, hp, hall⟩ := ih _ hlt hq rfl
      refine ⟨_, hp.step hqb, fun c hc => ?_⟩
      rcases List.mem_append.mp hc with hc | hc
      · rcases hall c hc with rfl | hc
        · exact .inr hlt
        · exact .inr (by omega)
      · exact .inl (by simpa using hc)

/-- Strict dominators come first. -/
theorem idxOf_lt_of_dominates {a b : BlockId} (hab : Dominates g.Edge .entry a b) (hne : a ≠ b) :
    order.idxOf a < order.idxOf b := by
  obtain ⟨p, hp, hall⟩ := h.exists_rising_path ((h.mem_iff b).mpr hab.1)
  exact (hall a (hab.2 p hp)).resolve_left hne

/-- An edge to a block that does not come strictly later lies on a cycle. -/
theorem reaches_of_not_lt {u v : BlockId} (hu : u ∈ order) (huv : g.Edge u v)
    (hlt : ¬order.idxOf u < order.idxOf v) : Reaches g.Edge v u := by
  obtain ⟨pre, post, he⟩ := List.append_of_mem hu
  refine (h.retreats pre u post he v huv).resolve_left fun hv => hlt ?_
  obtain ⟨x, y, rfl⟩ := List.append_of_mem hv
  have he' : order = (pre ++ u :: x) ++ v :: y := by simpa using he
  exact h.idxOf_lt_of_mem he' (by simp)

end Postordered

/-- **The search ends in reverse postorder.** On every graph that has a block and lacks no successor
the loop ends, with the list `reversePostorder`. It starts with the entry and has the blocks that
the entry reaches, each of them once. An edge between two of them that does not lead to a strictly
later one leads to a block that leads back, and every block comes after its strict dominators. -/
theorem search_ends_in_reverse_postorder (g : FlowGraph) (h₀ : 0 < g.size) (ht : g.TargetsExist) :
    g.EndsWith .start g.reversePostorder ∧ g.reversePostorder.head? = some .entry ∧
      g.reversePostorder.Nodup ∧ (∀ b, b ∈ g.reversePostorder ↔ Reaches g.Edge .entry b) ∧
      (∀ u v, Reaches g.Edge .entry u → Reaches g.Edge .entry v → g.Edge u v →
        ¬g.reversePostorder.idxOf u < g.reversePostorder.idxOf v → Reaches g.Edge v u) ∧
      ∀ a b, Dominates g.Edge .entry a b → a ≠ b →
        g.reversePostorder.idxOf a < g.reversePostorder.idxOf b := by
  have ho := ht.postordered h₀
  refine ⟨ht.endsWith_reversePostorder h₀, ?_, ho.nodup, ho.mem_iff, ?_, ?_⟩
  · obtain ⟨rest, he⟩ := ho.exists_eq_cons
    rw [he]
    rfl
  · intro u v hu _ huv hlt
    exact ho.reaches_of_not_lt ((ho.mem_iff u).mpr hu) huv hlt
  · intro a b hab hne
    exact ho.idxOf_lt_of_dominates hab hne

/-- Two branches that meet in a block, which leads back into one of them, to itself and to the
entry. One edge is recorded twice, and one block is unreachable. -/
def backEdges : FlowGraph :=
  .ofSuccs #[[⟨1⟩, ⟨2⟩], [⟨3⟩], [⟨3⟩, ⟨3⟩], [⟨1⟩, ⟨3⟩, ⟨0⟩], [⟨3⟩]]

example : backEdges.reversePostorder = [⟨0⟩, ⟨2⟩, ⟨1⟩, ⟨3⟩] := by decide

theorem search_ends_in_reverse_postorder_backEdges :
    0 < backEdges.size ∧ backEdges.TargetsExist ∧
      backEdges.EndsWith .start backEdges.reversePostorder ∧
      backEdges.reversePostorder.head? = some .entry ∧ backEdges.reversePostorder.Nodup ∧
      (∀ b, b ∈ backEdges.reversePostorder ↔ Reaches backEdges.Edge .entry b) ∧
      (∀ u v, Reaches backEdges.Edge .entry u → Reaches backEdges.Edge .entry v →
        backEdges.Edge u v →
        ¬backEdges.reversePostorder.idxOf u < backEdges.reversePostorder.idxOf v →
        Reaches backEdges.Edge v u) ∧
      ∀ a b, Dominates backEdges.Edge .entry a b → a ≠ b →
        backEdges.reversePostorder.idxOf a < backEdges.reversePostorder.idxOf b :=
  ⟨by decide, by decide, search_ends_in_reverse_postorder backEdges (by decide) (by decide)⟩

end FlowGraph

end SsaOpt
