import SsaOpt.Proofs.Memory
import SsaOpt.Proofs.SideEntries

/-! Walks through the control flow on which a load stays valid. A walk to a block is cut where it
leaves the immediate dominator for the last time; what follows are blocks that the search for side
clobbers looks at. -/

namespace SsaOpt

namespace Func

variable {f : Func} {x e : InstId} {b c d : BlockId} {pre : List InstId}

/-- On every walk from the entry that is in `b` after the instructions `pre`, `e` was executed,
and after its last execution nothing that may write to any address. -/
def Unclobbered (f : Func) (e : InstId) (b : BlockId) (pre : List InstId) : Prop :=
  ∀ q, Path f.Edge .entry b (q ++ [b]) → ∃ before after,
    q.flatMap f.listOf ++ pre = before ++ e :: after ∧ e ∉ after ∧ ∀ j ∈ after, ¬f.Clobbers j

namespace Unclobbered

theorem executed : Unclobbered f e b (pre ++ [e]) := by
  intro q _
  exact ⟨q.flatMap f.listOf ++ pre, [], by simp, by simp, by simp⟩

theorem step (h : Unclobbered f e b pre) (hx : x ≠ e) (hclobbers : ¬f.Clobbers x) :
    Unclobbered f e b (pre ++ [x]) := by
  intro q hq
  obtain ⟨before, after, hsplit, he, hafter⟩ := h q hq
  refine ⟨before, after ++ [x], ?_, ?_, ?_⟩
  · rw [← List.append_assoc, hsplit]
    simp
  · simpa [he] using hx.symm
  · intro j hj
    rcases List.mem_append.mp hj with hj | hj
    · exact hafter j hj
    · exact List.mem_singleton.mp hj ▸ hclobbers

/-- What every walk to a block executes stands in a dominator of the block. -/
theorem dom (hf : f.Valid) (h : Unclobbered f e b pre) (hpre : pre ⊆ f.listOf b)
    (hb : f.Reached b) (he : e ∈ f.listOf c) : f.Dom c b := by
  refine ⟨hb, fun p hp => ?_⟩
  obtain ⟨q, rfl⟩ := hp.exists_eq_concat
  obtain ⟨before, after, hsplit, -⟩ := h q hp
  have hmem : e ∈ (q ++ [b]).flatMap f.listOf := by
    have hmem : e ∈ q.flatMap f.listOf ++ pre := by simp [hsplit]
    rw [List.flatMap_append, List.flatMap_singleton]
    rcases List.mem_append.mp hmem with hmem | hmem
    · exact List.mem_append_left _ hmem
    · exact List.mem_append_right _ (hpre hmem)
  obtain ⟨c', hc', he'⟩ := List.mem_flatMap.mp hmem
  exact hf.consistent.home_unique he he' ▸ hc'

/-- Control comes to a block from its dominator `d` along blocks that do not clobber. -/
theorem enter (hf : f.Valid) (h : Unclobbered f e d (f.listOf d)) (hdom : f.Dom d b) (hne : d ≠ b)
    (hside : ∀ s, Path f.Edge d b (d :: (s ++ [b])) → d ∉ s →
      ∀ c ∈ s, ∀ j ∈ f.listOf c, ¬f.Clobbers j) : Unclobbered f e b [] := by
  intro q hq
  have hdq : d ∈ q := by
    rcases List.mem_append.mp (hdom.2 _ hq) with hmem | hmem
    · exact hmem
    · exact absurd (List.mem_singleton.mp hmem) hne
  obtain ⟨q₁, q₂, rfl, hlast⟩ := exists_last_of_mem hdq
  obtain ⟨hpath, hrest⟩ := hq.split (a := d) (x := q₁) (y := q₂ ++ [b]) (by simp)
  obtain ⟨before, after, hsplit, he, hafter⟩ := h q₁ hpath
  refine ⟨before, after ++ q₂.flatMap f.listOf, ?_, ?_, ?_⟩
  · have hwhole : (q₁ ++ d :: q₂).flatMap f.listOf ++ [] =
        (q₁.flatMap f.listOf ++ f.listOf d) ++ q₂.flatMap f.listOf := by simp
    rw [hwhole, hsplit]
    simp
  · intro hmem
    rcases List.mem_append.mp hmem with hmem | hmem
    · exact he hmem
    · -- its block dominates `d`, so the walk does not come to it after `d`
      obtain ⟨c, hc, hec⟩ := List.mem_flatMap.mp hmem
      have hcd : c ≠ d := by
        rintro rfl
        exact hlast hc
      have hdom' := h.dom hf (List.Subset.refl _) hdom.reaches_left hec
      have hd : d ∉ q₂ ++ [b] := by simp [hlast, hne]
      exact hdom'.not_mem_of_path hcd hdom hrest hd (List.mem_append_left _ hc)
  · intro j hj
    rcases List.mem_append.mp hj with hj | hj
    · exact hafter j hj
    · obtain ⟨c, hc, hjc⟩ := List.mem_flatMap.mp hj
      exact hside q₂ hrest hlast c hc j hjc

end Unclobbered

end Func

namespace Loads

/-- No way from the immediate dominator of `b` to `b` leads past a clobber. -/
def EnteredClean (a : Analysis) (f : Func) (b : BlockId) : Prop :=
  ∀ d s, a.dom.idom? b = some d → Path f.Edge d b (d :: (s ++ [b])) → d ∉ s →
    ∀ c ∈ s, ∀ i ∈ f.listOf c, ¬f.Clobbers i

variable {f : Func} {a : Analysis} {rank : BlockId → Nat} {clobbers s : List BlockId}
  {b d : BlockId} (hd : a.Describes f rank)
include hd

/-- Without side clobbers no block on the way from the immediate dominator clobbers. -/
theorem not_mem_of_sideClobbers (h : a.dom.idom? b = some d)
    (hside : sideClobbers a clobbers b = false) (hpath : Path f.Edge d b (d :: (s ++ [b])))
    (hds : d ∉ s) : ∀ c ∈ s, c ∉ clobbers := by
  intro c hc hclobber
  obtain ⟨hdom, hne, -⟩ := hd.idom?_spec h
  obtain ⟨s₁, s₂, rfl⟩ := List.append_of_mem hc
  obtain ⟨hto, hfrom⟩ := hpath.split (a := c) (x := d :: s₁) (y := s₂ ++ [b]) (by simp)
  obtain ⟨q, hq⟩ := hdom.reaches_left
  have hcd : c ≠ d := fun hcd => hds (hcd ▸ hc)
  have hds₂ : d ∉ s₂ ++ [b] := by
    simp only [List.mem_append, List.mem_cons, not_or] at hds
    simp [hds.2.2, hne]
  have hbypass : f.Bypasses d c b :=
    ⟨(hq.append hto).reaches, hcd, s₂ ++ [b], by simp, hfrom, hds₂⟩
  rw [(sideClobbers_iff hd h).mpr ⟨c, hclobber, hbypass⟩] at hside
  cases hside

/-- If no way from the immediate dominator clobbers, there are no side clobbers. -/
theorem sideClobbers_eq_false (h : EnteredClean a f b)
    (hclobbers : ∀ c ∈ clobbers, ∃ i ∈ f.listOf c, f.Clobbers i) :
    sideClobbers a clobbers b = false := by
  cases hidom : a.dom.idom? b with
  | none => simp [sideClobbers, hidom]
  | some d =>
    rw [Bool.eq_false_iff]
    intro hside
    obtain ⟨c, hc, hbypass⟩ := (sideClobbers_iff hd hidom).mp hside
    obtain ⟨s, hs, hds, hcs⟩ := hbypass.exists_path (hd.idom?_spec hidom).1
    obtain ⟨i, hi, hclobber⟩ := hclobbers c hc
    exact h d s hidom hs hds c hcs i hi hclobber

end Loads

end SsaOpt
