import SsaOpt.Loads.Elimination
import SsaOpt.Proofs.Search

/-! Ways into a block that do not come from its immediate dominator. The search for side clobbers
goes back from the predecessors of a block and stops at the immediate dominator, so it finds the
blocks that such ways lead through. A block with one reachable predecessor has none: the predecessor
is its immediate dominator. -/

namespace SsaOpt

namespace Func

variable {f : Func} {b c d : BlockId}

/-- From the reachable block `c` control gets to `b` in one step or more without coming to `d`. -/
structure Bypasses (f : Func) (d c b : BlockId) : Prop where
  reached : f.Reached c
  ne : c ≠ d
  path : ∃ s, s ≠ [] ∧ Path f.Edge c b (c :: s) ∧ d ∉ s

/-- The last of the steps is from a predecessor. -/
theorem Bypasses.exists_pred (h : f.Bypasses d c b) :
    ∃ v, f.Edge v b ∧ f.Reached v ∧ ∃ p, Path f.Edge c v p ∧ d ∉ p := by
  obtain ⟨s, hs, hpath, hds⟩ := h.path
  rcases hpath.last_step with ⟨-, hnil⟩ | ⟨v, p, hp, hedge, hsplit⟩
  · exact absurd (List.cons.inj hnil).2 hs
  · have hdp : d ∉ c :: s := List.not_mem_cons_of_ne_of_not_mem h.ne.symm hds
    rw [hsplit] at hdp
    obtain ⟨q, hq⟩ := h.reached
    obtain ⟨t, rfl⟩ := hp.exists_eq_cons
    exact ⟨v, hedge, (hq.append hp).reaches, _, hp, fun hd => hdp (List.mem_append_left _ hd)⟩

theorem bypasses_of_pred {v : BlockId} {p : List BlockId} (hne : d ≠ b) (hc : f.Reached c)
    (hp : Path f.Edge c v p) (hdp : d ∉ p) (hedge : f.Edge v b) : f.Bypasses d c b := by
  obtain ⟨t, rfl⟩ := hp.exists_eq_cons
  rw [List.mem_cons, not_or] at hdp
  exact ⟨hc, Ne.symm hdp.1, t ++ [b], by simp, hp.step hedge, by simp [hdp.2, hne]⟩

/-- Control comes to such a block from the dominators of `b` that it bypasses. -/
theorem Bypasses.exists_path (h : f.Bypasses d c b) (hdom : f.Dom d b) :
    ∃ s, Path f.Edge d b (d :: (s ++ [b])) ∧ d ∉ s ∧ c ∈ s := by
  obtain ⟨t, ht, hpath, hdt⟩ := h.path
  obtain ⟨s, hs, hds⟩ := (hdom.of_path h.reached hpath hdt).exists_path
  have hcs : c ∈ s := (List.mem_cons.mp hs.last_mem).resolve_left h.ne
  obtain ⟨t', rfl⟩ : ∃ t', t = t' ++ [b] := by
    obtain ⟨q, hq⟩ := hpath.exists_eq_concat
    cases q with
    | nil => exact absurd (List.cons.inj hq).2 ht
    | cons _ q => exact ⟨q, (List.cons.inj hq).2⟩
  rw [List.mem_append, not_or] at hdt
  refine ⟨s ++ t', ?_, by simp [hds, hdt.1], List.mem_append_left _ hcs⟩
  simpa using hs.append hpath

end Func

namespace Loads

open Search

section

variable {f : Func} {a : Analysis} {rank : BlockId → Nat} {clobbers : List BlockId}
  {b c d v : BlockId} (hd : a.Describes f rank)
include hd

/-- If control comes to a block from one place only, that is the immediate dominator. -/
theorem eq_idom_of_only_pred (h : a.dom.idom? b = some d) (hv : v ∈ a.reachablePreds b)
    (honly : ∀ c ∈ a.reachablePreds b, c = v) : v = d := by
  obtain ⟨hdom, hne, hnearest⟩ := hd.idom?_spec h
  obtain ⟨hedge, hreach⟩ := hd.mem_reachablePreds.mp hv
  have honly' : ∀ c, f.Reached c → f.Edge c b → c = v := fun c hc hcb =>
    honly c (hd.mem_reachablePreds.mpr ⟨hcb, hc⟩)
  have hentry : b ≠ .entry := by
    rintro rfl
    exact hne (hdom.antisymm (.root_dominates hdom.reaches_left))
  have hvb : v ≠ b := by
    rintro rfl
    obtain ⟨p, hp⟩ := hreach
    obtain ⟨q, hq, hnodup, -⟩ := hp.exists_nodup
    rcases hq.last_step with ⟨he, -⟩ | ⟨c, q', hq', hcb, rfl⟩
    · exact hentry he
    · rw [honly' c hq'.reaches hcb] at hq'
      exact List.disjoint_of_nodup_append hnodup hq'.last_mem List.mem_cons_self
  have hvdom : f.Dom v b := .of_forall_step hdom.1 hentry fun c hc hcb =>
    honly' c hc hcb ▸ .refl hc
  exact (hnearest v hvdom hvb).antisymm (hdom.of_step hne hreach hedge)

/-- A block with fewer than two reachable predecessors has no ways in from the side. -/
theorem not_bypasses_of_few_preds (h : a.dom.idom? b = some d)
    (hfew : (a.reachablePreds b).length < 2) : ¬f.Bypasses d c b := by
  intro hbypass
  obtain ⟨v, hedge, hv, p, hp, hdp⟩ := hbypass.exists_pred
  have hpred : v ∈ a.reachablePreds b := hd.mem_reachablePreds.mpr ⟨hedge, hv⟩
  have honly : ∀ c ∈ a.reachablePreds b, c = v := by
    intro c hc
    obtain ⟨w, hw⟩ := List.length_eq_one_iff.mp
      (Nat.le_antisymm (by omega) (List.length_pos_of_mem hc))
    rw [hw, List.mem_singleton] at hc hpred
    rw [hc, hpred]
  obtain rfl := eq_idom_of_only_pred hd h hpred honly
  exact hdp hp.last_mem

theorem reached_of_mem_reachablePreds : ∀ v ∈ a.reachablePreds b, f.Reached v :=
  fun _ hv => (hd.mem_reachablePreds.mp hv).2

/-- The search back from the predecessors finds the blocks that bypass the barrier. -/
theorem mem_reach_preds_iff (hne : d ≠ b) :
    c ∈ reach a.reachablePreds [d] a.graph.size (a.reachablePreds b) ↔ f.Bypasses d c b := by
  rw [hd.mem_reach_iff (reached_of_mem_reachablePreds hd)]
  constructor
  · intro h
    obtain ⟨hc, v, hv, p, hp, hdp⟩ := h
    exact Func.bypasses_of_pred hne hc hp hdp (hd.mem_reachablePreds.mp hv).1
  · intro h
    obtain ⟨v, hedge, hv, p, hp, hdp⟩ := h.exists_pred
    exact ⟨h.reached, v, hd.mem_reachablePreds.mpr ⟨hedge, hv⟩, p, hp, hdp⟩

theorem sideClobbers_iff (h : a.dom.idom? b = some d) :
    sideClobbers a clobbers b = true ↔ ∃ c ∈ clobbers, f.Bypasses d c b := by
  simp only [sideClobbers, h]
  split
  · next hfew =>
    refine iff_of_false Bool.false_ne_true fun hside => ?_
    obtain ⟨c, -, hbypass⟩ := hside
    exact not_bypasses_of_few_preds hd h hfew hbypass
  · simp only [List.any_eq_true, decide_eq_true_eq,
      mem_reach_preds_iff hd (hd.idom?_spec h).2.1, and_comm]

end

/-- **The search for side clobbers is exact.** In the analysis of a function, every reachable block
other than the entry has an immediate dominator, and the search from its predecessors ends by itself
and not at its bound. It reports a clobber exactly if one of the blocks given is reachable, is not
the immediate dominator, and control gets from it to the block, in one step or more, without coming
to the immediate dominator. A block with fewer than two reachable predecessors, for which no search
is made, has no such block at all. -/
theorem sideClobbers_exact {f : Func} {a : Analysis} (ha : Analysis.ofFunc f = .ok a)
    {b : BlockId} (hb : f.Reached b) (hentry : b ≠ .entry) :
    ∃ d, a.dom.idom? b = some d ∧
      (∀ bound, a.graph.size ≤ bound → reach a.reachablePreds [d] bound (a.reachablePreds b) =
        reach a.reachablePreds [d] a.graph.size (a.reachablePreds b)) ∧
      (∀ clobbers, sideClobbers a clobbers b = true ↔ ∃ c ∈ clobbers, f.Bypasses d c b) ∧
      ((a.reachablePreds b).length < 2 → ∀ c, ¬f.Bypasses d c b) := by
  obtain ⟨rank, hd⟩ := Analysis.describes ha (hb.numBlocks_pos hentry)
  cases hidom : a.dom.idom? b with
  | none => exact absurd (hd.eq_entry_of_idom? hb hidom) hentry
  | some d =>
    exact ⟨d, rfl, fun bound => hd.reach_eq_of_le (reached_of_mem_reachablePreds hd),
      fun clobbers => sideClobbers_iff hd hidom,
      fun hfew c => not_bypasses_of_few_preds hd hidom hfew⟩

/-- A block that leads to itself is on a side way into itself. Its unreachable predecessor is not,
and neither is the entry, from where control has to come through the immediate dominator. -/
theorem sideClobbers_exact_tangled :
    ∃ a, Analysis.ofFunc Func.tangled = .ok a ∧ a.dom.idom? ⟨3⟩ = some ⟨2⟩ ∧
      sideClobbers a [⟨3⟩] ⟨3⟩ = true ∧ Func.tangled.Bypasses ⟨2⟩ ⟨3⟩ ⟨3⟩ ∧
      sideClobbers a [⟨4⟩, ⟨0⟩] ⟨3⟩ = false ∧ ¬Func.tangled.Bypasses ⟨2⟩ ⟨4⟩ ⟨3⟩ ∧
      ¬Func.tangled.Bypasses ⟨2⟩ ⟨0⟩ ⟨3⟩ := by
  obtain ⟨a, ha, h⟩ := exists_ok_of_any (x := Analysis.ofFunc Func.tangled)
    (q := fun a => a.dom.idom? ⟨3⟩ = some ⟨2⟩ ∧ sideClobbers a [⟨3⟩] ⟨3⟩ = true ∧
      sideClobbers a [⟨4⟩, ⟨0⟩] ⟨3⟩ = false) (by decide)
  obtain ⟨hidom, hself, hothers⟩ := of_decide_eq_true h
  have hreached₂ : Func.tangled.Reached ⟨2⟩ := Reaches.refl.step ⟨[⟨1⟩, ⟨2⟩], by decide, by simp⟩
  have hreached₃ : Func.tangled.Reached ⟨3⟩ := hreached₂.step ⟨[⟨1⟩, ⟨3⟩], by decide, by simp⟩
  obtain ⟨d, hd, -, hexact, -⟩ := sideClobbers_exact ha hreached₃ (by decide)
  obtain rfl := Option.some.inj (hd.symm.trans hidom)
  have hnone : ∀ c ∈ [⟨4⟩, ⟨0⟩], ¬Func.tangled.Bypasses ⟨2⟩ c ⟨3⟩ := by
    intro c hc hbypass
    rw [(hexact _).mpr ⟨c, hc, hbypass⟩] at hothers
    cases hothers
  obtain ⟨c, hc, hbypass⟩ := (hexact _).mp hself
  exact ⟨a, ha, hidom, hself, List.mem_singleton.mp hc ▸ hbypass, hothers,
    hnone _ (by simp), hnone _ (by simp)⟩

end Loads

end SsaOpt
