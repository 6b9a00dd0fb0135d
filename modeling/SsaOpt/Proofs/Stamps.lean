import Mathlib.Data.List.Perm.Subperm
import SsaOpt.Proofs.Intervals

/-! The stamps of the walk over the dominator tree.

What the walk has still to visit can be read off its frames: for each of them the tours of the
children that it has not gone to, and then the block is left. So every step makes the next visit of
the tour of the tree, and the stamp that it writes is the place of that visit in the tour. -/

namespace SsaOpt

open FlowGraph

/-- The tour of the tree below `b`. -/
def Links.subtree (links : Links) (b : BlockId) : List Visit :=
  Dominators.tourFrom links.childrenOf links.size b

namespace Dominators

section Subtree

variable {g : FlowGraph} {rank : BlockId → Nat} {links : Links} {b c : BlockId}
  (h : Links.Exact g rank links)
include h

/-- Every bound that leaves room for all blocks of higher rank gives the same tour. -/
theorem tourFrom_eq_tourFrom (fuel : Nat) : ∀ (fuel' : Nat) (b : BlockId), links.Linked b →
    g.size ≤ fuel + rank b → g.size ≤ fuel' + rank b →
    tourFrom links.childrenOf fuel b = tourFrom links.childrenOf fuel' b := by
  induction fuel with
  | zero =>
    intro fuel' b hb hf
    have := h.ranking.lt_size (h.sound.reaches_of_linked hb)
    omega
  | succ fuel ih =>
    intro fuel' b hb hf hf'
    have := h.ranking.lt_size (h.sound.reaches_of_linked hb)
    obtain ⟨k, rfl⟩ : ∃ k, fuel' = k + 1 := ⟨fuel' - 1, by omega⟩
    have hchild : ∀ c ∈ links.childrenOf b,
        tourFrom links.childrenOf fuel c = tourFrom links.childrenOf k c := by
      intro c hc
      obtain ⟨hget, hne⟩ := (Links.mem_childrenOf h.sound).mp hc
      have := h.sound.falls hget hne
      exact ih k c ⟨b, hget⟩ (by omega) (by omega)
    simp only [tourFrom, List.flatMap_congr hchild]

theorem subtree_eq (hb : links.Linked b) : links.subtree b =
    .enter b :: ((links.childrenOf b).flatMap links.subtree ++ [.leave b]) := by
  have hsize := h.sound.size
  have := h.ranking.lt_size (h.sound.reaches_of_linked hb)
  obtain ⟨k, hk⟩ : ∃ k, links.size = k + 1 := ⟨links.size - 1, by omega⟩
  have hchild : ∀ c ∈ links.childrenOf b, tourFrom links.childrenOf k c = links.subtree c := by
    intro c hc
    obtain ⟨hget, hne⟩ := (Links.mem_childrenOf h.sound).mp hc
    have := h.sound.falls hget hne
    exact tourFrom_eq_tourFrom h k links.size c ⟨b, hget⟩ (by omega) (by omega)
  rw [← List.flatMap_congr hchild, Links.subtree, hk, tourFrom]

theorem mem_subtree_entry {v : Visit} : v ∈ links.subtree .entry ↔ links.Linked v.block := by
  have hentry : links.Linked .entry := ⟨_, h.sound.entry⟩
  have hroom : g.size ≤ links.size + rank .entry := by
    rw [h.sound.size]
    exact Nat.le_add_right _ _
  rw [Links.subtree, mem_tourFrom h _ _ _ hentry hroom]
  refine ⟨And.left, fun hv => ⟨hv, ?_⟩⟩
  exact (h.climbs_iff hv).mpr (.root_dominates (h.sound.reaches_of_linked hv))

theorem nodup_subtree_entry : (links.subtree .entry).Nodup := by
  refine nodup_tourFrom h _ _ ⟨_, h.sound.entry⟩ ?_
  rw [h.sound.size]
  exact Nat.le_add_right _ _

/-- Each block is entered once and left once. -/
theorem length_subtree_entry_le : (links.subtree .entry).length ≤ 2 * links.size := by
  have hsub : links.subtree .entry ⊆ (BlockId.upTo links.size).map Visit.enter ++
      (BlockId.upTo links.size).map Visit.leave := by
    intro v hv
    obtain ⟨d, hd⟩ := (mem_subtree_entry h).mp hv
    have hmem := BlockId.mem_upTo.mpr (Links.lt_size_of_get hd)
    cases v with
    | enter b => exact List.mem_append_left _ (List.mem_map_of_mem hmem)
    | leave b => exact List.mem_append_right _ (List.mem_map_of_mem hmem)
  have hlength := (List.Nodup.subperm (nodup_subtree_entry h) hsub).length_le
  simp only [List.length_append, List.length_map, BlockId.length_upTo] at hlength
  omega

/-- A block other than the entry has one strict ancestor more than its link. -/
theorem length_climb_of_get (hget : links.get c = some b) (hne : c ≠ .entry) :
    (climb links links.size c).length = (climb links links.size b).length + 1 := by
  have hs := h.sound
  have hlt := hs.falls hget hne
  have hc := h.ranking.lt_size (hs.reaches hget)
  obtain ⟨n, hn⟩ : ∃ n, links.size = n + 1 := ⟨links.size - 1, by have := hs.size; omega⟩
  have hbc : b ≠ c := by
    intro hbc
    rw [hbc] at hlt
    exact Nat.lt_irrefl _ hlt
  have hsize := hs.size
  rw [hn, climb, hget]
  simp only [if_neg hbc, List.length_cons]
  rw [climb_eq_climb hs n (n + 1) b (hs.linked hget) (by omega) (by omega)]

end Subtree

namespace Walk

/-- What is still to be visited. -/
def ahead (links : Links) (frames : List (BlockId × Nat)) : List Visit :=
  frames.flatMap fun frame =>
    ((links.childrenOf frame.1).drop frame.2).flatMap links.subtree ++ [.leave frame.1]

/-- The walk has made the visits `past` of the tour, and stamped each with its place. -/
structure Stamped (links : Links) (past : List Visit) (w : Walk) : Prop where
  tour : links.subtree .entry = past ++ ahead links w.frames
  clock : w.clock = past.length
  framed : ∀ frame ∈ w.frames, .enter frame.1 ∈ past
  sizes : w.levels.size = links.size ∧ w.entered.size = links.size ∧ w.left.size = links.size
  level : ∀ b : BlockId, w.levels.getD b.index 0 =
    if .enter b ∈ past then (climb links links.size b).length else 0
  entered : ∀ b : BlockId, .enter b ∈ past → w.entered.getD b.index 0 = past.idxOf (.enter b)
  left : ∀ b : BlockId, .leave b ∈ past → w.left.getD b.index 0 = past.idxOf (.leave b)

/-- A stamp for the visit made last; the others stay. -/
theorem getD_set_idxOf {visit : BlockId → Visit} {past : List Visit} {stamps : Array Nat}
    {b : BlockId} (hinj : ∀ {x y}, visit x = visit y → x = y) (hb : b.index < stamps.size)
    (hnew : visit b ∉ past)
    (hold : ∀ c : BlockId, visit c ∈ past → stamps.getD c.index 0 = past.idxOf (visit c))
    (c : BlockId) (hc : visit c ∈ past ++ [visit b]) :
    (stamps.setIfInBounds b.index past.length).getD c.index 0 =
      (past ++ [visit b]).idxOf (visit c) := by
  rw [BlockId.getD_set hb]
  split
  · next heq =>
    subst heq
    rw [List.idxOf_append_of_notMem hnew, List.idxOf_cons_self]
    rfl
  · next hne =>
    have hpast : visit c ∈ past := by
      rcases List.mem_append.mp hc with hc | hc
      · exact hc
      · exact absurd (hinj (List.mem_singleton.mp hc)) hne
    rw [List.idxOf_append_of_mem hpast]
    exact hold c hpast

/-- Another visit changes no stamps of this kind. -/
theorem idxOf_of_ne {visit : BlockId → Visit} {past : List Visit} {stamps : Array Nat} {v : Visit}
    (hne : ∀ c, visit c ≠ v)
    (hold : ∀ c : BlockId, visit c ∈ past → stamps.getD c.index 0 = past.idxOf (visit c))
    (c : BlockId) (hc : visit c ∈ past ++ [v]) :
    stamps.getD c.index 0 = (past ++ [v]).idxOf (visit c) := by
  have hpast : visit c ∈ past := by
    rcases List.mem_append.mp hc with hc | hc
    · exact hc
    · exact absurd (List.mem_singleton.mp hc) (hne c)
  rw [List.idxOf_append_of_mem hpast]
  exact hold c hpast

section Stamped

variable {g : FlowGraph} {rank : BlockId → Nat} {links : Links} {past : List Visit} {w : Walk}
  (h : Links.Exact g rank links)
include h

theorem stamped_start : Stamped links [.enter .entry] (start links.size) := by
  have hpos : BlockId.entry.index < links.size := Links.lt_size_of_get h.sound.entry
  have hclimb : (climb links links.size .entry).length = 0 := by
    cases links.size with
    | zero => rfl
    | succ n => simp [climb, h.sound.entry]
  refine ⟨?_, rfl, by simp [start], by simp [start, idle], fun b => ?_, fun b hb => ?_, by simp⟩
  · rw [subtree_eq h ⟨_, h.sound.entry⟩]
    simp [start, ahead]
  · have hzero : (start links.size).levels.getD b.index 0 = 0 := by
      simp only [start, idle, Array.getD_eq_getD_getElem?, Array.getElem?_replicate]
      split <;> rfl
    rw [hzero]
    split
    · next hb =>
      obtain rfl := Visit.enter.inj (List.mem_singleton.mp hb)
      exact hclimb.symm
    · rfl
  · obtain rfl := Visit.enter.inj (List.mem_singleton.mp hb)
    show ((idle links.size).entered.setIfInBounds BlockId.entry.index 0).getD _ 0 = _
    rw [BlockId.getD_set (by simpa [idle] using hpos), if_pos rfl, List.idxOf_cons_self]

theorem Stamped.linked (hw : Stamped links past w) {v : Visit} (hv : v ∈ past) :
    links.Linked v.block := by
  rw [← mem_subtree_entry h, hw.tour]
  exact List.mem_append_left _ hv

/-- What is ahead was not visited before. -/
theorem Stamped.notMem_past (hw : Stamped links past w) {v : Visit} {rest : List Visit}
    (hv : ahead links w.frames = v :: rest) : v ∉ past := by
  intro hmem
  have hnodup := nodup_subtree_entry h
  rw [hw.tour, hv] at hnodup
  exact (List.nodup_append'.mp hnodup).2.2 hmem List.mem_cons_self

/-- The next child is entered. -/
theorem Stamped.enter {b c : BlockId} {slot : Nat} {frames : List (BlockId × Nat)}
    (hw : Stamped links past w) (hframes : w.frames = (b, slot) :: frames)
    (hslot : (links.childrenOf b)[slot]? = some c) :
    Stamped links (past ++ [.enter c]) (w.step links.childrenOf) := by
  have hb : .enter b ∈ past := hw.framed (b, slot) (by simp [hframes])
  obtain ⟨hlevels, hentered, hleft⟩ := hw.sizes
  obtain ⟨hget, hentry⟩ := (Links.mem_childrenOf h.sound).mp (List.mem_of_getElem? hslot)
  have hc := Links.lt_size_of_get hget
  have hahead : ahead links w.frames =
      .enter c :: ahead links ((c, 0) :: (b, slot + 1) :: frames) := by
    obtain ⟨hlt, hat⟩ := List.getElem?_eq_some_iff.mp hslot
    simp only [hframes, ahead, List.flatMap_cons, List.drop_eq_getElem_cons hlt, hat,
      List.drop_zero]
    rw [subtree_eq h ⟨b, hget⟩]
    simp
  simp only [Walk.step, hframes, hslot]
  refine ⟨?_, ?_, ?_, ?_, fun d => ?_, ?_, ?_⟩
  · rw [hw.tour, hahead]
    simp
  · simp [hw.clock]
  · intro frame hframe
    rcases List.mem_cons.mp hframe with rfl | hframe
    · simp
    · rcases List.mem_cons.mp hframe with rfl | hframe
      · exact List.mem_append_left _ hb
      · exact List.mem_append_left _ (hw.framed frame (by simp [hframes, hframe]))
  · simp [hlevels, hentered, hleft]
  · rw [BlockId.getD_set (hlevels ▸ hc), hw.level b, if_pos hb, hw.level d]
    by_cases hd : d = c
    · rw [hd, if_pos rfl, if_pos (by simp), length_climb_of_get h hget hentry]
    · simp [hd]
  · rw [hw.clock]
    exact getD_set_idxOf Visit.enter.inj (hentered ▸ hc) (hw.notMem_past h hahead) hw.entered
  · exact idxOf_of_ne (by simp) hw.left

/-- A block without further children is left. -/
theorem Stamped.leave {b : BlockId} {slot : Nat} {frames : List (BlockId × Nat)}
    (hw : Stamped links past w) (hframes : w.frames = (b, slot) :: frames)
    (hslot : (links.childrenOf b)[slot]? = none) :
    Stamped links (past ++ [.leave b]) (w.step links.childrenOf) := by
  obtain ⟨hlevels, hentered, hleft⟩ := hw.sizes
  obtain ⟨d, hd⟩ := hw.linked h (hw.framed (b, slot) (by simp [hframes]))
  have hahead : ahead links w.frames = .leave b :: ahead links frames := by
    rw [hframes]
    simp [ahead, List.drop_eq_nil_of_le (List.getElem?_eq_none_iff.mp hslot)]
  simp only [Walk.step, hframes, hslot]
  refine ⟨?_, ?_, ?_, ?_, fun d => ?_, ?_, ?_⟩
  · rw [hw.tour, hahead]
    simp
  · simp [hw.clock]
  · intro frame hframe
    exact List.mem_append_left _ (hw.framed frame (by simp [hframes, hframe]))
  · simp [hlevels, hentered, hleft]
  · rw [hw.level d]
    simp
  · exact idxOf_of_ne (by simp) hw.entered
  · rw [hw.clock]
    exact getD_set_idxOf Visit.leave.inj (hleft ▸ Links.lt_size_of_get hd)
      (hw.notMem_past h hahead) hw.left

/-- The walk makes the next visit of the tour. -/
theorem Stamped.step (hw : Stamped links past w) (hne : w.frames ≠ []) :
    ∃ v, Stamped links (past ++ [v]) (w.step links.childrenOf) := by
  obtain ⟨⟨b, slot⟩, frames, hframes⟩ := List.exists_cons_of_ne_nil hne
  cases hslot : (links.childrenOf b)[slot]? with
  | some c => exact ⟨_, hw.enter h hframes hslot⟩
  | none => exact ⟨_, hw.leave h hframes hslot⟩

omit h in
/-- The walk is at its end exactly if it has made all visits. -/
theorem Stamped.frames_eq_nil_iff (hw : Stamped links past w) :
    w.frames = [] ↔ past = links.subtree .entry := by
  constructor
  · intro hframes
    simpa [hframes, ahead] using hw.tour.symm
  · intro hpast
    have hnil : ahead links w.frames = [] := List.append_right_eq_self.mp (hpast ▸ hw.tour).symm
    cases hframes : w.frames with
    | nil => rfl
    | cons frame frames => simp [hframes, ahead] at hnil

/-- The walk makes all visits of the tour. -/
theorem Stamped.run (fuel : Nat) : ∀ {past : List Visit} {w : Walk}, Stamped links past w →
    (links.subtree .entry).length ≤ fuel + past.length →
    Stamped links (links.subtree .entry) (w.run links.childrenOf fuel) := by
  induction fuel with
  | zero =>
    intro past w hw hfuel
    have hsub : past <+: links.subtree .entry := ⟨_, hw.tour.symm⟩
    rw [← hsub.eq_of_length_le (by omega)]
    exact hw
  | succ fuel ih =>
    intro past w hw hfuel
    rw [Walk.run]
    by_cases hframes : w.frames = []
    · have hpast := hw.frames_eq_nil_iff.mp hframes
      have hstep : w.step links.childrenOf = w := by simp only [Walk.step, hframes]
      rw [hstep]
      exact ih hw (by rw [hpast]; omega)
    · obtain ⟨v, hv⟩ := hw.step h hframes
      exact ih hv (by rw [List.length_append, List.length_singleton]; omega)

/-- **The walk is the tour of the tree.** It comes to its end, with each block stamped with the
places of its two visits and with the number of its strict ancestors. -/
theorem stamped_run : ∃ w, run links.childrenOf (2 * links.size) (start links.size) = w ∧
    Stamped links (links.subtree .entry) w ∧ w.frames = [] := by
  have hend := (stamped_start h).run h _ (Nat.le_add_right_of_le (length_subtree_entry_le h))
  exact ⟨_, rfl, hend, hend.frames_eq_nil_iff.mpr rfl⟩

end Stamped

end Walk

/-- The tables of the tree are those with which the walk ends. -/
theorem exists_walk_ofLinks {g : FlowGraph} {rank : BlockId → Nat} {links : Links}
    (h : Links.Exact g rank links) (rpo : List BlockId) :
    ∃ w, Walk.Stamped links (links.subtree .entry) w ∧ (ofLinks rpo links).levels = w.levels ∧
      (ofLinks rpo links).entered = w.entered ∧ (ofLinks rpo links).left = w.left := by
  obtain ⟨w, hw, hstamped, -⟩ := Walk.stamped_run h
  refine ⟨w, hstamped, ?_⟩
  subst hw
  simp only [ofLinks, h.sound.entry]
  exact ⟨rfl, rfl, rfl⟩

end Dominators

end SsaOpt
