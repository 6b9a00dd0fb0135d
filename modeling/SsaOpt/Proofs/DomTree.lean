import SsaOpt.Proofs.Stamps

/-! The dominator tree answers queries about paths: one block dominates another exactly if its stamps
enclose those of the other, levels count strict ancestors, and the meet of two blocks is their lowest
common ancestor. -/

namespace SsaOpt

open FlowGraph

namespace Dominators

/-- `n` steps towards the entry. -/
def upBy (d : Dominators) : Nat → BlockId → BlockId
  | 0, b => b
  | n + 1, b => d.upBy n (d.up b)

/-- The tree of a table in which blocks climb to their dominators. -/
structure Correct (g : FlowGraph) (rank : BlockId → Nat) (d : Dominators) : Prop where
  exact : Links.Exact g rank d.links
  eq_ofLinks : d = ofLinks d.rpo d.links
  rpo : d.rpo = g.reversePostorder

namespace Correct

variable {g : FlowGraph} {rank : BlockId → Nat} {d : Dominators} (h : d.Correct g rank)
include h

theorem linked_iff {b : BlockId} : d.links.Linked b ↔ Reaches g.Edge .entry b := h.exact.linked_iff

theorem reachable_iff {b : BlockId} : d.reachable b = true ↔ Reaches g.Edge .entry b := by
  rw [reachable, Links.isSome_get_iff, h.linked_iff]

theorem climbs_iff {a b : BlockId} (hb : Reaches g.Edge .entry b) :
    d.links.Climbs b a ↔ Dominates g.Edge .entry a b :=
  h.exact.climbs_iff (h.linked_iff.mpr hb)

theorem tour_eq : d.tour = d.links.subtree .entry := by
  rw [h.eq_ofLinks]
  simp only [ofLinks, h.exact.sound.entry]
  rfl

theorem mem_tour {v : Visit} : v ∈ d.tour ↔ Reaches g.Edge .entry v.block := by
  rw [h.tour_eq, mem_subtree_entry h.exact, h.linked_iff]

/-- The tables are those of a walk that has made all visits. -/
theorem exists_walk : ∃ w : Walk, w.Stamped d.links d.tour ∧ d.levels = w.levels ∧
    d.entered = w.entered ∧ d.left = w.left := by
  obtain ⟨w, hw, htables⟩ := exists_walk_ofLinks h.exact d.rpo
  rw [← h.eq_ofLinks] at htables
  exact ⟨w, h.tour_eq ▸ hw, htables⟩

/-- The stamps of a block are the places of its two visits in the tour. -/
theorem entered_eq {b : BlockId} (hb : Reaches g.Edge .entry b) :
    d.entered.getD b.index 0 = d.tour.idxOf (.enter b) := by
  obtain ⟨w, hw, -, hentered, -⟩ := h.exists_walk
  rw [hentered]
  exact hw.entered b (h.mem_tour.mpr hb)

theorem left_eq {b : BlockId} (hb : Reaches g.Edge .entry b) :
    d.left.getD b.index 0 = d.tour.idxOf (.leave b) := by
  obtain ⟨w, hw, -, -, hleft⟩ := h.exists_walk
  rw [hleft]
  exact hw.left b (h.mem_tour.mpr hb)

theorem climbs_entry {b : BlockId} (hb : Reaches g.Edge .entry b) : d.links.Climbs b .entry :=
  (h.climbs_iff hb).mpr (.root_dominates hb)

/-- Dominance queries answer for all paths. -/
theorem dominates_iff {a b : BlockId} :
    d.dominates a b = true ↔ Dominates g.Edge .entry a b := by
  have hsize : g.size ≤ d.links.size + rank .entry := by
    rw [h.exact.sound.size]
    exact Nat.le_add_right _ _
  simp only [dominates, Bool.and_eq_true, h.reachable_iff, decide_eq_true_eq]
  constructor
  · rintro ⟨⟨⟨ha, hb⟩, henter⟩, hleave⟩
    rw [h.entered_eq ha, h.entered_eq hb, h.tour_eq] at henter
    rw [h.left_eq ha, h.left_eq hb, h.tour_eq] at hleave
    rw [← h.climbs_iff hb]
    exact (climbs_iff_interval h.exact (h.linked_iff.mpr ha) (h.linked_iff.mpr hb)
      (h.climbs_entry ha) (h.climbs_entry hb) hsize).mpr ⟨henter, hleave⟩
  · intro hab
    have ha := hab.reaches_left
    have hb := hab.1
    obtain ⟨henter, hleave⟩ := (climbs_iff_interval h.exact (h.linked_iff.mpr ha)
      (h.linked_iff.mpr hb) (h.climbs_entry ha) (h.climbs_entry hb) hsize).mp
      ((h.climbs_iff hb).mpr hab)
    rw [h.entered_eq ha, h.entered_eq hb, h.left_eq ha, h.left_eq hb, h.tour_eq]
    exact ⟨⟨⟨ha, hb⟩, henter⟩, hleave⟩

theorem rank_le_size {b : BlockId} (hb : Reaches g.Edge .entry b) : rank b ≤ d.links.size := by
  rw [h.exact.sound.size]
  exact Nat.le_of_lt (h.exact.ranking.lt_size hb)

/-- The ancestors of a block are its dominators. -/
theorem mem_ancestors_iff {a b : BlockId} (hb : Reaches g.Edge .entry b) :
    a ∈ d.ancestors b ↔ Dominates g.Edge .entry a b := by
  have hl := h.linked_iff.mpr hb
  rw [← h.climbs_iff hb, ancestors, List.mem_cons,
    mem_climb h.exact.sound _ a b hl (h.rank_le_size hb)]
  constructor
  · rintro (rfl | ⟨-, hba⟩)
    · exact .refl
    · exact hba
  · intro hba
    by_cases hab : a = b
    · exact .inl hab
    · exact .inr ⟨hab, hba⟩

/-- Each ancestor dominates those listed before it. -/
theorem pairwise_ancestors {b : BlockId} (hb : Reaches g.Edge .entry b) :
    (d.ancestors b).Pairwise fun u v => Dominates g.Edge .entry v u := by
  refine (pairwise_climb d.links.size b).imp_of_mem fun hu _ huv => ?_
  exact (h.climbs_iff ((h.mem_ancestors_iff hb).mp hu).reaches_left).mp huv

/-- The level that is counted down from the entry is the number of strict ancestors. -/
theorem level_eq {b : BlockId} (hb : Reaches g.Edge .entry b) :
    d.level b = (climb d.links d.links.size b).length := by
  obtain ⟨w, hw, hlevels, -⟩ := h.exists_walk
  have hmem : .enter b ∈ d.tour := h.mem_tour.mpr hb
  rw [level, hlevels, hw.level b, if_pos hmem]

/-- Blocks without a path from the entry are not entered, so their level stays as it was set. -/
theorem level_of_not_reaches {b : BlockId} (hb : ¬Reaches g.Edge .entry b) : d.level b = 0 := by
  obtain ⟨w, hw, hlevels, -⟩ := h.exists_walk
  have hmem : .enter b ∉ d.tour := fun hmem => hb (h.mem_tour.mp hmem)
  rw [level, hlevels, hw.level b, if_neg hmem]

theorem level_entry : d.level .entry = 0 := by
  rw [h.level_eq .refl]
  cases hn : d.links.size with
  | zero => rfl
  | succ n => simp [climb, h.exact.sound.entry]

/-- The level of a block other than the entry is one more than that of its link. -/
theorem level_of_get {b e : BlockId} (hget : d.links.get b = some e) (hne : b ≠ .entry) :
    d.level b = d.level e + 1 := by
  have hs := h.exact.sound
  rw [h.level_eq (hs.reaches hget), h.level_eq (hs.reaches_of_linked (hs.linked hget))]
  exact length_climb_of_get h.exact hget hne

theorem level_le {a b : BlockId} (hc : d.links.Climbs b a) : d.level a ≤ d.level b := by
  induction hc with
  | refl => exact Nat.le_refl _
  | @tail x y _ hxy ih =>
    by_cases hx : x = .entry
    · subst hx
      rw [h.exact.sound.entry] at hxy
      obtain rfl := Option.some.inj hxy
      exact ih
    · have := h.level_of_get hxy hx
      omega

theorem level_lt {a b : BlockId} (hb : Reaches g.Edge .entry b) (hc : d.links.Climbs b a)
    (hne : b ≠ a) : d.level a < d.level b := by
  obtain ⟨e, he⟩ := h.linked_iff.mpr hb
  have hbe : b ≠ .entry := by
    rintro rfl
    exact hne (h.exact.sound.eq_entry_of_climbs hc).symm
  have := h.level_le (hc.tail hne he)
  have := h.level_of_get he hbe
  omega

theorem get_eq_up {b : BlockId} (hb : Reaches g.Edge .entry b) :
    d.links.get b = some (d.up b) := by
  obtain ⟨e, he⟩ := h.linked_iff.mpr hb
  rw [up, he]
  rfl

theorem up_climbs {b : BlockId} (hb : Reaches g.Edge .entry b) : d.links.Climbs b (d.up b) :=
  .single (h.get_eq_up hb)

theorem reaches_up {b : BlockId} (hb : Reaches g.Edge .entry b) :
    Reaches g.Edge .entry (d.up b) :=
  h.linked_iff.mp (h.exact.sound.linked (h.get_eq_up hb))

/-- Going up by `n` levels passes only blocks of higher level. -/
theorem upBy_climbs (n : Nat) : ∀ b : BlockId, Reaches g.Edge .entry b → n ≤ d.level b →
    d.links.Climbs b (d.upBy n b) ∧ d.level (d.upBy n b) + n = d.level b ∧
      ∀ x, d.links.Climbs b x → d.level x + n ≤ d.level b → d.links.Climbs (d.upBy n b) x := by
  induction n with
  | zero => exact fun b _ _ => ⟨.refl, rfl, fun x hx _ => hx⟩
  | succ n ih =>
    intro b hb hn
    have hne : b ≠ .entry := by
      rintro rfl
      rw [h.level_entry] at hn
      omega
    have hlevel := h.level_of_get (h.get_eq_up hb) hne
    obtain ⟨hc, hl, hall⟩ := ih (d.up b) (h.reaches_up hb) (by omega)
    refine ⟨(h.up_climbs hb).trans hc, by rw [upBy]; omega, fun x hx hxn => ?_⟩
    refine hall x (hx.tail ?_ (h.get_eq_up hb)) (by omega)
    rintro rfl
    omega

theorem level_up {b : BlockId} (hb : Reaches g.Edge .entry b) (hne : b ≠ .entry) :
    d.level b = d.level (d.up b) + 1 :=
  h.level_of_get (h.get_eq_up hb) hne

/-- Of two blocks of one level, neither is the entry. -/
theorem ne_entry_of_level {a b : BlockId} (hb : Reaches g.Edge .entry b)
    (hlevel : d.level a = d.level b) (hne : a ≠ b) : a ≠ .entry := by
  intro ha
  rw [ha, h.level_entry] at hlevel
  have hbe : b ≠ .entry := fun hbe => hne (ha.trans hbe.symm)
  have := h.level_up hb hbe
  omega

/-- Two blocks of one level go up to their lowest common ancestor. -/
theorem meetFrom_climbs (fuel : Nat) : ∀ a b : BlockId, Reaches g.Edge .entry a →
    Reaches g.Edge .entry b → d.level a = d.level b → d.level a ≤ fuel →
    d.links.Climbs a (d.meetFrom fuel a b) ∧ d.links.Climbs b (d.meetFrom fuel a b) ∧
      ∀ x, d.links.Climbs a x → d.links.Climbs b x → d.links.Climbs (d.meetFrom fuel a b) x := by
  induction fuel with
  | zero =>
    intro a b ha hb hab hf
    have heq : a = b := by
      by_contra hne
      have := h.level_up ha (h.ne_entry_of_level hb hab hne)
      omega
    subst heq
    exact ⟨.refl, .refl, fun x hx _ => hx⟩
  | succ fuel ih =>
    intro a b ha hb hab hf
    rw [meetFrom]
    split
    · rename_i he
      subst he
      exact ⟨.refl, .refl, fun x hx _ => hx⟩
    · rename_i hne
      have hla := h.level_up ha (h.ne_entry_of_level hb hab hne)
      have hlb := h.level_up hb (h.ne_entry_of_level ha hab.symm (Ne.symm hne))
      obtain ⟨hca, hcb, hall⟩ :=
        ih (d.up a) (d.up b) (h.reaches_up ha) (h.reaches_up hb) (by omega) (by omega)
      refine ⟨(h.up_climbs ha).trans hca, (h.up_climbs hb).trans hcb, fun x hax hbx => ?_⟩
      refine hall x (hax.tail ?_ (h.get_eq_up ha)) (hbx.tail ?_ (h.get_eq_up hb))
      · rintro rfl
        exact absurd (h.level_lt hb hbx (Ne.symm hne)) (by omega)
      · rintro rfl
        exact absurd (h.level_lt ha hax hne) (by omega)

/-- The search for a level goes up by the difference of levels. -/
theorem ascend_eq (n fuel : Nat) : ∀ b : BlockId, Reaches g.Edge .entry b →
    d.level b ≤ n + fuel → d.ascend n fuel b = d.upBy (d.level b - n) b := by
  induction fuel with
  | zero =>
    intro b hb hfuel
    have hle : d.level b ≤ n := hfuel
    rw [ascend, Nat.sub_eq_zero_of_le hle, upBy]
  | succ fuel ih =>
    intro b hb hfuel
    rw [ascend]
    split
    · next hlt =>
      have hne : b ≠ .entry := by
        intro hentry
        rw [hentry, h.level_entry] at hlt
        exact Nat.not_lt_zero _ hlt
      have hlevel := h.level_up hb hne
      rw [ih (d.up b) (h.reaches_up hb) (by omega), hlevel, Nat.sub_add_comm (by omega), upBy]
    · next hle => rw [Nat.sub_eq_zero_of_le (Nat.not_lt.mp hle), upBy]

/-- The two blocks are brought to one level before they go up together. -/
theorem meet_eq {a b : BlockId} (ha : Reaches g.Edge .entry a) (hb : Reaches g.Edge .entry b) :
    d.meet a b = d.meetFrom (d.level (d.upBy (d.level a - d.level b) a))
      (d.upBy (d.level a - d.level b) a) (d.upBy (d.level b - d.level a) b) := by
  obtain ⟨-, hla, -⟩ := h.upBy_climbs (d.level a - d.level b) a ha (Nat.sub_le _ _)
  rw [meet, h.ascend_eq _ _ a ha (by omega), h.ascend_eq _ _ b hb (by omega)]
  rw [show d.level b - d.level (d.upBy (d.level a - d.level b) a) = d.level b - d.level a by omega]

theorem meet_climbs {a b : BlockId} (ha : Reaches g.Edge .entry a)
    (hb : Reaches g.Edge .entry b) :
    d.links.Climbs a (d.meet a b) ∧ d.links.Climbs b (d.meet a b) ∧
      ∀ x, d.links.Climbs a x → d.links.Climbs b x → d.links.Climbs (d.meet a b) x := by
  obtain ⟨hca, hla, halla⟩ := h.upBy_climbs (d.level a - d.level b) a ha (Nat.sub_le _ _)
  obtain ⟨hcb, hlb, hallb⟩ := h.upBy_climbs (d.level b - d.level a) b hb (Nat.sub_le _ _)
  have hra := h.linked_iff.mp (hca.linked h.exact.sound (h.linked_iff.mpr ha))
  have hrb := h.linked_iff.mp (hcb.linked h.exact.sound (h.linked_iff.mpr hb))
  obtain ⟨hma, hmb, hall⟩ := h.meetFrom_climbs _ _ _ hra hrb (by omega) (Nat.le_refl _)
  rw [h.meet_eq ha hb]
  refine ⟨hca.trans hma, hcb.trans hmb, fun x hax hbx => hall x (halla x hax ?_) (hallb x hbx ?_)⟩
  · have := h.level_le hbx
    have := h.level_le hax
    omega
  · have := h.level_le hbx
    have := h.level_le hax
    omega

/-- The meet of two blocks is the common dominator that all common dominators dominate. -/
theorem dominates_meet_iff {a b x : BlockId} (ha : Reaches g.Edge .entry a)
    (hb : Reaches g.Edge .entry b) :
    Dominates g.Edge .entry x (d.meet a b) ↔
      Dominates g.Edge .entry x a ∧ Dominates g.Edge .entry x b := by
  obtain ⟨hca, hcb, hall⟩ := h.meet_climbs ha hb
  have hm := h.linked_iff.mp (hca.linked h.exact.sound (h.linked_iff.mpr ha))
  rw [← h.climbs_iff ha, ← h.climbs_iff hb, ← h.climbs_iff hm]
  exact ⟨fun hx => ⟨hca.trans hx, hcb.trans hx⟩, fun hx => hall x hx.1 hx.2⟩

end Correct

end Dominators

end SsaOpt
