import Mathlib.Logic.Relation
import SsaOpt.Dominators.Links
import SsaOpt.Proofs.Postorder

/-! The iteration for immediate dominators settles, and on the dominators.

Two facts carry the argument. A table never loses a dominator: the strict dominators of a block
dominate what it is linked to. And after `k` passes what a block climbs to stands on all paths of
at most `k` blocks that lead to it. Paths without repetition are no longer than there are blocks,
so after so many passes blocks climb to their dominators and the next pass changes nothing. -/

namespace SsaOpt

open FlowGraph

namespace Links

/-- The block has a link. -/
def Linked (links : Links) (b : BlockId) : Prop := ∃ d, links.get b = some d

/-- Links lead from `b` to `a`. -/
def Climbs (links : Links) : BlockId → BlockId → Prop :=
  Relation.ReflTransGen fun b d => links.get b = some d

theorem isSome_get_iff {links : Links} {b : BlockId} :
    (links.get b).isSome = true ↔ links.Linked b := by
  rw [Option.isSome_iff_exists]
  rfl

theorem get_set {links : Links} {b : BlockId} (hb : b.index < links.size) (c d : BlockId) :
    Links.get (links.setIfInBounds b.index (some d)) c = if c = b then some d else links.get c :=
  BlockId.getD_set hb (some d) c none

theorem Climbs.trans {links : Links} {a b c : BlockId} (h : links.Climbs a b)
    (h' : links.Climbs b c) : links.Climbs a c :=
  Relation.ReflTransGen.trans h h'

/-- Relinking `b` to `d` adds nothing to what a block climbs to, except through `b` and `d`. -/
theorem Climbs.of_set {links : Links} {b d : BlockId} (hb : b.index < links.size)
    {a c : BlockId} (h : Climbs (links.setIfInBounds b.index (some d)) c a) :
    links.Climbs c a ∨ links.Climbs c b ∧ links.Climbs d a := by
  induction h using Relation.ReflTransGen.head_induction_on with
  | refl => exact .inl .refl
  | @head x y hxy _ ih =>
    rw [get_set hb] at hxy
    split at hxy
    · rename_i hx
      obtain rfl := Option.some.inj hxy
      subst hx
      exact .inr ⟨.refl, ih.elim id And.right⟩
    · exact ih.imp (.head hxy) (And.imp_left (.head hxy))

/-- Places of reachable blocks, lower for strict dominators. -/
structure Ranking (g : FlowGraph) (rank : BlockId → Nat) : Prop where
  entry : rank .entry = 0
  lt_size : ∀ {b : BlockId}, Reaches g.Edge .entry b → rank b < g.size
  injective : ∀ {a b : BlockId}, Reaches g.Edge .entry a → Reaches g.Edge .entry b →
    rank a = rank b → a = b
  dominator_lt : ∀ {a b : BlockId}, Dominates g.Edge .entry a b → a ≠ b → rank a < rank b

/-- Links of reachable blocks go to blocks of lower rank, and lose no dominator. -/
structure Sound (g : FlowGraph) (rank : BlockId → Nat) (links : Links) : Prop where
  size : links.size = g.size
  entry : links.get .entry = some .entry
  reaches : ∀ {b d : BlockId}, links.get b = some d → Reaches g.Edge .entry b
  linked : ∀ {b d : BlockId}, links.get b = some d → links.Linked d
  falls : ∀ {b d : BlockId}, links.get b = some d → b ≠ .entry → rank d < rank b
  dominated : ∀ {a b d : BlockId}, links.get b = some d → Dominates g.Edge .entry a b → a ≠ b →
    Dominates g.Edge .entry a d

section Sound

variable {g : FlowGraph} {rank : BlockId → Nat} {links : Links}

theorem Sound.reaches_of_linked (h : Sound g rank links) {b : BlockId} (hb : links.Linked b) :
    Reaches g.Edge .entry b := by
  obtain ⟨d, hd⟩ := hb
  exact h.reaches hd

theorem Sound.rank_le (h : Sound g rank links) {a b : BlockId} (hc : links.Climbs b a) :
    rank a ≤ rank b := by
  induction hc with
  | refl => exact Nat.le_refl _
  | @tail x y _ hxy ih =>
    by_cases hx : x = .entry
    · subst hx
      rw [h.entry] at hxy
      obtain rfl := Option.some.inj hxy
      exact ih
    · exact Nat.le_trans (Nat.le_of_lt (h.falls hxy hx)) ih

theorem Sound.eq_entry_of_climbs (h : Sound g rank links) {a : BlockId}
    (hc : links.Climbs .entry a) : a = .entry := by
  induction hc with
  | refl => rfl
  | tail _ hxy ih =>
    subst ih
    rw [h.entry] at hxy
    exact (Option.some.inj hxy).symm

/-- A linked block climbs to all its dominators. -/
theorem Sound.climbs_of_dominates (h : Sound g rank links) {a b : BlockId} (hb : links.Linked b)
    (hab : Dominates g.Edge .entry a b) : links.Climbs b a := by
  generalize hn : rank b = n
  induction n using Nat.strongRecOn generalizing b with
  | _ n ih =>
    subst hn
    by_cases hne : a = b
    · subst hne
      exact .refl
    · obtain ⟨d, hd⟩ := hb
      by_cases he : b = .entry
      · subst he
        exact absurd (by simpa using hab.2 _ .start) hne
      · exact .head hd (ih _ (h.falls hd he) (h.linked hd) (h.dominated hd hab hne) rfl)

/-- Two linked blocks climb to a common block, and their common dominators dominate it. -/
theorem Sound.intersect (h : Sound g rank links) (hr : Ranking g rank) (fuel : Nat) :
    ∀ a b : BlockId, links.Linked a → links.Linked b → rank a + rank b < fuel →
      ∃ d, links.intersect rank fuel a b = .ok d ∧ links.Linked d ∧ links.Climbs a d ∧
        links.Climbs b d ∧ ∀ x, Dominates g.Edge .entry x a → Dominates g.Edge .entry x b →
          Dominates g.Edge .entry x d := by
  induction fuel with
  | zero => intro _ _ _ _ hf; omega
  | succ fuel ih =>
    intro a b ha hb hf
    simp only [Links.intersect]
    by_cases hab : a = b
    · subst hab
      exact ⟨a, by simp, ha, .refl, .refl, fun x hx _ => hx⟩
    · rw [if_neg hab]
      by_cases hlt : rank b < rank a
      · obtain ⟨a', ha'⟩ := ha
        have hne : a ≠ .entry := by
          rintro rfl
          rw [hr.entry] at hlt
          omega
        have hfall := h.falls ha' hne
        obtain ⟨d, hd, hl, hca, hcb, hdom⟩ := ih a' b (h.linked ha') hb (by omega)
        refine ⟨d, ?_, hl, .head ha' hca, hcb, fun x hxa hxb => hdom x ?_ hxb⟩
        · rw [if_pos hlt, follow, ha']
          exact hd
        · refine h.dominated ha' hxa ?_
          rintro rfl
          exact absurd (hr.dominator_lt hxb hab) (by omega)
      · obtain ⟨b', hb'⟩ := hb
        have hlt' : rank a < rank b := by
          have hra := h.reaches_of_linked ha
          refine Nat.lt_of_le_of_ne (Nat.not_lt.mp hlt) fun he => hab ?_
          exact hr.injective hra (h.reaches hb') he
        have hne : b ≠ .entry := by
          rintro rfl
          rw [hr.entry] at hlt'
          omega
        have hfall := h.falls hb' hne
        obtain ⟨d, hd, hl, hca, hcb, hdom⟩ := ih a b' ha (h.linked hb') (by omega)
        refine ⟨d, ?_, hl, hca, .head hb' hcb, fun x hxa hxb => hdom x hxa ?_⟩
        · rw [if_neg hlt, follow, hb']
          exact hd
        · refine h.dominated hb' hxb ?_
          rintro rfl
          exact absurd (hr.dominator_lt hxa (Ne.symm hab)) (by omega)

theorem Sound.foldlM_intersect (h : Sound g rank links) (hr : Ranking g rank) (bs : List BlockId) :
    ∀ a : BlockId, links.Linked a → (∀ b ∈ bs, links.Linked b) →
      ∃ d, bs.foldlM (fun a b => links.intersect rank (rank a + rank b + 1) a b) a = .ok d ∧
        links.Linked d ∧ links.Climbs a d ∧ (∀ b ∈ bs, links.Climbs b d) ∧
        ∀ x, Dominates g.Edge .entry x a → (∀ b ∈ bs, Dominates g.Edge .entry x b) →
          Dominates g.Edge .entry x d := by
  induction bs with
  | nil => exact fun a ha _ => ⟨a, rfl, ha, .refl, by simp, fun x hx _ => hx⟩
  | cons b bs ih =>
    intro a ha hbs
    obtain ⟨c, hc, hl, hac, hbc, hdom⟩ :=
      h.intersect hr _ a b ha (hbs b List.mem_cons_self) (Nat.lt_succ_self _)
    obtain ⟨d, hd, hl', hcd, hall, hdom'⟩ :=
      ih c hl fun x hx => hbs x (List.mem_cons_of_mem _ hx)
    refine ⟨d, ?_, hl', hac.trans hcd, ?_, fun x hxa hxs => ?_⟩
    · rw [List.foldlM_cons, hc]
      exact hd
    · intro x hx
      rcases List.mem_cons.mp hx with rfl | hx
      · exact hbc.trans hcd
      · exact hall x hx
    · exact hdom' x (hdom x hxa (hxs b List.mem_cons_self))
        fun y hy => hxs y (List.mem_cons_of_mem _ hy)

/-- All linked blocks of a list climb to their meet, which keeps their common dominators. -/
theorem Sound.meet (h : Sound g rank links) (hr : Ranking g rank) {bs : List BlockId} {p : BlockId}
    (hp : p ∈ bs) (hl : links.Linked p) :
    ∃ d, links.meet rank bs = .ok (some d) ∧ links.Linked d ∧
      (∀ b ∈ bs, links.Linked b → links.Climbs b d) ∧
      ∀ x, (∀ b ∈ bs, links.Linked b → Dominates g.Edge .entry x b) →
        Dominates g.Edge .entry x d := by
  have hmem : ∀ b, b ∈ bs.filter (fun b => (links.get b).isSome) ↔ b ∈ bs ∧ links.Linked b := by
    intro b
    rw [List.mem_filter, isSome_get_iff]
  simp only [Links.meet]
  split
  · rename_i hnil
    have := (hmem p).mpr ⟨hp, hl⟩
    rw [hnil] at this
    simp at this
  · rename_i b rest hcons
    rw [hcons] at hmem
    obtain ⟨d, hd, hl', hbd, hall, hdom⟩ := h.foldlM_intersect hr rest b
      ((hmem b).mp List.mem_cons_self).2 fun x hx => ((hmem x).mp (List.mem_cons_of_mem _ hx)).2
    refine ⟨d, by rw [hd]; rfl, hl', fun c hc hlc => ?_, fun x hx => ?_⟩
    · rcases List.mem_cons.mp ((hmem c).mpr ⟨hc, hlc⟩) with rfl | hc
      · exact hbd
      · exact hall c hc
    · refine hdom x ?_ fun c hc => ?_
      · exact hx b ((hmem b).mp List.mem_cons_self).1 ((hmem b).mp List.mem_cons_self).2
      · have hc' := (hmem c).mp (List.mem_cons_of_mem _ hc)
        exact hx c hc'.1 hc'.2

end Sound

end Links

end SsaOpt
