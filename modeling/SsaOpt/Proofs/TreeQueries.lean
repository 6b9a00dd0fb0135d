import Mathlib.Data.Set.Card
import SsaOpt.Proofs.Totality

/-! The queries of the dominator tree, in terms of paths.

The immediate dominator of a block is its nearest strict dominator, the level of a block counts its
strict dominators, children are listed under their immediate dominator, and the meet of two blocks
is their nearest common dominator. So the latest block of an instruction dominates all the uses that
it is computed from, and code motion has no occasion to reject it. -/

namespace SsaOpt

namespace Func

variable {f : Func} {d e b x y m : BlockId}

/-- `d` is a strict dominator of `b`, and all strict dominators of `b` dominate it. -/
structure ImmediatelyDominates (f : Func) (d b : BlockId) : Prop where
  dom : f.Dom d b
  strict : d ≠ b
  nearest : ∀ {c}, f.Dom c b → c ≠ b → f.Dom c d

/-- `m` dominates `x` and `y`, and whatever dominates both dominates it. -/
structure NearestCommon (f : Func) (x y m : BlockId) : Prop where
  left : f.Dom m x
  right : f.Dom m y
  nearest : ∀ {c}, f.Dom c x → f.Dom c y → f.Dom c m

theorem ImmediatelyDominates.unique (hd : f.ImmediatelyDominates d b)
    (he : f.ImmediatelyDominates e b) : e = d :=
  (hd.nearest he.dom he.strict).antisymm (he.nearest hd.dom hd.strict)

theorem NearestCommon.unique (hd : f.NearestCommon x y d) (he : f.NearestCommon x y e) : e = d :=
  (hd.nearest he.left he.right).antisymm (he.nearest hd.left hd.right)

end Func

namespace Dominators

/-- Brought to one level, `x` and `y` come to the same block `m` after `n` steps up and not
before. -/
structure MeetAfter (d : Dominators) (x y m : BlockId) (n : Nat) : Prop where
  left : d.upBy (d.level x - d.level y + n) x = m
  right : d.upBy (d.level y - d.level x + n) y = m
  first : ∀ k < n, d.upBy (d.level x - d.level y + k) x ≠ d.upBy (d.level y - d.level x + k) y

theorem upBy_add (d : Dominators) (m n : Nat) : ∀ b, d.upBy (m + n) b = d.upBy n (d.upBy m b) := by
  induction m with
  | zero =>
    intro b
    rw [Nat.zero_add, upBy]
  | succ m ih =>
    intro b
    rw [Nat.succ_add, upBy, upBy, ih]

/-- Strict ancestors are listed once each. -/
theorem nodup_climb {g : FlowGraph} {rank : BlockId → Nat} {links : Links}
    (hs : Links.Sound g rank links) (fuel : Nat) : ∀ b : BlockId, links.Linked b → rank b ≤ fuel →
    (climb links fuel b).Nodup := by
  induction fuel with
  | zero => exact fun _ _ _ => List.nodup_nil
  | succ fuel ih =>
    intro b hb hrank
    obtain ⟨d, hd⟩ := hb
    simp only [climb, hd]
    split
    · exact List.nodup_nil
    · next hdb =>
      have hne : b ≠ .entry := by
        intro hentry
        rw [hentry, hs.entry] at hd
        exact hdb ((Option.some.inj hd).symm.trans hentry.symm)
      have hlt := hs.falls hd hne
      have hlinked := hs.linked hd
      refine List.nodup_cons.mpr ⟨fun hmem => ?_, ih d hlinked (by omega)⟩
      exact ((mem_climb hs fuel d d hlinked (by omega)).mp hmem).1 rfl

namespace Correct

variable {g : FlowGraph} {rank : BlockId → Nat} {d : Dominators} {a b c : BlockId}
  (h : d.Correct g rank)
include h

/-- Two blocks of one level that go up together come to a common block. -/
theorem exists_meetFrom_eq (fuel : Nat) : ∀ {a b : BlockId}, Reaches g.Edge .entry a →
    Reaches g.Edge .entry b → d.level a = d.level b → d.level a ≤ fuel →
    ∃ n, d.upBy n a = d.meetFrom fuel a b ∧ d.upBy n b = d.meetFrom fuel a b ∧
      ∀ k < n, d.upBy k a ≠ d.upBy k b := by
  induction fuel with
  | zero =>
    intro a b ha hb hab hfuel
    have heq : a = b := by
      by_contra hne
      have := h.level_up ha (h.ne_entry_of_level hb hab hne)
      omega
    exact ⟨0, rfl, heq.symm, by simp⟩
  | succ fuel ih =>
    intro a b ha hb hab hfuel
    rw [meetFrom]
    split
    · next heq => exact ⟨0, rfl, heq.symm, by simp⟩
    · next hne =>
      have hla := h.level_up ha (h.ne_entry_of_level hb hab hne)
      have hlb := h.level_up hb (h.ne_entry_of_level ha hab.symm (Ne.symm hne))
      obtain ⟨n, hna, hnb, hfirst⟩ :=
        ih (h.reaches_up ha) (h.reaches_up hb) (by omega) (by omega)
      refine ⟨n + 1, hna, hnb, fun k hk => ?_⟩
      cases k with
      | zero => exact hne
      | succ k => exact hfirst k (by omega)

/-- The search for a common block ends, and where it ends is the meet. -/
theorem exists_meetAfter (ha : Reaches g.Edge .entry a) (hb : Reaches g.Edge .entry b) :
    ∃ n, d.MeetAfter a b (d.meet a b) n := by
  obtain ⟨hca, hla, -⟩ := h.upBy_climbs (d.level a - d.level b) a ha (Nat.sub_le _ _)
  obtain ⟨hcb, hlb, -⟩ := h.upBy_climbs (d.level b - d.level a) b hb (Nat.sub_le _ _)
  have hra := h.linked_iff.mp (hca.linked h.exact.sound (h.linked_iff.mpr ha))
  have hrb := h.linked_iff.mp (hcb.linked h.exact.sound (h.linked_iff.mpr hb))
  obtain ⟨n, hna, hnb, hfirst⟩ := h.exists_meetFrom_eq _ hra hrb (by omega) (Nat.le_refl _)
  rw [← h.meet_eq ha hb] at hna hnb
  refine ⟨n, (d.upBy_add _ n a).trans hna, (d.upBy_add _ n b).trans hnb, fun k hk => ?_⟩
  rw [d.upBy_add, d.upBy_add]
  exact hfirst k hk

theorem children_eq : d.children b = d.links.childrenOf b := by
  rw [children, h.eq_ofLinks]
  rfl

theorem pairwise_children : (d.children b).Pairwise fun x y => x.index < y.index := by
  rw [h.children_eq]
  by_cases hb : b.index < d.links.size
  · simp only [Links.childrenOf, Links.childRows, BlockId.getD_tabulate hb]
    refine List.Pairwise.filter _ (List.pairwise_map.mpr ?_)
    exact List.pairwise_lt_range
  · rw [Links.childrenOf_eq_nil hb]
    exact .nil

theorem mem_children_iff : c ∈ d.children b ↔ d.idom? c = some b := by
  rw [h.children_eq]
  constructor
  · exact h.idom?_of_mem_children
  · intro hidom
    unfold idom? at hidom
    split at hidom
    · next e hget =>
      split at hidom
      · cases hidom
      · next hne =>
        obtain rfl := Option.some.inj hidom
        refine (Links.mem_childrenOf h.exact.sound).mpr ⟨hget, fun hentry => hne ?_⟩
        rw [hentry, h.exact.sound.entry] at hget
        exact (Option.some.inj hget).symm.trans hentry.symm
    · cases hidom

end Correct

end Dominators

namespace Analysis.Describes

variable {f : Func} {a : Analysis} {rank : BlockId → Nat} {b x y : BlockId}
  (h : a.Describes f rank)
include h

theorem exists_idom? (hb : f.Reached b) (hne : b ≠ .entry) :
    ∃ d, a.dom.idom? b = some d ∧ f.ImmediatelyDominates d b := by
  cases hidom : a.dom.idom? b with
  | none => exact absurd (h.eq_entry_of_idom? hb hidom) hne
  | some d =>
    obtain ⟨hdom, hstrict, hnearest⟩ := h.idom?_spec hidom
    exact ⟨d, rfl, hdom, hstrict, fun {c} => hnearest c⟩

/-- The level of a block is the number of its strict dominators. -/
theorem encard_strict_dominators (hb : f.Reached b) :
    {c | f.Dom c b ∧ c ≠ b}.encard = a.dom.level b := by
  have hreach := h.reached_iff.mpr hb
  have hlinked := h.dom.linked_iff.mpr hreach
  have hrank := h.dom.rank_le_size hreach
  have hset : {c | f.Dom c b ∧ c ≠ b} =
      ((Dominators.climb a.dom.links a.dom.links.size b).toFinset : Set BlockId) := by
    ext c
    rw [Set.mem_ofPred_eq, List.coe_toFinset, Set.mem_ofPred_eq,
      Dominators.mem_climb h.dom.exact.sound _ c b hlinked hrank, h.dom.climbs_iff hreach, Func.Dom,
      h.edge_eq, and_comm]
  rw [hset, Set.encard_coe_eq_coe_finsetCard, h.dom.level_eq hreach, List.toFinset_card_of_nodup]
  exact Dominators.nodup_climb h.dom.exact.sound _ b hlinked hrank

theorem nearestCommon_meet (hx : f.Reached x) (hy : f.Reached y) :
    f.NearestCommon x y (a.dom.meet x y) := by
  have hiff : ∀ {c}, f.Dom c (a.dom.meet x y) ↔ f.Dom c x ∧ f.Dom c y := h.dominates_meet_iff hx hy
  have hreached : f.Reached (a.dom.meet x y) :=
    (hiff.mpr ⟨.root_dominates hx, .root_dominates hy⟩).1
  obtain ⟨hleft, hright⟩ := hiff.mp (.refl hreached)
  exact ⟨hleft, hright, fun hcx hcy => hiff.mpr ⟨hcx, hcy⟩⟩

/-- Both blocks are reachable, so the meet is computed. -/
theorem meet?_eq_ok (hx : f.Reached x) (hy : f.Reached y) :
    a.dom.meet? x y = .ok (a.dom.meet x y) := by
  have hrequire : ∀ {b}, f.Reached b → a.dom.require b = .ok () ∧ a.dom.reachable b = true := by
    intro b hb
    have hreach := h.reachable_iff.mpr hb
    obtain ⟨e, he⟩ := Option.isSome_iff_exists.mp hreach
    exact ⟨if_pos (Links.lt_size_of_get he), hreach⟩
  simp [Dominators.meet?, hrequire hx, hrequire hy, bind, Except.bind, pure, Except.pure]

end Analysis.Describes

/-! ## The latest block of an instruction -/

namespace Motion

variable {α β : Type}

/-- The computation does not end with a latest block that fails to dominate a use. -/
def Sparing (x : Except Halt α) : Prop :=
  ∀ name i latest b, x ≠ .error (.rejected (.latestNotDominating name i latest b))

namespace Sparing

theorem ok (v : α) : Sparing (.ok v) := by simp [Sparing]

theorem lift (x : Checked α) : Sparing (liftM x : Except Halt α) := by
  cases x <;> simp [Sparing, liftM, monadLift, MonadLift.monadLift, Except.mapError]

theorem bind {x : Except Halt α} {k : α → Except Halt β} (hx : Sparing x)
    (hk : ∀ v, x = .ok v → Sparing (k v)) : Sparing (x >>= k) := by
  cases x with
  | error e => exact fun name i latest b heq => hx name i latest b (congrArg _ (Except.error.inj heq))
  | ok v => exact hk v rfl

theorem useBlock (g : Func) (i : InstId) (u : Use) : Sparing (g.useBlock i u) := by
  refine .bind (.lift _) fun user _ => ?_
  split
  · split
    · exact .ok _
    · simp [Sparing, throw, throwThe, MonadExceptOf.throw]
  · split
    · exact .ok _
    · simp [Sparing, throw, throwThe, MonadExceptOf.throw]

theorem definingBlock (g : Func) (i operand : InstId) : Sparing (g.definingBlock i operand) := by
  refine .bind (.lift _) fun x _ => ?_
  split
  · exact .ok _
  · simp [Sparing, throw, throwThe, MonadExceptOf.throw]

theorem reachableSites {d : Dominators} {site : α → Except Halt BlockId}
    (hsite : ∀ x, Sparing (site x)) (xs : List α) : Sparing (reachableSites d site xs) := by
  induction xs with
  | nil => exact .ok _
  | cons x xs ih =>
    refine .bind (hsite x) fun b _ => .bind (.lift _) fun _ _ => ?_
    split
    · exact .bind ih fun _ _ => .ok _
    · exact .ok _

end Sparing

/-- Of all that can end a decision, the latest block is never the reason, whatever function the
analysis is used for. -/
theorem sparing_decision {f : Func} {a : Analysis} {rank : BlockId → Nat}
    (hd : a.Describes f rank) (depth : BlockId → Nat) (policy : Placement) (g : Func) (i : InstId) :
    Sparing (decision a depth policy g i) := by
  refine .bind (.lift _) fun x _ => ?_
  split
  · next current entry _ _ =>
    split
    · exact .ok _
    · next hcurrent =>
      have hreached : f.Reached current := hd.reachable_iff.mp (by simpa using hcurrent)
      refine .bind (.reachableSites (.definingBlock g i) _) fun defs _ => ?_
      cases defs with
      | none => exact .ok _
      | some defs =>
        refine .bind (.reachableSites (.useBlock g i) _) fun blocks hblocks => ?_
        cases blocks with
        | none => exact .ok _
        | some blocks =>
          -- only reachable blocks come into the meet, and it dominates all of them
          have hall : ∀ b ∈ blocks, f.Reached b := by
            intro b hb
            obtain ⟨u, -, -, hb⟩ := exists_partner (reachableSites_spec hblocks).flip hb
            exact hd.reachable_iff.mp hb
          simp only [find?_not_dominated hd hreached hall]
          refine .bind (.lift _) fun best _ => ?_
          split
          · exact .ok _
          · exact .ok _
  · exact .ok _

/-- Without blocks nothing is decided. -/
theorem sparing_decision_of_rpo_eq_nil {a : Analysis} (hrpo : a.dom.rpo = [])
    (depth : BlockId → Nat) (policy : Placement) (g : Func) (i : InstId) :
    Sparing (decision a depth policy g i) := by
  refine .bind (.lift _) fun x _ => ?_
  rw [hrpo]
  split
  · next hhead => cases hhead
  · exact .ok _

end Motion

/-- **The queries of the dominator tree are about all paths.** For every function whose branch
targets exist the analysis comes to an end. A reachable block other than the entry has an immediate
dominator, the one strict dominator that all its strict dominators dominate. The level of a
reachable block is the number of its strict dominators. The children of a block are the blocks whose
immediate dominator it is, in increasing order. Two reachable blocks that go up the tree, first to
one level and then together, come to a common block, and it is the one common dominator that all
common dominators dominate. So no decision of code motion that goes by this analysis, on whatever
function, ends with a latest block that does not dominate a use. -/
theorem Analysis.queries_agree_with_dominance (f : Func) (h : f.TargetsExist) :
    ∃ a, Analysis.ofFunc f = .ok a ∧
      (∀ b ∈ f.blockIds, f.Reached b → b ≠ .entry →
        ∃ d, a.dom.idom? b = some d ∧ ∀ e, f.ImmediatelyDominates e b ↔ e = d) ∧
      (∀ b ∈ f.blockIds, f.Reached b → {c | f.Dom c b ∧ c ≠ b}.encard = a.dom.level b) ∧
      (∀ b ∈ f.blockIds, (a.dom.children b).Pairwise (fun x y => x.index < y.index) ∧
        ∀ c, c ∈ a.dom.children b ↔ a.dom.idom? c = some b) ∧
      (∀ x ∈ f.blockIds, ∀ y ∈ f.blockIds, f.Reached x → f.Reached y →
        ∃ m, a.dom.meet? x y = .ok m ∧ (∃ n, a.dom.MeetAfter x y m n) ∧
          ∀ e, f.NearestCommon x y e ↔ e = m) ∧
      ∀ depth policy g i name j latest b, Motion.decision a depth policy g i ≠
        .error (.rejected (.latestNotDominating name j latest b)) := by
  obtain ⟨a, ha⟩ := Analysis.exists_ofFunc h
  refine ⟨a, ha, ?_⟩
  by_cases h₀ : 0 < f.numBlocks
  · obtain ⟨rank, hd⟩ := Analysis.describes ha h₀
    refine ⟨fun b _ hb hne => ?_, fun b _ hb => hd.encard_strict_dominators hb,
      fun b _ => ⟨hd.dom.pairwise_children, fun c => hd.dom.mem_children_iff⟩,
      fun x _ y _ hx hy => ?_, Motion.sparing_decision hd⟩
    · obtain ⟨d, hidom, hnearest⟩ := hd.exists_idom? hb hne
      exact ⟨d, hidom, fun e => ⟨hnearest.unique, fun he => he ▸ hnearest⟩⟩
    · have hnearest := hd.nearestCommon_meet hx hy
      exact ⟨_, hd.meet?_eq_ok hx hy,
        hd.dom.exists_meetAfter (hd.reached_iff.mpr hx) (hd.reached_iff.mpr hy),
        fun e => ⟨hnearest.unique, fun he => he ▸ hnearest⟩⟩
  · have hnone : ∀ b, b ∉ f.blockIds := fun b hb =>
      h₀ (Nat.zero_lt_of_lt (BlockId.mem_upTo.mp hb))
    refine ⟨fun b hb => absurd hb (hnone b), fun b hb => absurd hb (hnone b),
      fun b hb => absurd hb (hnone b), fun x hx => absurd hx (hnone x), ?_⟩
    exact Motion.sparing_decision_of_rpo_eq_nil (Analysis.walks_eq_nil ha h₀).1

/-- Of two blocks that lead to each other, neither dominates the other. The block behind them has
two strict dominators, and it meets the other one of the two only at the entry. -/
theorem Analysis.queries_agree_with_dominance_tangled :
    Func.tangled.TargetsExist ∧ ∃ a, Analysis.ofFunc Func.tangled = .ok a ∧
      a.dom.idom? ⟨3⟩ = some ⟨2⟩ ∧ Func.tangled.ImmediatelyDominates ⟨2⟩ ⟨3⟩ ∧
      {c | Func.tangled.Dom c ⟨3⟩ ∧ c ≠ ⟨3⟩}.encard = 2 ∧
      a.dom.children ⟨0⟩ = [⟨1⟩, ⟨2⟩] ∧ a.dom.idom? ⟨1⟩ = some ⟨0⟩ ∧
      a.dom.meet? ⟨1⟩ ⟨3⟩ = .ok ⟨0⟩ ∧ Func.tangled.NearestCommon ⟨1⟩ ⟨3⟩ ⟨0⟩ := by
  have htargets : Func.tangled.TargetsExist := by decide
  obtain ⟨a, ha, hidom, hlevel, hchildren, hmeet, -⟩ := queries_agree_with_dominance _ htargets
  obtain ⟨a', ha', h⟩ := exists_ok_of_any (x := Analysis.ofFunc Func.tangled)
    (q := fun a => a.dom.idom? ⟨3⟩ = some ⟨2⟩ ∧ a.dom.level ⟨3⟩ = 2 ∧
      a.dom.children ⟨0⟩ = [⟨1⟩, ⟨2⟩] ∧ a.dom.meet? ⟨1⟩ ⟨3⟩ = .ok ⟨0⟩) (by decide)
  obtain rfl := Except.ok.inj (ha.symm.trans ha')
  obtain ⟨hidom₃, hlevel₃, hchildren₀, hmeet₁₃⟩ := of_decide_eq_true h
  have hmem : ∀ n < 5, (⟨n⟩ : BlockId) ∈ Func.tangled.blockIds := fun n hn =>
    BlockId.mem_upTo.mpr hn
  have hreached₁ : Func.tangled.Reached ⟨1⟩ := Reaches.refl.step ⟨[⟨1⟩, ⟨2⟩], by decide, by simp⟩
  have hreached₂ : Func.tangled.Reached ⟨2⟩ := Reaches.refl.step ⟨[⟨1⟩, ⟨2⟩], by decide, by simp⟩
  have hreached₃ : Func.tangled.Reached ⟨3⟩ := hreached₂.step ⟨[⟨1⟩, ⟨3⟩], by decide, by simp⟩
  obtain ⟨d, hd, himmediate⟩ := hidom ⟨3⟩ (hmem 3 (by decide)) hreached₃ (by decide)
  obtain ⟨m, hm, -, hnearest⟩ := hmeet ⟨1⟩ (hmem 1 (by decide)) ⟨3⟩ (hmem 3 (by decide)) hreached₁
    hreached₃
  obtain rfl := Option.some.inj (hd.symm.trans hidom₃)
  obtain rfl := Except.ok.inj (hm.symm.trans hmeet₁₃)
  refine ⟨htargets, a, ha, hd, (himmediate _).mpr rfl, ?_, hchildren₀, ?_, hm,
    (hnearest _).mpr rfl⟩
  · rw [hlevel _ (hmem 3 (by decide)) hreached₃, hlevel₃]
    rfl
  · exact ((hchildren _ (hmem 0 (by decide))).2 _).mp (by rw [hchildren₀]; simp)

end SsaOpt
