import SsaOpt.Proofs.Totality

/-! The legal blocks of an instruction form a chain in the dominator tree, and a decision knows it
exactly: from the first block in which all operands are available down to the nearest common
dominator of the uses. -/

namespace SsaOpt.Motion

open Func

variable {f : Func} {a : Analysis} {rank : BlockId → Nat} {x : InstId} {b c e : BlockId}
  {depth : BlockId → Nat} {policy : Placement}

/-! ## Dominators of one block -/

section Dominators

variable (hd : a.Describes f rank)
include hd

/-- Of two dominators of one block, the one of lower level dominates the other. -/
theorem dom_of_level_le (hb : f.Dom b e) (hc : f.Dom c e) (hle : a.dom.level b ≤ a.dom.level c) :
    f.Dom b c := by
  rcases hb.total hc with h | h
  · exact h
  · by_cases hcb : c = b
    · exact hcb ▸ .refl hc.reaches_left
    · have := hd.level_lt h hcb
      omega

theorem head?_rpo : a.dom.rpo.head? = some .entry := by
  have hpost := hd.graph.valid.postordered (Nat.zero_lt_of_lt (hd.dom.exact.ranking.lt_size .refl))
  obtain ⟨rest, hrest⟩ := hpost.exists_eq_cons
  rw [hd.dom.rpo, hrest]
  rfl

/-- The deepest of some dominators of one block is dominated by all of them. -/
theorem deepest_spec {bs : List BlockId} : ∀ start : BlockId, (∀ c ∈ start :: bs, f.Dom c e) →
    deepest a.dom start bs ∈ start :: bs ∧ ∀ c ∈ start :: bs, f.Dom c (deepest a.dom start bs) := by
  induction bs with
  | nil =>
    intro start h
    refine ⟨List.mem_cons_self, fun c hc => ?_⟩
    obtain rfl := List.mem_singleton.mp hc
    exact .refl (h c hc).reaches_left
  | cons b bs ih =>
    intro start h
    have hstart := h start List.mem_cons_self
    have hb := h b (by simp)
    have htail : ∀ c ∈ bs, f.Dom c e := fun c hc => h c (by simp [hc])
    rw [deepest, List.foldl_cons, ← deepest]
    split
    · next hlt =>
      obtain ⟨hmem, hall⟩ := ih b (List.forall_mem_cons.mpr ⟨hb, htail⟩)
      refine ⟨List.mem_cons_of_mem _ hmem, List.forall_mem_cons.mpr ⟨?_, hall⟩⟩
      exact (dom_of_level_le hd hstart hb hlt.le).trans (hall b List.mem_cons_self)
    · next hge =>
      obtain ⟨hmem, hall⟩ := ih start (List.forall_mem_cons.mpr ⟨hstart, htail⟩)
      obtain ⟨hfirst, hrest⟩ := List.forall_mem_cons.mp hall
      refine ⟨?_, List.forall_mem_cons.mpr ⟨hfirst, List.forall_mem_cons.mpr ⟨?_, hrest⟩⟩⟩
      · rcases List.mem_cons.mp hmem with h | h
        · rw [h]
          exact List.mem_cons_self
        · exact List.mem_cons_of_mem _ (List.mem_cons_of_mem _ h)
      · exact (dom_of_level_le hd hb hstart (Nat.le_of_not_lt hge)).trans hfirst

end Dominators

/-- The best block of a chain is of least depth, and of all such blocks the lowest one. -/
theorem shallowest_spec {bs : List BlockId} : ∀ {start : BlockId}, f.Reached start →
    (∀ c ∈ bs, f.Dom c start) → bs.Pairwise (fun u v => f.Dom v u) →
    ∀ c ∈ start :: bs, depth (shallowest depth start bs) ≤ depth c ∧
      (depth c = depth (shallowest depth start bs) → f.Dom c (shallowest depth start bs)) := by
  induction bs with
  | nil =>
    intro start hstart _ _ c hc
    obtain rfl := List.mem_singleton.mp hc
    exact ⟨Nat.le_refl _, fun _ => .refl hstart⟩
  | cons b bs ih =>
    intro start hstart habove hchain
    obtain ⟨hb, hbs⟩ := List.forall_mem_cons.mp habove
    obtain ⟨hhead, htail⟩ := List.pairwise_cons.mp hchain
    rw [shallowest, List.foldl_cons, ← shallowest]
    split
    · next hlt =>
      have hall := ih hb.reaches_left hhead htail
      refine List.forall_mem_cons.mpr ⟨?_, hall⟩
      have := (hall b List.mem_cons_self).1
      exact ⟨by omega, fun heq => by omega⟩
    · next hge =>
      have hall := ih hstart hbs htail
      obtain ⟨hfirst, hrest⟩ := List.forall_mem_cons.mp hall
      refine List.forall_mem_cons.mpr ⟨hfirst, List.forall_mem_cons.mpr ⟨?_, hrest⟩⟩
      -- `b` is above the start, and no shallower
      have hle := hfirst.1
      exact ⟨by omega, fun heq => hb.trans (hfirst.2 (by omega))⟩

/-- Up to a block, a chain lists all that is not above the block. -/
theorem mem_upToBlock {stop : BlockId} {bs : List BlockId}
    (hchain : bs.Pairwise fun u v => f.Dom v u) (hstop : f.Dom stop c) (hc : c ∈ bs) :
    c ∈ upToBlock stop bs := by
  induction bs with
  | nil => cases hc
  | cons b bs ih =>
    obtain ⟨hhead, htail⟩ := List.pairwise_cons.mp hchain
    rw [upToBlock]
    split
    · next hb =>
      rcases List.mem_cons.mp hc with rfl | hc
      · exact List.mem_singleton_self c
      · have hcb : c = b := (hhead c hc).antisymm (hb ▸ hstop)
        rw [hcb]
        exact List.mem_singleton_self b
    · rcases List.mem_cons.mp hc with rfl | hc
      · exact List.mem_cons_self
      · exact List.mem_cons_of_mem _ (ih htail hc)

/-! ## The best block -/

section Best

variable {earliest latest current best : BlockId} (hd : a.Describes f rank)
include hd

/-- The highest block that is considered. -/
def ceiling (trap : Bool) (earliest current : BlockId) : BlockId :=
  if trap then current else earliest

/-- Hoisting considers all blocks from the ceiling down to the latest block. It takes one of least
depth, and of all such blocks the lowest one. -/
theorem bestBlock_hoist_spec (hl : f.Reached latest)
    (h : bestBlock a depth .hoist f x earliest latest current = .ok best) :
    ∃ trap, mayTrap f x = .ok trap ∧
      (f.Dom (ceiling trap earliest current) latest → f.Dom (ceiling trap earliest current) best) ∧
      ∀ c, f.Dom (ceiling trap earliest current) c → f.Dom c latest →
        depth best ≤ depth c ∧ (depth c = depth best → f.Dom c best) := by
  obtain ⟨trap, htrap, h⟩ := bind_eq_ok_iff.mp h
  obtain rfl := pure_eq_ok_iff.mp h
  have hchain := pairwise_ancestors hd hl
  have hsub := upToBlock_sublist (ceiling trap earliest current) (a.dom.ancestors latest)
  refine ⟨trap, htrap, fun hceil => ?_, fun c hc hcl => ?_⟩
  · have hstop := (mem_ancestors_iff hd hl).mpr hceil
    rcases shallowest_mem depth (upToBlock (ceiling trap earliest current)
      (a.dom.ancestors latest)) latest with heq | hmem
    · rw [ceiling] at heq
      rw [heq]
      exact hceil
    · exact upToBlock_spec (R := fun u v => f.Dom v u) (.refl hceil.reaches_left) hchain hstop hmem
  · have hmem := mem_upToBlock hchain hc ((mem_ancestors_iff hd hl).mpr hcl)
    refine shallowest_spec hl (fun c hc => ?_) (hchain.sublist hsub) c (List.mem_cons_of_mem _ hmem)
    exact (mem_ancestors_iff hd hl).mp (hsub.subset hc)

/-- The best block is in between the earliest and the latest one. -/
theorem bestBlock_between (he : f.Dom e b) (hl : f.Dom b latest)
    (h : bestBlock a depth policy f x e latest b = .ok best) :
    f.Dom e best ∧ f.Dom best latest := by
  refine ⟨?_, (bestBlock_spec hd hl.1 h).1⟩
  cases policy with
  | late =>
    obtain rfl := pure_eq_ok_iff.mp h
    exact he.trans hl
  | hoist =>
    obtain ⟨trap, -, hceil, -⟩ := bestBlock_hoist_spec hd hl.1 h
    cases trap with
    | true => exact he.trans (hceil hl)
    | false => exact hceil (he.trans hl)

/-- The search for a legal block stays where all operands are defined. -/
theorem legalBlock?_eq_some {defs : List BlockId} (h : ∀ c ∈ defs, f.Dom c best) :
    legalBlock? a.dom best defs = some best := by
  induction defs with
  | nil => rfl
  | cons c defs ih =>
    obtain ⟨hc, hdefs⟩ := List.forall_mem_cons.mp h
    rw [legalBlock?, List.foldlM_cons, Dominators.ancestors,
      List.find?_cons_of_pos (hd.dominates_iff.mpr hc)]
    exact ih hdefs

end Best

/-! ## Decisions -/

theorem reachableSites_map {α : Type} {site : α → Except Halt BlockId} {home : α → BlockId}
    {xs : List α} (hd : a.Describes f rank)
    (h : ∀ x ∈ xs, site x = .ok (home x) ∧ f.Reached (home x)) :
    reachableSites a.dom site xs = .ok (some (xs.map home)) := by
  induction xs with
  | nil => rfl
  | cons x xs ih =>
    obtain ⟨⟨hsite, hreached⟩, hrest⟩ := List.forall_mem_cons.mp h
    have hreach := hd.reachable_iff.mpr hreached
    obtain ⟨e, he⟩ := Option.isSome_iff_exists.mp hreach
    refine bind_eq_ok_iff.mpr ⟨_, hsite, bind_eq_ok_iff.mpr ⟨(), ?_, ?_⟩⟩
    · exact lift_eq_ok_iff.mpr (if_pos (Links.lt_size_of_get he))
    · rw [if_pos hreach]
      exact bind_eq_ok_iff.mpr ⟨_, ih hrest, rfl⟩

/-- The first block in which all operands of `x` are available: all definitions dominate it, and it
dominates every other such block. -/
structure Earliest (f : Func) (x : InstId) (e : BlockId) : Prop where
  defined : ∀ {d home}, d ∈ f.reads x → d ∈ f.listOf home → f.Dom home e
  least : ∀ {c}, f.Reached c → (∀ {d home}, d ∈ f.reads x → d ∈ f.listOf home → f.Dom home c) →
    f.Dom e c

section Decided

variable (hf : f.Housed) (hd : a.Describes f rank) (hb : f.Reached b) (hx : x ∈ f.listOf b)
  (hloose : Loose f x)
include hf hd hb hx

/-- Where control comes to, the deepest definition is the earliest block. -/
theorem exists_defs (hphi : ¬f.isPhi x) :
    ∃ defs, reachableSites a.dom (f.definingBlock x) (f.reads x) = .ok (some defs) ∧
      (∀ c ∈ defs, ∃ d ∈ f.reads x, d ∈ f.listOf c) ∧
      Earliest f x (deepest a.dom .entry defs) := by
  have : Nonempty BlockId := ⟨b⟩
  have hhomes : ∀ d, d ∈ f.reads x → ∃ c, d ∈ f.listOf c ∧ f.Dom c b := fun d =>
    hf.home_dom hb hx hphi
  choose! home hhome using hhomes
  have hdefs : ∀ c ∈ (f.reads x).map home, ∃ d ∈ f.reads x, d ∈ f.listOf c := by
    intro c hc
    obtain ⟨d, hread, rfl⟩ := List.mem_map.mp hc
    exact ⟨d, hread, (hhome d hread).1⟩
  have hdom : ∀ c ∈ .entry :: (f.reads x).map home, f.Dom c b := by
    refine List.forall_mem_cons.mpr ⟨.root_dominates hb, fun c hc => ?_⟩
    obtain ⟨d, hread, rfl⟩ := List.mem_map.mp hc
    exact (hhome d hread).2
  refine ⟨(f.reads x).map home, ?_, hdefs, ?_, ?_⟩
  · refine reachableSites_map hd fun d hread => ?_
    obtain ⟨hmem, hdom⟩ := hhome d hread
    exact ⟨definingBlock_of_mem hf.consistent hmem, hdom.reaches_left⟩
  · intro d c hread hc
    obtain rfl := hf.consistent.home_unique (hhome d hread).1 hc
    exact (deepest_spec hd .entry hdom).2 _ (List.mem_cons_of_mem _ (List.mem_map_of_mem hread))
  · intro c hc hall
    rcases List.mem_cons.mp (deepest_spec hd .entry hdom).1 with heq | hmem
    · rw [heq]
      exact .root_dominates hc
    · obtain ⟨d, hread, hmem⟩ := hdefs _ hmem
      exact hall hread hmem

omit hd in
theorem Earliest.dom (he : Earliest f x e) (hphi : ¬f.isPhi x) : f.Dom e b :=
  he.least hb fun hread hc => dom_of_reads hf hc hx hb hphi hread

include hloose

/-- In a reachable block nothing but the uses can keep an instruction from being placed, and the
best block is legal as it is. -/
theorem decision_of_reached (depth : BlockId → Nat) (policy : Placement) :
    ∃ e, Earliest f x e ∧ decision a depth policy f x = (do
    let uses ← reachableSites a.dom (f.useBlock x) (f.usesOf x)
    uses.elim (pure .leave) fun blocks => do
      let latest := latestBlock a.dom b blocks
      let best ← bestBlock a depth policy f x e latest b
      pure (.site { earliest := e, latest, best, chosen := best, current := b })) := by
  obtain ⟨defs, hdefs, hmem, he⟩ := exists_defs hf hd hb hx hloose.not_isPhi
  refine ⟨_, he, ?_⟩
  obtain ⟨z, hz⟩ := hf.consistent.exists_inst hx
  have hhome : z.home = some b := by rw [← homeOf_of_inst hz, (hf.consistent.mem_list b x).mp hx]
  rw [reads_eq, operandsOf_of_inst hz] at hdefs
  rw [usesOf_of_inst hz]
  unfold decision
  simp only [lift_eq_ok_iff.mpr hz, hhome, head?_rpo hd, hd.reachable_iff.mpr hb, hdefs, bind,
    Except.bind]
  cases huses : reachableSites a.dom (f.useBlock x) z.uses with
  | error e => rfl
  | ok uses =>
    cases uses with
    | none => rfl
    | some blocks =>
      have hspec := reachableSites_spec huses
      rw [← usesOf_of_inst hz] at hspec
      have huser := useBlocks_spec hf hd hx (fun i => hloose.not_phi) hspec
      have hreached : ∀ c ∈ blocks, f.Reached c := fun c hc => (huser c hc).1
      have hlatest := (latestBlock_spec hd hb hreached).2.1 b (.refl hb) fun c hc => (huser c hc).2
      simp only [find?_not_dominated hd hb hreached, Option.elim_some]
      cases hbest : bestBlock a depth policy f x (deepest a.dom .entry defs)
          (latestBlock a.dom b blocks) b with
      | error e => rfl
      | ok best =>
        have hdom := (bestBlock_between hd (he.dom hf hb hx hloose.not_isPhi) hlatest hbest).1
        have hlegal : legalBlock? a.dom best defs = some best := by
          refine legalBlock?_eq_some hd fun c hc => ?_
          obtain ⟨d, hread, hdc⟩ := hmem c hc
          exact (he.defined hread hdc).trans hdom
        simp only [lift_eq_ok_iff.mpr (rfl : Except.ok best = Except.ok best), hlegal]
        rfl

end Decided

/-- What is known of a site, all of it exactly. -/
structure Sited (f : Func) (a : Analysis) (depth : BlockId → Nat) (policy : Placement)
    (x : InstId) (s : Site) : Prop where
  reached : f.Reached s.current
  mem : x ∈ f.listOf s.current
  earliest : Earliest f x s.earliest
  uses : ∃ blocks, reachableSites a.dom (f.useBlock x) (f.usesOf x) = .ok (some blocks) ∧
    s.latest = latestBlock a.dom s.current blocks
  dom_latest : f.Dom s.current s.latest
  chosen : bestBlock a depth policy f x s.earliest s.latest s.current = .ok s.chosen

theorem sited_of_decision {s : Site} (hf : f.Housed) (hd : a.Describes f rank) (hloose : Loose f x)
    (hdec : decision a depth policy f x = .ok (.site s)) : Sited f a depth policy x s := by
  have hc := decision_spec hdec
  have hmem := hc.mem_current hf
  have hreach := hc.reached_current hd
  obtain ⟨-, hlatest, -⟩ := hc.latest_spec hf hd fun i => hloose.not_phi
  obtain ⟨e, he, heq⟩ := decision_of_reached hf hd hreach hmem hloose depth policy
  rw [heq] at hdec
  obtain ⟨uses, huses, hdec⟩ := bind_eq_ok_iff.mp hdec
  cases uses with
  | none => cases pure_eq_ok_iff.mp hdec
  | some blocks =>
    obtain ⟨best, hbest, hdec⟩ := bind_eq_ok_iff.mp hdec
    have hbest := lift_eq_ok_iff.mp hbest
    have hs := Decision.site.inj (pure_eq_ok_iff.mp hdec)
    have hse : e = s.earliest := congrArg Site.earliest hs
    have hsl : latestBlock a.dom s.current blocks = s.latest := congrArg Site.latest hs
    have hsc : best = s.chosen := congrArg Site.chosen hs
    refine ⟨hreach, hmem, hse ▸ he, ⟨blocks, huses, hsl.symm⟩, hlatest, ?_⟩
    rw [← hse, ← hsl, ← hsc]
    exact hbest

end SsaOpt.Motion
