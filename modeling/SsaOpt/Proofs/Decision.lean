import SsaOpt.Proofs.Relocation

/-! What a decision of code motion says about the block it chooses. -/

namespace SsaOpt.Motion

open Func

variable {f : Func} {a : Analysis} {rank : BlockId → Nat} {x : InstId}

/-! ## Sites -/

theorem reachableSites_spec {α : Type} {d : Dominators} {site : α → Except Halt BlockId}
    {xs : List α} {bs : List BlockId} (h : reachableSites d site xs = .ok (some bs)) :
    List.Forall₂ (fun x b => site x = .ok b ∧ d.reachable b) xs bs := by
  induction xs generalizing bs with
  | nil =>
    obtain rfl := Option.some.inj (pure_eq_ok_iff.mp h)
    exact .nil
  | cons x xs ih =>
    obtain ⟨b, hb, h⟩ := bind_eq_ok_iff.mp h
    obtain ⟨_, -, h⟩ := bind_eq_ok_iff.mp h
    split at h
    · next hreach =>
      obtain ⟨rest, hrest, h⟩ := bind_eq_ok_iff.mp h
      obtain ⟨cs, rfl, rfl⟩ := Option.map_eq_some_iff.mp (pure_eq_ok_iff.mp h)
      exact .cons ⟨hb, hreach⟩ (ih hrest)
    · cases pure_eq_ok_iff.mp h

/-- Every entry of the first list has its partner in the second. -/
theorem exists_partner {α β : Type} {R : α → β → Prop} {xs : List α} {ys : List β}
    (h : List.Forall₂ R xs ys) {x : α} (hx : x ∈ xs) : ∃ y ∈ ys, R x y := by
  induction h with
  | nil => cases hx
  | cons hxy _ ih =>
    rcases List.mem_cons.mp hx with rfl | hx
    · exact ⟨_, List.mem_cons_self, hxy⟩
    · obtain ⟨y, hy, hxy⟩ := ih hx
      exact ⟨y, List.mem_cons_of_mem _ hy, hxy⟩

theorem definingBlock_spec {d : InstId} {b : BlockId} (h : f.definingBlock x d = .ok b) :
    f.homeOf d = some b := by
  obtain ⟨y, hy, h⟩ := bind_eq_ok_iff.mp h
  rw [homeOf_of_inst (lift_eq_ok_iff.mp hy)]
  split at h
  · next hb => rw [hb, pure_eq_ok_iff.mp h]
  · exact absurd h not_throw_eq_ok

/-- A user that is no phi reads in its own block. -/
theorem useBlock_spec {u : Use} {b : BlockId} (hphi : ¬f.isPhi u.user)
    (h : f.useBlock x u = .ok b) : f.homeOf u.user = some b := by
  obtain ⟨y, hy, h⟩ := bind_eq_ok_iff.mp h
  have hy := lift_eq_ok_iff.mp hy
  rw [isPhi_eq, op?_of_inst hy] at hphi
  simp only [incoming?_eq_none_iff.mpr hphi] at h
  rw [homeOf_of_inst hy]
  split at h
  · next hb => rw [hb, pure_eq_ok_iff.mp h]
  · exact absurd h not_throw_eq_ok

/-- What is known of a block that was chosen. -/
structure Chosen (f : Func) (a : Analysis) (depth : BlockId → Nat) (policy : Placement)
    (x : InstId) (s : Site) : Prop where
  home : f.homeOf x = some s.current
  reachable : a.dom.reachable s.current
  defs : ∃ defs, List.Forall₂ (fun d b => f.definingBlock x d = .ok b ∧ a.dom.reachable b)
    (f.reads x) defs ∧ legalBlock? a.dom s.best defs = some s.chosen
  uses : ∃ blocks, List.Forall₂ (fun u b => f.useBlock x u = .ok b ∧ a.dom.reachable b)
    (f.usesOf x) blocks ∧ s.latest = latestBlock a.dom s.current blocks ∧
      ∀ b ∈ blocks, a.dom.dominates s.latest b
  best : bestBlock a depth policy f x s.earliest s.latest s.current = .ok s.best

theorem decision_spec {depth : BlockId → Nat} {policy : Placement} {s : Site}
    (h : decision a depth policy f x = .ok (.site s)) : Chosen f a depth policy x s := by
  obtain ⟨z, hz, h⟩ := bind_eq_ok_iff.mp h
  have hz := lift_eq_ok_iff.mp hz
  split at h
  · next current entry hcurrent hentry =>
    split at h
    · cases pure_eq_ok_iff.mp h
    · next hreach =>
      obtain ⟨defs, hdefs, h⟩ := bind_eq_ok_iff.mp h
      cases defs with
      | none => cases pure_eq_ok_iff.mp h
      | some defs =>
        obtain ⟨blocks, hblocks, h⟩ := bind_eq_ok_iff.mp h
        cases blocks with
        | none => cases pure_eq_ok_iff.mp h
        | some blocks =>
          simp only at h
          split at h
          · exact absurd h not_throw_eq_ok
          · next hnone =>
            obtain ⟨best, hbest, h⟩ := bind_eq_ok_iff.mp h
            split at h
            · cases pure_eq_ok_iff.mp h
            · next chosen hchosen =>
              obtain rfl := Decision.site.inj (pure_eq_ok_iff.mp h)
              have hreads : f.reads x = z.operands.filterMap Operand.inst? := by
                rw [reads_eq, operandsOf_of_inst hz]
              refine ⟨by rw [homeOf_of_inst hz, hcurrent], by simpa using hreach,
                ⟨defs, hreads ▸ reachableSites_spec hdefs, hchosen⟩,
                ⟨blocks, usesOf_of_inst hz ▸ reachableSites_spec hblocks, rfl, ?_⟩,
                lift_eq_ok_iff.mp hbest⟩
              simpa using hnone
  · cases pure_eq_ok_iff.mp h

/-! ## Blocks between the operands and the uses -/

section Blocks

variable (hd : a.Describes f rank)
include hd

theorem mem_ancestors_iff {b c : BlockId} (hb : f.Reached b) :
    c ∈ a.dom.ancestors b ↔ f.Dom c b := by
  rw [hd.dom.mem_ancestors_iff (by rw [hd.edge_eq]; exact hb), Dom, hd.edge_eq]

/-- The search for a legal block ends where it starts, in a block that all definitions dominate: a
block that dominates an ancestor dominates the block itself. -/
theorem legalBlock?_spec {best chosen : BlockId} {defs : List BlockId} (hb : f.Reached best)
    (h : legalBlock? a.dom best defs = some chosen) :
    chosen = best ∧ ∀ b ∈ defs, f.Dom b best := by
  induction defs with
  | nil => exact ⟨(Option.some.inj h).symm, by simp⟩
  | cons b defs ih =>
    rw [legalBlock?, List.foldlM_cons] at h
    obtain ⟨c, hc, h⟩ := Option.bind_eq_some_iff.mp h
    have hdom : f.Dom b best := by
      have hbc := hd.dominates_iff.mp (List.find?_some hc)
      exact hbc.trans ((mem_ancestors_iff hd hb).mp (List.mem_of_find?_eq_some hc))
    obtain rfl : best = c := by
      rw [Dominators.ancestors, List.find?_cons_of_pos (hd.dominates_iff.mpr hdom)] at hc
      exact Option.some.inj hc
    obtain ⟨rfl, hall⟩ := ih h
    refine ⟨rfl, fun c hc => ?_⟩
    rcases List.mem_cons.mp hc with rfl | hc
    · exact hdom
    · exact hall c hc

theorem reached_foldl_meet {bs : List BlockId} : ∀ {b : BlockId}, f.Reached b →
    (∀ c ∈ bs, f.Reached c) → f.Reached (bs.foldl a.dom.meet b) ∧
      ∀ c, f.Dom c (bs.foldl a.dom.meet b) ↔ f.Dom c b ∧ ∀ b ∈ bs, f.Dom c b := by
  induction bs with
  | nil => exact fun hb _ => ⟨hb, fun c => by simp⟩
  | cons e bs ih =>
    intro b hb hbs
    have he := hbs e List.mem_cons_self
    have hmeet : ∀ c, f.Dom c (a.dom.meet b e) ↔ f.Dom c b ∧ f.Dom c e := fun c =>
      hd.dominates_meet_iff hb he
    have hr : f.Reached (a.dom.meet b e) :=
      ((hmeet .entry).mpr ⟨.root_dominates hb, .root_dominates he⟩).1
    obtain ⟨hreach, hall⟩ := ih hr fun c hc => hbs c (List.mem_cons_of_mem _ hc)
    refine ⟨hreach, fun c => ?_⟩
    rw [List.foldl_cons, hall, hmeet, and_assoc, List.forall_mem_cons]

/-- The latest block dominates all uses. What dominates them, and the block the instruction is in,
dominates the latest block. -/
theorem latestBlock_spec {current : BlockId} {blocks : List BlockId} (hc : f.Reached current)
    (hblocks : ∀ b ∈ blocks, f.Reached b) : f.Reached (latestBlock a.dom current blocks) ∧
      (∀ c, f.Dom c current → (∀ b ∈ blocks, f.Dom c b) →
        f.Dom c (latestBlock a.dom current blocks)) ∧
      ∀ b ∈ blocks, f.Dom (latestBlock a.dom current blocks) b := by
  cases blocks with
  | nil => exact ⟨hc, fun _ h _ => h, by simp⟩
  | cons b rest =>
    obtain ⟨hreach, hall⟩ := reached_foldl_meet hd (hblocks b List.mem_cons_self)
      fun c hc => hblocks c (List.mem_cons_of_mem _ hc)
    refine ⟨hreach, fun c _ h => (hall c).mpr (List.forall_mem_cons.mp h), ?_⟩
    exact List.forall_mem_cons.mpr ((hall _).mp (.refl hreach))

omit hd in
theorem shallowest_mem (depth : BlockId → Nat) (bs : List BlockId) (start : BlockId) :
    shallowest depth start bs = start ∨ shallowest depth start bs ∈ bs := by
  induction bs generalizing start with
  | nil => exact .inl rfl
  | cons b bs ih =>
    rw [shallowest, List.foldl_cons, ← shallowest]
    split
    · rcases ih b with h | h
      · exact .inr (by rw [h]; exact List.mem_cons_self)
      · exact .inr (List.mem_cons_of_mem _ h)
    · exact (ih start).imp_right (List.mem_cons_of_mem _)

theorem pairwise_ancestors {b : BlockId} (hb : f.Reached b) :
    (a.dom.ancestors b).Pairwise fun u v => f.Dom v u := by
  have := hd.dom.pairwise_ancestors (b := b) (by rw [hd.edge_eq]; exact hb)
  rwa [hd.edge_eq] at this

omit hd in
theorem upToBlock_sublist (stop : BlockId) (bs : List BlockId) :
    (upToBlock stop bs).Sublist bs := by
  induction bs with
  | nil => exact .slnil
  | cons c bs ih =>
    rw [upToBlock]
    split
    · exact (List.nil_sublist bs).cons_cons c
    · exact ih.cons_cons c

omit hd in
/-- What comes before a block of a chain, or is the block, is below it. -/
theorem upToBlock_spec {R : BlockId → BlockId → Prop} {stop b : BlockId} {bs : List BlockId}
    (hrefl : R stop stop) (hchain : bs.Pairwise R) (hstop : stop ∈ bs)
    (h : b ∈ upToBlock stop bs) : R b stop := by
  induction bs with
  | nil => cases hstop
  | cons c bs ih =>
    rw [upToBlock] at h
    split at h
    · next hc =>
      rw [List.mem_singleton.mp h, hc]
      exact hrefl
    · next hc =>
      have hstop' := (List.mem_cons.mp hstop).resolve_left fun hs => hc hs.symm
      rcases List.mem_cons.mp h with rfl | h
      · exact (List.pairwise_cons.mp hchain).1 stop hstop'
      · exact ih (List.pairwise_cons.mp hchain).2 hstop' h

/-- The best block dominates the latest one; it is not above the current one if that dominates the
latest one, except for an instruction that cannot trap. -/
theorem bestBlock_spec {depth : BlockId → Nat} {policy : Placement}
    {earliest latest current best : BlockId} (hl : f.Reached latest)
    (h : bestBlock a depth policy f x earliest latest current = .ok best) :
    f.Dom best latest ∧
      (f.Dom current latest → f.Dom current best ∨ mayTrap f x = .ok false) := by
  cases policy with
  | late =>
    obtain rfl := pure_eq_ok_iff.mp h
    exact ⟨.refl hl, .inl⟩
  | hoist =>
    obtain ⟨trap, htrap, h⟩ := bind_eq_ok_iff.mp h
    obtain rfl := pure_eq_ok_iff.mp h
    rcases shallowest_mem depth (upToBlock (if trap then current else earliest)
      (a.dom.ancestors latest)) latest with heq | hmem
    · rw [heq]
      exact ⟨.refl hl, .inl⟩
    · refine ⟨(mem_ancestors_iff hd hl).mp ((upToBlock_sublist _ _).subset hmem), fun hcur => ?_⟩
      cases trap with
      | false => exact .inr htrap
      | true =>
        exact .inl (upToBlock_spec (R := fun u v => f.Dom v u) (.refl hcur.reaches_left)
          (pairwise_ancestors hd hl)
          ((mem_ancestors_iff hd hl).mpr hcur) hmem)

end Blocks

/-! ## The place in the block -/

theorem terminator?_of_ends {b : BlockId} {t : InstId} (hlast : (f.listOf b).getLast? = some t)
    (ht : f.ends t) : f.terminator? b = .ok (some t) := by
  obtain ⟨y, hy⟩ := exists_block_of_mem (List.mem_of_getLast? hlast)
  rw [listOf_of_block hy] at hlast
  obtain ⟨op, hop, hterm⟩ := ends_eq_true_iff.mp ht
  obtain ⟨z, hz, rfl⟩ := op?_eq_some_iff.mp hop
  simp [terminator?, hy, hlast, hz, hterm, bind, Except.bind, pure, Except.pure]

theorem Detached.op?_eq {m : Func} (h : Detached f x m) (i : InstId) : m.op? i = f.op? i := by
  simp only [op?, h.bare]
  split
  · rw [Option.map_map]; rfl
  · rfl

theorem Detached.reads_eq {m : Func} (h : Detached f x m) (i : InstId) :
    m.reads i = f.reads i := by
  simp only [Func.reads_eq, operandsOf, h.bare]
  split
  · cases f.bare? i <;> rfl
  · rfl

/-- An instruction is put before the first of its users in the block that is no phi, or else
before the terminator. -/
theorem target?_spec {b : BlockId} {m : Func} (hf : f.Housed) (hx : ¬f.ends x)
    (hdet : Detached f x m) (hb : b.index < f.numBlocks) :
    ∃ front t back, target? m x b = .ok (some t) ∧ m.listOf b = front ++ t :: back ∧ ¬f.isPhi t ∧
      (∀ j ∈ front, f.isPhi j ∨ x ∉ f.reads j) ∧ (x ∈ f.reads t ∨ f.ends t) := by
  have hisPhi : ∀ j, m.isPhi j = f.isPhi j := fun j => by
    rw [isPhi_eq, isPhi_eq, Detached.op?_eq hdet]
  have husers : ∀ j, j ∈ users m x ↔ x ∈ f.reads j := fun j => by
    rw [mem_users_iff (hf.consistent.detached hdet), Detached.reads_eq hdet]
  obtain ⟨y, hy⟩ := exists_block (f := m) (hdet.size ▸ hb)
  have hlist := listOf_of_block hy
  cases hfind : y.insts.find? (fun j => !m.isPhi j && decide (j ∈ users m x)) with
  | some t =>
    obtain ⟨hp, pre, post, hsplit, hpre⟩ := List.find?_eq_some_iff_append.mp hfind
    simp only [Bool.and_eq_true, Bool.not_eq_true', decide_eq_true_eq, hisPhi, husers] at hp
    refine ⟨pre, t, post, ?_, hlist.trans hsplit, by simp [hp.1], fun j hj => ?_, .inl hp.2⟩
    · simp only [target?, hy, hfind, bind, Except.bind]
      rfl
    · simpa [hisPhi, husers, or_iff_not_imp_left] using hpre j hj
  | none =>
    obtain ⟨init, t, hlast⟩ := (List.eq_nil_or_concat _).resolve_left (hf.list_ne_nil hb)
    rw [List.concat_eq_append] at hlast
    have hends : f.ends t := (hf.ends_iff hlast).mpr rfl
    have hsplit : m.listOf b = init.filter (· ≠ x) ++ [t] := by
      have htx : t ≠ x := by
        rintro rfl
        exact hx hends
      rw [hdet.lists, hlast, List.filter_append, List.filter_cons_of_pos (by simpa using htx)]
      rfl
    refine ⟨init.filter (· ≠ x), t, [], ?_, hsplit, not_isPhi_of_ends hends, fun j hj => ?_,
      .inr hends⟩
    · simp only [target?, hy, hfind, bind, Except.bind]
      exact terminator?_of_ends (by simp [hsplit])
        (by rw [ends, Detached.op?_eq hdet]; exact hends)
    · have := List.find?_eq_none.mp hfind j
        (by rw [← hlist, hsplit]; exact List.mem_append_left _ hj)
      simpa [hisPhi, husers, or_iff_not_imp_left] using this

theorem relocate_spec {b : BlockId} {g : Func} (hf : f.Housed) (hx : ¬f.ends x)
    (h : relocate f x b = .ok g) :
    ∃ front t back, Relocated f x b front (t :: back) g ∧ ¬f.isPhi t ∧
      (∀ j ∈ front, f.isPhi j ∨ x ∉ f.reads j) ∧ (x ∈ f.reads t ∨ f.ends t) := by
  obtain ⟨m, hm, h⟩ := bind_eq_ok_iff.mp h
  have hdet := detach_spec (fun b => hf.consistent.mem_list b x) hm
  have hcon := hf.consistent.detached hdet
  have hb : b.index < f.numBlocks := by
    obtain ⟨t?, ht, -⟩ := bind_eq_ok_iff.mp h
    obtain ⟨y, hy, -⟩ := bind_eq_ok_iff.mp ht
    rw [← hdet.size]
    exact (Array.getElem?_eq_some_iff.mp (block_eq_ok_iff.mp hy)).1
  obtain ⟨front, t, back, ht, hsplit, hspec⟩ := target?_spec hf hx hdet hb
  simp only [ht, bind, Except.bind] at h
  obtain ⟨c, front', back', hsplit', hplaced⟩ := insertBefore_spec h
  obtain rfl := hcon.home_unique (by rw [hsplit]; simp : t ∈ m.listOf b)
    (by rw [hsplit']; simp : t ∈ m.listOf c)
  obtain ⟨rfl, rfl⟩ := split_unique (hsplit ▸ hcon.list_nodup b) (hsplit.symm.trans hsplit')
  exact ⟨front, t, back, hdet.relocated hf.consistent hplaced, hspec⟩

theorem exists_relocate {b c : BlockId} (hf : f.Housed) (hxc : x ∈ f.listOf c) (hx : ¬f.ends x)
    (hb : b.index < f.numBlocks) : ∃ g, relocate f x b = .ok g := by
  obtain ⟨z, hz⟩ := hf.consistent.bare?_of_mem hxc
  obtain ⟨m, hm⟩ := exists_detach (fun b => hf.consistent.mem_list b x) (by simp [hz])
  have hdet := detach_spec (fun b => hf.consistent.mem_list b x) hm
  obtain ⟨front, t, back, ht, hsplit, -⟩ := target?_spec hf hx hdet hb
  have hbare := hdet.bare x
  rw [if_pos rfl, hz] at hbare
  refine exists_ok_bind hm (exists_ok_bind ht ?_)
  exact exists_insertBefore (hf.consistent.detached hdet) (by rw [hbare]; rfl)
    (by rw [homeOf, hbare]; rfl) (by rw [hsplit]; simp : t ∈ m.listOf b)

end SsaOpt.Motion
