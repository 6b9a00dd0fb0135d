import SsaOpt.Proofs.Links

/-! Passes over the table of links: what one relinking does, what a pass does, and that passes
settle within the bound on a table in which blocks climb to their dominators. -/

namespace SsaOpt

open FlowGraph

namespace Links

variable {g : FlowGraph} {rank : BlockId → Nat} {links : Links}

theorem Linked.set {b c d : BlockId} (hb : b.index < links.size) (h : links.Linked c) :
    Linked (links.setIfInBounds b.index (some d)) c := by
  obtain ⟨e, he⟩ := h
  simp only [Linked, get_set hb]
  split
  · exact ⟨d, rfl⟩
  · exact ⟨e, he⟩

/-- A block is relinked to a block that its linked predecessors climb to and that its strict
dominators dominate. -/
theorem Sound.relink (h : Sound g rank links) (hr : Ranking g rank) (hg : g.Valid) {b p : BlockId}
    (hne : b ≠ .entry) (hp : g.Edge p b) (hl : links.Linked p) (hlt : rank p < rank b) :
    ∃ d, links.relink g rank b = .ok (links.setIfInBounds b.index (some d)) ∧
      Sound g rank (links.setIfInBounds b.index (some d)) ∧
      (∀ q, g.Edge q b → links.Linked q → links.Climbs q d) ∧
      ∀ x, Dominates g.Edge .entry x b → x ≠ b → Dominates g.Edge .entry x d := by
  have hb : b.index < links.size := by
    rw [h.size]
    exact hg.target_lt hp
  obtain ⟨d, hd, hld, hall, hdom⟩ := h.meet hr (hg.mem_preds.mpr hp) hl
  have hdom' : ∀ x, Dominates g.Edge .entry x b → x ≠ b → Dominates g.Edge .entry x d :=
    fun x hx hxb => hdom x fun q hq hlq =>
      hx.of_step hxb (h.reaches_of_linked hlq) (hg.mem_preds.mp hq)
  refine ⟨d, ?_, ?_, fun q hq hlq => hall q (hg.mem_preds.mpr hq) hlq, hdom'⟩
  · simp only [Links.relink, hd]
    rfl
  · have hget := get_set hb (d := d)
    refine ⟨by simpa using h.size, ?_, ?_, ?_, ?_, ?_⟩
    · rw [hget, if_neg (Ne.symm hne), h.entry]
    · intro c e hc
      rw [hget] at hc
      split at hc
      · subst c
        exact (h.reaches_of_linked hl).step hp
      · exact h.reaches hc
    · intro c e hc
      apply Linked.set hb
      rw [hget] at hc
      split at hc
      · obtain rfl := Option.some.inj hc
        exact hld
      · exact h.linked hc
    · intro c e hc hce
      rw [hget] at hc
      split at hc
      · subst c
        obtain rfl := Option.some.inj hc
        have := h.rank_le (hall p (hg.mem_preds.mpr hp) hl)
        omega
      · exact h.falls hc hce
    · intro x c e hc hx hxc
      rw [hget] at hc
      split at hc
      · subst c
        obtain rfl := Option.some.inj hc
        exact hdom' x hx hxc
      · exact h.dominated hc hx hxc

/-- What `c` climbs to stands on every path of at most `k` blocks to `c`. -/
def AccurateAt (g : FlowGraph) (k : Nat) (links : Links) (c : BlockId) : Prop :=
  ∀ a, links.Climbs c a → ∀ p, Path g.Edge .entry c p → p.length ≤ k → a ∈ p

/-- The table is right about all paths of at most `k` blocks. -/
structure Accurate (g : FlowGraph) (k : Nat) (links : Links) : Prop where
  linked : ∀ {c : BlockId} {p : List BlockId}, Path g.Edge .entry c p → p.length ≤ k →
    links.Linked c
  accurateAt : ∀ {c : BlockId}, links.Linked c → AccurateAt g k links c

/-- What the new link of `b` climbs to stands on every path to `b` that is longer by one block. -/
theorem Accurate.mem_of_climbs {k : Nat} (h : Accurate g k links) {b d : BlockId}
    (hne : b ≠ .entry) (hall : ∀ q, g.Edge q b → links.Linked q → links.Climbs q d) {a : BlockId}
    (ha : links.Climbs d a) {p : List BlockId} (hp : Path g.Edge .entry b p)
    (hk : p.length ≤ k + 1) : a ∈ p := by
  rcases hp.last_step with ⟨he, -⟩ | ⟨q, t, ht, hq, rfl⟩
  · exact absurd he hne
  · have htk : t.length ≤ k := by simpa using hk
    have hlq := h.linked ht htk
    exact List.mem_append_left _ (h.accurateAt hlq a ((hall q hq hlq).trans ha) t ht htk)

theorem Accurate.relink_other {k m : Nat} (h : Accurate g k links) (hm : m ≤ k + 1)
    {b d : BlockId} (hb : b.index < links.size) (hne : b ≠ .entry)
    (hall : ∀ q, g.Edge q b → links.Linked q → links.Climbs q d) {c : BlockId}
    (hc : AccurateAt g m links c) :
    AccurateAt g m (links.setIfInBounds b.index (some d)) c := by
  intro a ha p hp hk
  rcases ha.of_set hb with ha | ⟨hcb, hda⟩
  · exact hc a ha p hp hk
  · -- the way to `c` passes through `b`, and the way to `b` through `a`
    obtain ⟨x, y, rfl, hx⟩ := hp.prefix_of_mem (hc b hcb p hp hk)
    have hlen : (x ++ [b]).length ≤ k + 1 := by
      simp only [List.length_append, List.length_cons, List.length_nil] at hk ⊢
      omega
    have hmem := h.mem_of_climbs hne hall hda hx hlen
    simp only [List.mem_append, List.mem_cons, List.not_mem_nil, or_false] at hmem ⊢
    exact hmem.imp id .inl

theorem Accurate.relink_self {k : Nat} (h : Accurate g k links) {b d : BlockId}
    (hb : b.index < links.size) (hne : b ≠ .entry)
    (hall : ∀ q, g.Edge q b → links.Linked q → links.Climbs q d) :
    AccurateAt g (k + 1) (links.setIfInBounds b.index (some d)) b := by
  intro a ha p hp hk
  rcases ha.cases_head with rfl | ⟨e, he, hea⟩
  · exact hp.last_mem
  · rw [get_set hb, if_pos rfl] at he
    obtain rfl := Option.some.inj he
    have hda : links.Climbs d a := (Climbs.of_set hb hea).elim id And.right
    exact h.mem_of_climbs hne hall hda hp hk

/-- Relinking a block keeps what the table is right about, and makes it right about longer paths to
that block. -/
theorem Accurate.relink {k : Nat} (h : Accurate g k links) {b d : BlockId}
    (hb : b.index < links.size) (hne : b ≠ .entry)
    (hall : ∀ q, g.Edge q b → links.Linked q → links.Climbs q d) :
    Accurate g k (links.setIfInBounds b.index (some d)) := by
  refine ⟨fun hp hk => (h.linked hp hk).set hb, fun {c} hc => ?_⟩
  by_cases hcb : c = b
  · subst hcb
    intro a ha p hp hk
    exact h.relink_self hb hne hall a ha p hp (Nat.le_succ_of_le hk)
  · refine h.relink_other (Nat.le_succ k) hb hne hall (h.accurateAt ?_)
    obtain ⟨e, he⟩ := hc
    rw [get_set hb, if_neg hcb] at he
    exact ⟨e, he⟩

/-- The table in the middle of a pass that has come past the blocks of `pre`. -/
structure Passing (g : FlowGraph) (rank : BlockId → Nat) (k : Nat) (pre : List BlockId)
    (links : Links) : Prop where
  sound : Sound g rank links
  accurate : Accurate g k links
  linked : ∀ c ∈ pre, links.Linked c
  ahead : ∀ c ∈ pre, AccurateAt g (k + 1) links c

theorem Passing.relink {k : Nat} {pre : List BlockId} {b p : BlockId}
    (h : Passing g rank k pre links) (hr : Ranking g rank) (hg : g.Valid) (hne : b ≠ .entry)
    (hp : p ∈ pre) (hpb : g.Edge p b) (hlt : rank p < rank b) :
    ∃ next, links.relink g rank b = .ok next ∧ Passing g rank k (pre ++ [b]) next := by
  obtain ⟨d, hd, hs, hall, -⟩ := h.sound.relink hr hg hne hpb (h.linked p hp) hlt
  have hb : b.index < links.size := by
    rw [h.sound.size]
    exact hg.target_lt hpb
  refine ⟨_, hd, hs, h.accurate.relink hb hne hall, fun c hc => ?_, fun c hc => ?_⟩
  · rcases List.mem_append.mp hc with hc | hc
    · exact (h.linked c hc).set hb
    · obtain rfl := List.mem_singleton.mp hc
      exact ⟨d, by rw [get_set hb, if_pos rfl]⟩
  · rcases List.mem_append.mp hc with hc | hc
    · exact h.accurate.relink_other (Nat.le_refl _) hb hne hall (h.ahead c hc)
    · obtain rfl := List.mem_singleton.mp hc
      exact h.accurate.relink_self hb hne hall

theorem Passing.foldlM {order : List BlockId} (ho : g.Postordered order)
    (hrank : ∀ b ∈ order, rank b = order.idxOf b) (hr : Ranking g rank) (hg : g.Valid) {k : Nat}
    (post : List BlockId) : ∀ (pre : List BlockId) (links : Links), order = pre ++ post →
      .entry ∈ pre → Passing g rank k pre links →
      ∃ next, post.foldlM (Links.relink g rank) links = .ok next ∧
        Passing g rank k order next := by
  induction post with
  | nil =>
    intro pre links he _ h
    rw [List.append_nil] at he
    exact ⟨links, rfl, he ▸ h⟩
  | cons b post ih =>
    intro pre links he hentry h
    have hnd := ho.nodup
    rw [he] at hnd
    have hbpre : b ∉ pre := fun hb => (List.nodup_append'.mp hnd).2.2 hb List.mem_cons_self
    have hne : b ≠ .entry := fun hb => hbpre (hb ▸ hentry)
    obtain ⟨p, hp, hpb⟩ := (ho.parentsFirst pre b post he).resolve_left hne
    have hlt : rank p < rank b := by
      rw [hrank p (by simp [he, hp]), hrank b (by simp [he]), he,
        List.idxOf_append_of_mem hp, List.idxOf_append_of_notMem hbpre]
      have := List.idxOf_lt_length_of_mem hp
      omega
    obtain ⟨next, hn, h'⟩ := h.relink hr hg hne hp hpb hlt
    obtain ⟨last, hl, h''⟩ := ih (pre ++ [b]) next (by simp [he]) (by simp [hentry]) h'
    refine ⟨last, ?_, h''⟩
    rw [List.foldlM_cons, hn]
    exact hl

/-- A pass makes the table right about longer paths. -/
theorem Accurate.pass {entry : BlockId} {rest : List BlockId}
    (ho : g.Postordered (entry :: rest))
    (hrank : ∀ b ∈ entry :: rest, rank b = (entry :: rest).idxOf b) (hr : Ranking g rank)
    (hg : g.Valid) {k : Nat} (h : Accurate g k links) (hs : Sound g rank links) :
    ∃ next, links.pass g rank rest = .ok next ∧ Sound g rank next ∧ Accurate g (k + 1) next := by
  obtain ⟨_, he⟩ := ho.exists_eq_cons
  obtain rfl : entry = .entry := (List.cons.inj he).1
  have hpassing : Passing g rank k [.entry] links := by
    refine ⟨hs, h, fun c hc => ?_, fun c hc => ?_⟩
    · obtain rfl := List.mem_singleton.mp hc
      exact ⟨_, hs.entry⟩
    · obtain rfl := List.mem_singleton.mp hc
      intro a ha p hp _
      rw [hs.eq_entry_of_climbs ha]
      exact hp.first_mem
  obtain ⟨next, hn, h'⟩ :=
    Passing.foldlM ho hrank hr hg rest [.entry] links rfl (List.mem_singleton_self _) hpassing
  refine ⟨next, hn, h'.sound, fun hp _ => h'.linked _ ((ho.mem_iff _).mpr hp.reaches), ?_⟩
  intro c hc
  exact h'.ahead c ((ho.mem_iff c).mpr (h'.sound.reaches_of_linked hc))

/-- The table in which every reachable block climbs to its dominators. -/
structure Exact (g : FlowGraph) (rank : BlockId → Nat) (links : Links) : Prop where
  ranking : Ranking g rank
  sound : Sound g rank links
  linked : ∀ {c : BlockId}, Reaches g.Edge .entry c → links.Linked c
  dominates : ∀ {a c : BlockId}, links.Linked c → links.Climbs c a →
    Dominates g.Edge .entry a c

theorem Accurate.exact {k : Nat} (h : Accurate g k links) (hs : Sound g rank links)
    (hr : Ranking g rank) (hg : g.Valid) (h₀ : 0 < g.size) (hk : g.size ≤ k) :
    Exact g rank links := by
  have hshort : ∀ {c p}, Path g.Edge .entry c p →
      ∃ q, Path g.Edge .entry c q ∧ q.length ≤ k ∧ q ⊆ p := by
    intro c p hp
    obtain ⟨q, hq, hnd, hsub⟩ := hp.exists_nodup
    refine ⟨q, hq, Nat.le_trans (BlockId.length_le_of_nodup hnd fun b hb => ?_) hk, hsub⟩
    obtain ⟨x, _, _, hx⟩ := hq.prefix_of_mem hb
    exact hg.lt_of_reaches h₀ hx.reaches
  refine ⟨hr, hs, ?_, fun {a c} hc hca => ⟨hs.reaches_of_linked hc, fun p hp => ?_⟩⟩
  · rintro c ⟨p, hp⟩
    obtain ⟨q, hq, hlen, -⟩ := hshort hp
    exact h.linked hq hlen
  · obtain ⟨q, hq, hlen, hsub⟩ := hshort hp
    exact hsub (h.accurateAt hc a hca q hq hlen)

theorem Exact.climbs_iff (h : Exact g rank links) {a c : BlockId} (hc : links.Linked c) :
    links.Climbs c a ↔ Dominates g.Edge .entry a c :=
  ⟨h.dominates hc, h.sound.climbs_of_dominates hc⟩

theorem Exact.linked_iff (h : Exact g rank links) {c : BlockId} :
    links.Linked c ↔ Reaches g.Edge .entry c :=
  ⟨h.sound.reaches_of_linked, h.linked⟩

/-- A block that climbs to its dominators is relinked to the block that it is linked to. -/
theorem Exact.relink (h : Exact g rank links) (hg : g.Valid) {b p : BlockId}
    (hne : b ≠ .entry) (hp : g.Edge p b) (hl : links.Linked p) (hlt : rank p < rank b) :
    links.relink g rank b = .ok links := by
  obtain ⟨d, hd, hs, hall, hdom⟩ := h.sound.relink h.ranking hg hne hp hl hlt
  have hb : b.index < links.size := by
    rw [h.sound.size]
    exact hg.target_lt hp
  have hrb : Reaches g.Edge .entry b := (h.sound.reaches_of_linked hl).step hp
  obtain ⟨e, he⟩ := h.linked hrb
  have hfd : rank d < rank b := hs.falls (by rw [get_set hb, if_pos rfl]) hne
  have hfe : rank e < rank b := h.sound.falls he hne
  have hdb : Dominates g.Edge .entry d b := by
    refine .of_forall_step hrb hne fun c hc hcb => ?_
    exact h.dominates (h.linked hc) (hall c hcb (h.linked hc))
  have heb : Dominates g.Edge .entry e b := h.dominates ⟨e, he⟩ (.head he .refl)
  have hed : e = d := by
    refine Dominates.antisymm (hdom e heb ?_) (h.sound.dominated he hdb ?_)
    · rintro rfl
      omega
    · rintro rfl
      omega
  rw [hd, ← hed]
  refine congrArg _ (Array.ext_getElem? fun i => ?_)
  have hrow : links[b.index]? = some (some e) := by
    have := he
    simp only [Links.get, Array.getD_eq_getD_getElem?] at this
    cases hx : links[b.index]? <;> simp_all
  rw [Array.getElem?_setIfInBounds]
  split
  · subst i
    exact hrow.symm
  · rfl

theorem Exact.pass {entry : BlockId} {rest : List BlockId} (ho : g.Postordered (entry :: rest))
    (hrank : ∀ b ∈ entry :: rest, rank b = (entry :: rest).idxOf b) (hg : g.Valid)
    (h : Exact g rank links) : links.pass g rank rest = .ok links := by
  obtain ⟨_, he⟩ := ho.exists_eq_cons
  obtain rfl : entry = .entry := (List.cons.inj he).1
  have hstep : ∀ b ∈ rest, links.relink g rank b = .ok links := by
    intro b hb
    have hbo : b ∈ BlockId.entry :: rest := List.mem_cons_of_mem _ hb
    have hne : b ≠ .entry := by
      rintro rfl
      exact (List.nodup_cons.mp ho.nodup).1 hb
    obtain ⟨p, hp, hpb, hlt⟩ := ho.exists_parent hbo hne
    rw [← hrank p hp, ← hrank b hbo] at hlt
    exact h.relink hg hne hpb (h.linked ((ho.mem_iff p).mp hp)) hlt
  simp only [Links.pass]
  clear ho hrank he
  induction rest with
  | nil => rfl
  | cons b rest ih =>
    rw [List.foldlM_cons, hstep b List.mem_cons_self]
    exact ih fun c hc => hstep c (List.mem_cons_of_mem _ hc)

/-- Passes settle: each that changes something makes the table right about longer paths, and a table
that is right about all paths without repetition is not changed. -/
theorem settle_exact {entry : BlockId} {rest : List BlockId} (ho : g.Postordered (entry :: rest))
    (hrank : ∀ b ∈ entry :: rest, rank b = (entry :: rest).idxOf b) (hr : Ranking g rank)
    (hg : g.Valid) (h₀ : 0 < g.size) (fuel : Nat) :
    ∀ (k : Nat) (links : Links), Sound g rank links → Accurate g k links →
      g.size < fuel + 1 + k →
      ∃ final, settle g rank rest (fuel + 1) links = .ok final ∧ Exact g rank final := by
  induction fuel with
  | zero =>
    intro k links hs ha hk
    have hexact := ha.exact hs hr hg h₀ (by omega)
    refine ⟨links, ?_, hexact⟩
    rw [settle, hexact.pass ho hrank hg]
    exact if_pos rfl
  | succ fuel ih =>
    intro k links hs ha hk
    obtain ⟨next, hn, hs', ha'⟩ := ha.pass ho hrank hr hg hs
    by_cases heq : next = links
    · subst heq
      refine ⟨next, ?_, ?_⟩
      · rw [settle, hn]
        exact if_pos rfl
      · have hall : ∀ j, Accurate g (k + j) next := by
          intro j
          induction j with
          | zero => exact ha
          | succ j ihj =>
            obtain ⟨next', hn', -, ha''⟩ := ihj.pass ho hrank hr hg hs
            obtain rfl : next = next' := Except.ok.inj (hn.symm.trans hn')
            exact ha''
        exact (hall g.size).exact hs hr hg h₀ (Nat.le_add_left _ _)
    · obtain ⟨final, hf, hexact⟩ := ih (k + 1) next hs' ha' (by omega)
      refine ⟨final, ?_, hexact⟩
      rw [settle, hn]
      exact (if_neg heq).trans hf

theorem ranks_getD {n : Nat} {order : List BlockId} {b : BlockId} (hb : b.index < n) :
    (ranks n order).getD b.index 0 = order.idxOf b :=
  BlockId.getD_tabulate hb _ _

theorem ranking {order : List BlockId} (ho : g.Postordered order) (hg : g.Valid)
    (h₀ : 0 < g.size) (hrank : ∀ b ∈ order, rank b = order.idxOf b) : Ranking g rank := by
  obtain ⟨rest, he⟩ := ho.exists_eq_cons
  refine ⟨?_, fun {b} hb => ?_, fun {a b} ha hb hab => ?_, fun {a b} hab hne => ?_⟩
  · rw [hrank _ ((ho.mem_iff _).mpr .refl), he]
    exact List.idxOf_cons_self
  · have hlen := BlockId.length_le_of_nodup ho.nodup fun c hc =>
      hg.lt_of_reaches h₀ ((ho.mem_iff c).mp hc)
    rw [hrank b ((ho.mem_iff b).mpr hb)]
    exact Nat.lt_of_lt_of_le (List.idxOf_lt_length_of_mem ((ho.mem_iff b).mpr hb)) hlen
  · rw [← ho.mem_iff] at ha hb
    rw [hrank a ha, hrank b hb] at hab
    exact (List.idxOf_inj ha).mp hab
  · rw [hrank a ((ho.mem_iff a).mpr hab.reaches_left), hrank b ((ho.mem_iff b).mpr hab.1)]
    exact ho.idxOf_lt_of_dominates hab hne

theorem start_get {n : Nat} (h₀ : 0 < n) (c : BlockId) :
    Links.get ((Array.replicate n none).setIfInBounds BlockId.entry.index (some .entry)) c =
      if c = .entry then some .entry else none := by
  rw [get_set (by simpa [BlockId.entry] using h₀)]
  split
  · rfl
  · simp only [Links.get, Array.getD_eq_getD_getElem?, Array.getElem?_replicate]
    split <;> rfl

/-- The iteration ends within its bound, and every reachable block then climbs to its
dominators. -/
theorem compute_exact (hg : g.Valid) (h₀ : 0 < g.size) :
    ∃ rank links, Links.compute g g.reversePostorder = .ok links ∧ Exact g rank links := by
  have ho := hg.postordered h₀
  obtain ⟨rest, he⟩ := ho.exists_eq_cons
  rw [he] at ho ⊢
  let rank : BlockId → Nat := fun b => (ranks g.size (.entry :: rest)).getD b.index 0
  have hrank : ∀ b ∈ BlockId.entry :: rest, rank b = (BlockId.entry :: rest).idxOf b :=
    fun b hb => ranks_getD (hg.lt_of_reaches h₀ ((ho.mem_iff b).mp hb))
  have hget := start_get h₀
  have hs : Sound g rank
      ((Array.replicate g.size none).setIfInBounds BlockId.entry.index (some .entry)) := by
    refine ⟨by simp, by rw [hget, if_pos rfl], ?_, ?_, ?_, ?_⟩
    · intro b d hb
      rw [hget] at hb
      split at hb
      · subst b
        exact .refl
      · cases hb
    · intro b d hb
      rw [hget] at hb
      split at hb
      · obtain rfl := Option.some.inj hb
        exact ⟨_, by rw [hget, if_pos rfl]⟩
      · cases hb
    · intro b d hb hne
      rw [hget, if_neg hne] at hb
      cases hb
    · intro a b d hb hab hne
      rw [hget] at hb
      split at hb
      · obtain rfl := Option.some.inj hb
        subst b
        exact hab
      · cases hb
  have ha : Accurate g 1
      ((Array.replicate g.size none).setIfInBounds BlockId.entry.index (some .entry)) := by
    refine ⟨fun {c p} hp hk => ?_, fun {c} hc a hca p hp _ => ?_⟩
    · rcases hp.last_step with ⟨rfl, -⟩ | ⟨q, t, ht, -, rfl⟩
      · exact ⟨_, by rw [hget, if_pos rfl]⟩
      · have := List.length_pos_of_mem ht.last_mem
        simp only [List.length_append, List.length_cons, List.length_nil] at hk
        omega
    · obtain ⟨d, hd⟩ := hc
      rw [hget] at hd
      split at hd
      · subst c
        rw [hs.eq_entry_of_climbs hca]
        exact hp.first_mem
      · cases hd
  have hbound := Nat.le_mul_self g.size
  obtain ⟨final, hf, hexact⟩ := settle_exact ho hrank (ranking ho hg h₀ hrank) hg h₀
    (g.size * g.size) 1 _ hs ha (by omega)
  exact ⟨rank, final, hf, hexact⟩

end Links

end SsaOpt
