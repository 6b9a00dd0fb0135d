import Mathlib.Order.WellFoundedSet
import SsaOpt.Proofs.Motion

/-! Floating instructions that read each other in a circle. There are none where control can come
to; elsewhere nothing rules them out, and no edit makes or breaks one there. Floating instructions
can be put in order exactly if there is no circle. -/

namespace SsaOpt

open Relation

namespace Func

variable {f g : Func} {i d : InstId} {b : BlockId} {pre post : List InstId}

/-- The instruction stands in a block and may be moved. -/
def Floating (f : Func) (i : InstId) : Prop :=
  i ∈ f.placed ∧ (f.op? i).any Motion.floats

/-- Of two floating instructions, `i` reads `d`. -/
structure Feeds (f : Func) (d i : InstId) : Prop where
  source : f.Floating d
  target : f.Floating i
  reads : d ∈ f.reads i

/-- No floating instruction needs itself. -/
def Acyclic (f : Func) : Prop := ∀ i, ¬TransGen f.Feeds i i

/-- The instruction stands in a block that control never comes to. -/
def Stranded (f : Func) (i : InstId) : Prop := ∃ b, i ∈ f.listOf b ∧ ¬f.Reached b

theorem Floating.floats {op : Opcode} (h : f.Floating i) (hop : f.op? i = some op) :
    Motion.floats op := by
  simpa [hop] using h.2

theorem Floating.not_isPhi (h : f.Floating i) : ¬f.isPhi i :=
  not_isPhi_of_pure fun hop => Motion.isPure_of_floats (h.floats hop)

/-- There is no circle if floating instructions read only what was created before them. -/
theorem acyclic_of_lt (h : ∀ i ∈ f.placed, (f.op? i).any Motion.floats →
    ∀ d ∈ f.reads i, d.index < i.index) : f.Acyclic := by
  have hlt : ∀ {d i}, TransGen f.Feeds d i → d.index < i.index := by
    intro d i hfeeds
    induction hfeeds with
    | single hd => exact h _ hd.target.1 hd.target.2 _ hd.reads
    | tail _ hd ih => exact ih.trans (h _ hd.target.1 hd.target.2 _ hd.reads)
  exact fun i hi => Nat.lt_irrefl _ (hlt hi)

/-- What an instruction needs is available where it stands. -/
theorem Valid.avail_of_feeds (hf : f.Valid) (hb : f.Reached b)
    (hsplit : f.listOf b = pre ++ i :: post) (h : TransGen f.Feeds d i) :
    f.Avail b pre d := by
  induction h using TransGen.head_induction_on with
  | single h => exact hf.reads hb hsplit h.target.not_isPhi h.reads
  | head h _ ih => exact hf.avail_operand hb hsplit ih h.target.not_isPhi h.reads

/-- Every circle is stranded. -/
theorem Valid.stranded_of_circle (hf : f.Valid) (h : TransGen f.Feeds i i) : f.Stranded i := by
  have hplaced : i ∈ f.placed := by
    obtain ⟨c, -, h⟩ := TransGen.tail'_iff.mp h
    exact h.target.1
  obtain ⟨b, hi⟩ := mem_placed_iff.mp hplaced
  refine ⟨b, hi, fun hb => ?_⟩
  obtain ⟨pre, post, hsplit⟩ := List.append_of_mem hi
  exact hf.not_avail_next hsplit (hf.avail_of_feeds hb hsplit h)

theorem Valid.stranded_of_feeds (hf : f.Valid) (h : f.Feeds d i) (hd : f.Stranded d) :
    f.Stranded i := by
  obtain ⟨b, hdb, hb⟩ := hd
  obtain ⟨c, hi⟩ := mem_placed_iff.mp h.target.1
  refine ⟨c, hi, fun hc => hb ?_⟩
  exact (Motion.dom_of_reads hf.housed hdb hi hc h.target.not_isPhi h.reads).reaches_left

/-! ## Edits -/

/-- A chain stays a chain under another relation, if the relations agree from where it starts and
it never leaves there. -/
theorem transGen_within {α : Type} {r s : α → α → Prop} {P : α → Prop} {x y : α}
    (hstep : ∀ {x y}, P x → r x y → s x y ∧ P y) (hx : P x) (h : TransGen r x y) :
    TransGen s x y ∧ P y := by
  induction h with
  | single h => exact ⟨.single (hstep hx h).1, (hstep hx h).2⟩
  | tail _ h ih => exact ⟨ih.1.tail (hstep ih.2 h).1, (hstep ih.2 h).2⟩

/-- Deletions change what reachable instructions read, so no circle comes or goes. -/
theorem Redundant.acyclic_iff {x e : InstId} (hf : f.Valid) (hr : Redundant f x e b pre post)
    (h : Replaced f x e g) : g.Acyclic ↔ f.Acyclic := by
  have hg := hr.valid hf h
  have hag := hr.agreeOff hf h
  have hfloats : ∀ {i}, g.Floating i ↔ i ≠ x ∧ f.Floating i := by
    intro i
    simp only [Floating, mem_placed_iff, h.lists, hag.op, List.mem_filter, decide_eq_true_eq]
    tauto
  -- neither of the two instructions is stranded
  have hne : ∀ {i}, f.Stranded i → i ≠ x ∧ i ≠ e := by
    intro i ⟨c, hi, hc⟩
    obtain ⟨home, he, hdom⟩ := hr.exists_home
    refine ⟨fun hix => hc ?_, fun hie => hc ?_⟩
    · exact hf.consistent.home_unique hr.mem (hix ▸ hi) ▸ hr.reached
    · exact hf.consistent.home_unique he (hie ▸ hi) ▸ hdom.reaches_left
  have hfeeds : ∀ {d i}, f.Stranded d → (g.Feeds d i ↔ f.Feeds d i) := by
    intro d i hd
    constructor
    · intro hgf
      obtain ⟨hix, hi⟩ := hfloats.mp hgf.target
      refine ⟨(hfloats.mp hgf.source).2, hi, ?_⟩
      exact (((h.mem_reads_iff hix).mp hgf.reads).resolve_left fun he => (hne hd).2 he.2).2
    · intro hff
      have hix := (hne (hf.stranded_of_feeds hff hd)).1
      refine ⟨hfloats.mpr ⟨(hne hd).1, hff.source⟩, hfloats.mpr ⟨hix, hff.target⟩, ?_⟩
      exact (h.mem_reads_iff hix).mpr (.inr ⟨(hne hd).1, hff.reads⟩)
  constructor
  · intro hacyclic i hcircle
    refine hacyclic i (transGen_within (P := f.Stranded) (fun hd hff => ?_)
      (hf.stranded_of_circle hcircle) hcircle).1
    exact ⟨(hfeeds hd).mpr hff, hf.stranded_of_feeds hff hd⟩
  · intro hacyclic i hcircle
    have hi : f.Stranded i := by
      obtain ⟨c, hic, hc⟩ := hg.stranded_of_circle hcircle
      rw [h.lists] at hic
      exact ⟨c, (List.mem_filter.mp hic).1, hag.reached_eq ▸ hc⟩
    refine hacyclic i (transGen_within (P := f.Stranded) (fun hd hgf => ?_) hi hcircle).1
    exact ⟨(hfeeds hd).mp hgf, hf.stranded_of_feeds ((hfeeds hd).mp hgf) hd⟩

theorem Amends.acyclic_iff (h : Amends f g) (hf : f.Valid) : g.Acyclic ↔ f.Acyclic := by
  cases h with
  | delete hr _ hg => exact hr.acyclic_iff hf hg
  | @move x _ _ _ _ hl hg =>
    have hag := hl.agreeOff hf hg
    have hfloats : g.Floating = f.Floating := by
      funext i
      simp only [Floating, mem_placed_iff, hag.op, eq_iff_iff]
      by_cases hix : i = x
      · simp only [hix, hg.mem_list_self, exists_eq', true_and]
        exact (and_iff_right ⟨_, hl.mem_source⟩).symm
      · simp only [hag.mem_list_iff hix]
    have hfeeds : g.Feeds = f.Feeds := by
      funext d i
      rw [eq_iff_iff]
      constructor
      · exact fun h => ⟨hfloats ▸ h.source, hfloats ▸ h.target, hg.reads_eq i ▸ h.reads⟩
      · exact fun h => ⟨hfloats ▸ h.source, hfloats ▸ h.target, hg.reads_eq i ▸ h.reads⟩
    rw [Acyclic, Acyclic, hfeeds]

theorem Amended.acyclic_iff (h : Amended f g) (hf : f.Orderly) : g.Acyclic ↔ f.Acyclic := by
  induction h with
  | refl => exact .rfl
  | tail hchain hstep ih =>
    exact (hstep.acyclic_iff (Amended.orderly hchain hf).valid).trans ih

end Func

/-! ## The order -/

namespace Motion

open Func

variable {f : Func} {table : List (InstId × List InstId)} {queue taken is : List InstId}
  {i : InstId}

/-- What is queued or taken is what reads only instructions taken; each was taken after all that it
reads. -/
structure Draining (table : List (InstId × List InstId)) (queue taken : List InstId) : Prop where
  known : ∀ k ∈ queue ++ taken, k ∈ table.map Prod.fst
  nodup : (queue ++ taken).Nodup
  mem_iff : ∀ {k reads}, (k, reads) ∈ table → (k ∈ queue ++ taken ↔ ∀ d ∈ reads, d ∈ taken)
  sorted : ∀ {pre k post reads}, taken = pre ++ k :: post → (k, reads) ∈ table →
    ∀ d ∈ reads, d ∈ post

/-- A table with one entry for each key is filtered by its entries. -/
theorem mem_map_fst_filter {q : InstId × List InstId → Bool} {k : InstId} {reads : List InstId}
    (hkeys : (table.map Prod.fst).Nodup) (hk : (k, reads) ∈ table) :
    k ∈ (table.filter q).map Prod.fst ↔ q (k, reads) := by
  constructor
  · intro hmem
    obtain ⟨e, he, rfl⟩ := List.mem_map.mp hmem
    obtain ⟨he, hq⟩ := List.mem_filter.mp he
    rwa [← List.inj_on_of_nodup_map hkeys he hk rfl]
  · exact fun hq => List.mem_map.mpr ⟨(k, reads), List.mem_filter.mpr ⟨hk, hq⟩, rfl⟩

theorem Draining.start (hkeys : (table.map Prod.fst).Nodup) :
    Draining table ((table.filter fun (_, reads) => reads.isEmpty).map Prod.fst) [] := by
  have hsub := (table.filter_sublist (p := fun (_, reads) => reads.isEmpty)).map Prod.fst
  refine ⟨fun k hk => hsub.subset (by simpa using hk), by simpa using hkeys.sublist hsub, ?_, ?_⟩
  · intro k reads hk
    rw [List.append_nil, mem_map_fst_filter hkeys hk, List.isEmpty_iff]
    simp only [List.not_mem_nil, imp_false]
    exact List.eq_nil_iff_forall_not_mem
  · intro pre k post reads heq
    simp at heq

/-- Taking an instruction queues those that waited for it last. -/
theorem Draining.step (hkeys : (table.map Prod.fst).Nodup)
    (h : Draining table (i :: queue) taken) :
    Draining table (queue ++ (table.filter fun (_, reads) =>
      i ∈ reads && reads.all (· ∈ i :: taken)).map Prod.fst) (i :: taken) := by
  generalize hready : (table.filter fun (_, reads) =>
    i ∈ reads && reads.all (· ∈ i :: taken)).map Prod.fst = ready
  have hsub : ready.Sublist (table.map Prod.fst) := hready ▸ List.filter_sublist.map Prod.fst
  have hmem : ∀ {k reads}, (k, reads) ∈ table →
      (k ∈ ready ↔ i ∈ reads ∧ ∀ d ∈ reads, d ∈ i :: taken) := by
    intro k reads hk
    rw [← hready, mem_map_fst_filter hkeys hk]
    simp only [Bool.and_eq_true, decide_eq_true_eq, List.all_eq_true]
  have hperm : ((queue ++ ready) ++ i :: taken).Perm ((i :: queue ++ taken) ++ ready) :=
    List.perm_iff_count.mpr fun k => by
      simp only [List.count_append, List.count_cons]
      omega
  have hfresh : i ∉ taken := by
    have hnodup := h.nodup
    simp only [List.cons_append, List.nodup_cons, List.mem_append, not_or] at hnodup
    exact hnodup.1.2
  refine ⟨fun k hk => ?_, ?_, fun {k reads} hk => ?_, fun {pre k post reads} heq hk => ?_⟩
  · rcases List.mem_append.mp (hperm.mem_iff.mp hk) with hk | hk
    · exact h.known k hk
    · exact hsub.subset hk
  · rw [hperm.nodup_iff, List.nodup_append]
    refine ⟨h.nodup, hkeys.sublist hsub, fun k hk k' hk' heq => ?_⟩
    subst heq
    -- what waits for `i` cannot have been queued before `i` was taken
    obtain ⟨⟨k, reads⟩, htable, rfl⟩ := List.mem_map.mp (h.known k hk)
    exact hfresh ((h.mem_iff htable).mp hk i ((hmem htable).mp hk').1)
  · rw [hperm.mem_iff, List.mem_append, hmem hk, h.mem_iff hk]
    constructor
    · rintro (hall | ⟨-, hall⟩)
      · exact fun d hd => List.mem_cons_of_mem _ (hall d hd)
      · exact hall
    · intro hall
      by_cases hi : i ∈ reads
      · exact .inr ⟨hi, hall⟩
      · exact .inl fun d hd => (List.mem_cons.mp (hall d hd)).resolve_left fun hdi =>
          hi (hdi ▸ hd)
  · cases pre with
    | nil =>
      obtain ⟨rfl, rfl⟩ := List.cons.inj heq
      exact (h.mem_iff hk).mp (by simp)
    | cons j pre => exact h.sorted (List.cons.inj heq).2 hk

theorem Draining.length_le (h : Draining table queue taken) : taken.length ≤ table.length := by
  have hsub : taken ⊆ table.map Prod.fst := fun k hk => h.known k (List.mem_append_right _ hk)
  have := (List.subperm_of_subset (List.nodup_append.mp h.nodup).2.1 hsub).length_le
  rwa [List.length_map] at this

/-- The fuel is enough to empty the queue. -/
theorem drain_spec (hkeys : (table.map Prod.fst).Nodup) (fuel : Nat) :
    ∀ {queue taken : List InstId}, Draining table queue taken →
      fuel + taken.length = table.length + 1 →
      Draining table [] (drain table fuel queue taken) := by
  induction fuel with
  | zero =>
    intro queue taken h hfuel
    have := h.length_le
    omega
  | succ fuel ih =>
    intro queue taken h hfuel
    cases queue with
    | nil => exact h
    | cons i queue => exact ih (h.step hkeys) (by simp only [List.length_cons]; omega)

theorem mem_producers {k : InstId} {reads : List InstId} :
    (k, reads) ∈ producers f is ↔ k ∈ is ∧ reads = (f.reads k).filter (· ∈ is) := by
  simp only [producers, List.mem_map, Prod.mk.injEq]
  constructor
  · rintro ⟨k, hk, rfl, rfl⟩
    exact ⟨hk, rfl⟩
  · rintro ⟨hk, rfl⟩
    exact ⟨k, hk, rfl, rfl⟩

theorem Draining.subset {order : List InstId} (h : Draining (producers f is) [] order) :
    order ⊆ is := by
  intro k hk
  obtain ⟨⟨k, reads⟩, htable, rfl⟩ := List.mem_map.mp (h.known k hk)
  exact (mem_producers.mp htable).1

theorem Draining.perm {order : List InstId} (h : Draining (producers f is) [] order)
    (hlen : order.length = is.length) : order.Perm is :=
  (List.subperm_of_subset h.nodup h.subset).perm_of_length_le hlen.ge

/-- What is taken comes after all its readers. -/
theorem Draining.mem_of_feeds {order pre post : List InstId} {d k : InstId}
    (his : ∀ {i}, i ∈ is ↔ f.Floating i) (h : Draining (producers f is) [] order)
    (hsplit : order = pre ++ k :: post) (hd : f.Feeds d k) : d ∈ post := by
  refine h.sorted hsplit (mem_producers.mpr ⟨his.mpr hd.target, rfl⟩) d ?_
  exact List.mem_filter.mpr ⟨hd.reads, by simpa using his.mpr hd.source⟩

/-- All are taken exactly if there is no circle among them. -/
theorem Draining.length_eq_iff {order : List InstId} (hnodup : is.Nodup)
    (his : ∀ {i}, i ∈ is ↔ f.Floating i) (h : Draining (producers f is) [] order) :
    order.length = is.length ↔ f.Acyclic := by
  have horder : order.Nodup := h.nodup
  constructor
  · intro hlen i hcircle
    have hperm := h.perm hlen
    have hall : ∀ {k}, f.Floating k → k ∈ order := fun hk => hperm.mem_iff.mpr (his.mpr hk)
    obtain ⟨c, -, hlast⟩ := TransGen.tail'_iff.mp hcircle
    obtain ⟨pre, post, heq⟩ := List.append_of_mem (hall hlast.target)
    -- what `i` needs was taken before it
    have hbefore : ∀ {d}, TransGen f.Feeds d i → d ∈ post := by
      intro d hd
      induction hd using TransGen.head_induction_on with
      | single hd => exact h.mem_of_feeds his heq hd
      | @head d k hd _ hk =>
        obtain ⟨l₁, l₂, rfl⟩ := List.append_of_mem hk
        have hsplit : order = (pre ++ i :: l₁) ++ k :: l₂ := by simp [heq]
        simp [h.mem_of_feeds his hsplit hd]
    rw [heq] at horder
    exact (List.nodup_cons.mp (List.nodup_append.mp horder).2.1).1 (hbefore hcircle)
  · intro hacyclic
    have hstrict : IsStrictOrder InstId (TransGen f.Feeds) :=
      { irrefl := hacyclic, trans := fun _ _ _ => TransGen.trans }
    have hwf := (is.finite_toSet).wellFoundedOn (r := TransGen f.Feeds)
    have hall : ∀ k ∈ is, k ∈ order := by
      intro k hk
      refine hwf.induction (P := (· ∈ order)) hk fun k hk ih => ?_
      have hready := (h.mem_iff (mem_producers.mpr ⟨hk, rfl⟩)).mpr fun d hd => by
        obtain ⟨hread, hd⟩ := List.mem_filter.mp hd
        have hd : d ∈ is := of_decide_eq_true hd
        exact ih d hd (.single ⟨his.mp hd, his.mp hk, hread⟩)
      simpa using hready
    exact ((List.subperm_of_subset horder h.subset).antisymm
      (List.subperm_of_subset hnodup hall)).length_eq

/-- The order is what was taken when nothing is left to take. -/
theorem exists_drained (hnodup : is.Nodup) : ∃ order, Draining (producers f is) [] order ∧
    consumersFirst f is =
      if order.length = is.length then .ok order else .error .floatingCycle := by
  have hkeys : (producers f is).map Prod.fst = is := by simp [producers, Function.comp_def]
  exact ⟨_, drain_spec (hkeys.symm ▸ hnodup) (is.length + 1) (.start (hkeys.symm ▸ hnodup))
    (by simp [producers]), rfl⟩

/-- Floating instructions are put in order unless they read each other in a circle. -/
theorem consumersFirst_spec (hnodup : is.Nodup) (his : ∀ {i}, i ∈ is ↔ f.Floating i) :
    (f.Acyclic → ∃ order, consumersFirst f is = .ok order) ∧
      (¬f.Acyclic → consumersFirst f is = .error .floatingCycle) := by
  obtain ⟨order, hdrained, heq⟩ := exists_drained (f := f) hnodup
  have hlen := hdrained.length_eq_iff hnodup his
  rw [heq]
  constructor
  · intro hacyclic
    exact ⟨_, if_pos (hlen.mpr hacyclic)⟩
  · intro hcircle
    exact if_neg fun h => hcircle (hlen.mp h)

end Motion

end SsaOpt
