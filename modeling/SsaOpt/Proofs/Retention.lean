import SsaOpt.Proofs.Loads

/-! How long elimination of loads keeps an address in its table.

From a load on, the address stays in the table until something clears the table or stores to the
address, or the block of the load is left. What clears the table is a clobber, or a clobber beside
the way to a block. On the way down to a second load there is none, if no walk from the first load
to the second leads past one. -/

namespace SsaOpt

namespace Func

variable {f g g' : Func} {e x y d i : InstId} {b c c' : BlockId} {k : Address}
  {seen seen' pre post l₁ l₂ : List InstId} {q s : List BlockId}

/-! ## Walks from the first load to the second -/

/-- Some walk executes `e`, later something that may write to any address and later still comes to
`x`, and does not execute `e` again in between. -/
def ClobberedBetween (f : Func) (e x : InstId) : Prop :=
  ∃ u v q before middle after, Path f.Edge u v q ∧
    q.flatMap f.listOf = before ++ e :: (middle ++ x :: after) ∧ e ∉ middle ∧
    ∃ i ∈ middle, f.Clobbers i

/-- A walk to a block goes on to the blocks that it dominates without coming back to a strict
dominator of it. -/
theorem exists_path_on (hp : Path f.Edge c c' (c :: q)) (hq : c ∉ q) (hcc' : f.Dom c c')
    (hne : c ≠ c') (hdom : f.Dom c' b) :
    ∃ t, Path f.Edge c b (c :: (q ++ t)) ∧ c ∉ q ++ t ∧
      (c' = b ∧ t = [] ∨ ∃ t', t = t' ++ [b]) := by
  obtain ⟨t, ht, hct⟩ := hdom.exists_path
  refine ⟨t, hp.append ht, ?_, ?_⟩
  · rw [List.mem_append, not_or]
    exact ⟨hq, hcc'.not_mem_of_path hne hdom ht hct⟩
  · rcases ht.last_step with ⟨hbc, heq⟩ | ⟨v, p, hp, -, heq⟩
    · exact .inl ⟨hbc.symm, (List.cons.inj heq).2⟩
    · obtain ⟨p', rfl⟩ := hp.exists_eq_cons
      exact .inr ⟨p', (List.cons.inj heq).2⟩

section Clean

variable (hf : f.Consistent) (h : ¬f.ClobberedBetween e x) (hx : f.listOf b = pre ++ x :: post)
include hf h hx

/-- What a walk from the block of `e` to another block executes between `e` and `x`. -/
theorem clean_of_path (he : f.listOf c = l₁ ++ e :: l₂) (hne : c ≠ b)
    (hp : Path f.Edge c b (c :: (s ++ [b]))) (hc : c ∉ s) :
    ∀ j ∈ l₂ ++ s.flatMap f.listOf ++ pre, ¬f.Clobbers j := by
  intro j hj hclobber
  have hmem : e ∈ f.listOf c := by simp [he]
  have hnodup := hf.list_nodup c
  rw [he, List.nodup_middle, List.nodup_cons, List.mem_append, not_or] at hnodup
  refine h ⟨c, b, _, l₁, l₂ ++ s.flatMap f.listOf ++ pre, post, hp, ?_, ?_, j, hj, hclobber⟩
  · simp [he, hx]
  · simp only [List.mem_append, List.mem_flatMap, not_or]
    refine ⟨⟨hnodup.1.2, fun ⟨v, hv, hev⟩ => hc (hf.home_unique hmem hev ▸ hv)⟩, fun hpre => ?_⟩
    exact hne (hf.home_unique hmem (by simp [hx, hpre]))

/-- Nothing clobbers in a block that such a walk comes through. -/
theorem clean_on_path {v : BlockId} (he : e ∈ f.listOf c) (hne : c ≠ b)
    (hp : Path f.Edge c b (c :: (s ++ [b]))) (hc : c ∉ s) (hv : v ∈ s) :
    ∀ j ∈ f.listOf v, ¬f.Clobbers j := by
  intro j hj
  obtain ⟨l₁, l₂, he⟩ := List.append_of_mem he
  have hmem : j ∈ s.flatMap f.listOf := List.mem_flatMap.mpr ⟨v, hv, hj⟩
  exact clean_of_path hf h hx he hne hp hc j (by simp [hmem])

/-- Nothing clobbers after `e` in its block, nor before `x` in another block that it dominates. -/
theorem clean_ends (he : f.listOf c = l₁ ++ e :: l₂) (hdom : f.Dom c b) (hne : c ≠ b) :
    ∀ j ∈ l₂ ++ pre, ¬f.Clobbers j := by
  obtain ⟨t, ht, hct⟩ := hdom.exists_path
  rcases ht.last_step with ⟨hbc, -⟩ | ⟨v, p, hp, -, heq⟩
  · exact absurd hbc.symm hne
  · obtain ⟨s, rfl⟩ := hp.exists_eq_cons
    obtain rfl : t = s ++ [b] := (List.cons.inj heq).2
    rw [List.mem_append, not_or] at hct
    intro j hj
    refine clean_of_path hf h hx he hne ht hct.1 j ?_
    rcases List.mem_append.mp hj with hj | hj <;> simp [hj]

/-- Nothing clobbers between `e` and `x` in one block. -/
theorem clean_inside (he : pre = l₁ ++ e :: l₂) : ∀ j ∈ l₂, ¬f.Clobbers j := by
  intro j hj hclobber
  have hnodup := hf.list_nodup b
  rw [hx, he, List.append_assoc, List.cons_append, List.nodup_middle, List.nodup_cons] at hnodup
  refine h ⟨b, b, [b], l₁, l₂, post, .start, ?_, fun hmem => hnodup.1 (by simp [hmem]), j, hj,
    hclobber⟩
  simp [hx, he]

/-- Nothing clobbers in a block on the way down the dominator tree, or beside the way. -/
theorem clean_between {a : Analysis} {rank : BlockId → Nat} (hd : a.Describes f rank)
    (he : e ∈ f.listOf c) (hcc' : f.Dom c c') (hne : c ≠ c') (hdom : f.Dom c' b) :
    Loads.EnteredClean a f c' ∧ (c' ≠ b → ∀ j ∈ f.listOf c', ¬f.Clobbers j) := by
  have hcb : c ≠ b := by
    rintro rfl
    exact hne (hcc'.antisymm hdom)
  constructor
  · intro d s hidom hs hds v hv
    obtain ⟨hdc', hdne, hnearest⟩ := hd.idom?_spec hidom
    have hcd := hnearest c hcc' hne
    obtain ⟨q, hq, hcq⟩ := hcd.exists_path
    have hcs : c ∉ s ++ [c'] := by
      have hds' : d ∉ s ++ [c'] := by simp [hds, hdne]
      by_cases hcd' : c = d
      · rwa [hcd']
      · exact hcd.not_mem_of_path hcd' hdc' hs hds'
    have hq' : Path f.Edge c c' (c :: (q ++ (s ++ [c']))) := hq.append hs
    have hcq' : c ∉ q ++ (s ++ [c']) := by
      rw [List.mem_append, not_or]
      exact ⟨hcq, hcs⟩
    obtain ⟨t, ht, hct, ⟨rfl, rfl⟩ | ⟨t', rfl⟩⟩ := exists_path_on hq' hcq' hcc' hne hdom
    · simp only [List.mem_append, not_or] at hct
      exact clean_on_path hf h hx he hcb (s := q ++ s) (by simpa using ht) (by simp [hct])
        (by simp [hv])
    · rw [← List.append_assoc, List.mem_append, not_or] at hct
      exact clean_on_path hf h hx he hcb (by simpa using ht) hct.1 (by simp [hv])
  · intro hc'b
    obtain ⟨q, hq, hcq⟩ := hcc'.exists_path
    obtain ⟨t, ht, hct, hlast⟩ := exists_path_on hq hcq hcc' hne hdom
    obtain ⟨t', rfl⟩ := hlast.resolve_left fun heq => hc'b heq.1
    have hc'q : c' ∈ q := (List.mem_cons.mp hq.last_mem).resolve_left (Ne.symm hne)
    rw [← List.append_assoc, List.mem_append, not_or] at hct
    exact clean_on_path hf h hx he hcb (by simpa using ht) hct.1 (by simp [hc'q])

end Clean

/-! ## The loads of one address -/

/-- The load `x` repeats the load `e` from the known address `k`. All loads from the address are of
one type, nothing is stored to it, and no walk from `e` to `x` leads past a clobber. -/
structure Reload (f : Func) (e x : InstId) (k : Address) : Prop where
  first : ∃ d, f.LoadsFrom e d ∧ f.ComputesKnown d ∧ f.operandsOf d = k
  second : ∃ d, f.LoadsFrom x d ∧ f.ComputesKnown d ∧ f.operandsOf d = k
  type : ∀ {b i d}, i ∈ f.listOf b → f.LoadsFrom i d → f.operandsOf d = k →
    (f.bare? i).map Instruction.ty = (f.bare? x).map Instruction.ty
  unstored : ∀ {b i}, i ∈ f.listOf b → ¬f.StoresTo i k
  unclobbered : ¬f.ClobberedBetween e x

/-- The same of the address computations that were seen compute the address from these operands. -/
def KeyKept (f g : Func) (seen : List InstId) (k : Address) : Prop :=
  ∀ d ∈ seen, f.op? d = some .elementPtr → (g.operandsOf d = k ↔ f.operandsOf d = k)

/-- The address has an operand, which can only be its base, that is itself loaded from a computed
address. -/
def LoadedBase (f : Func) (k : Address) : Prop := ∃ i d, .inst i ∈ k ∧ f.LoadsFrom i d

theorem KeyKept.mono (h : KeyKept f g seen' k) (hseen : seen ⊆ seen') : KeyKept f g seen k :=
  fun d hd => h d (hseen hd)

theorem KeyKept.of_replaced {l : List InstId} (hpr : Pruned f g seen) (hx : x ∉ seen)
    (hg : Replaced g x e g') (hl : l ⊆ seen) (h : KeyKept f g' l k) : KeyKept f g l k := by
  intro d hd hop
  have hbare := hpr.bare_of_seen hx hg (hl hd) (not_isPhi_of_op? hop rfl)
  rw [← h d hd hop, operandsOf, operandsOf, hbare]

theorem eq_of_getElem? {l l' : List Operand} (hlength : l.length = l'.length)
    (hget : ∀ {n : Nat} {o}, o ∈ k → l[n]? = some o → l'[n]? = some o) (hk : l = k) : l' = k := by
  subst hk
  refine List.ext_getElem? fun n => ?_
  by_cases hn : n < l.length
  · rw [List.getElem?_eq_getElem hn]
    exact hget (List.getElem_mem hn) (List.getElem?_eq_getElem hn)
  · rw [List.getElem?_eq_none (by omega), List.getElem?_eq_none (by omega)]

section LoadedBase

variable {reuses : List (InstId × InstId)} {table : Bindings Address InstId} {z : Instruction}
  (h : Ledger f g seen reuses table) (hpr : Pruned f g seen)
include h hpr

/-- Address computations are not deleted. -/
theorem Ledger.exists_live (hf : f.Valid) (hd : d ∈ f.listOf b)
    (hop : f.op? d = some .elementPtr) : ∃ z, g.bare? d = some z ∧ z.erased = false := by
  obtain ⟨z, hz, -⟩ := Option.map_eq_some_iff.mp ((hpr.op d).trans hop)
  refine ⟨z, hz, ?_⟩
  by_contra herased
  obtain ⟨w, hw, hlive⟩ := hf.exists_live hd
  obtain ⟨e', he'⟩ := h.deleted hz (by simpa using herased) hw hlive
  obtain ⟨_, _, hload, -⟩ := (h.reuse he').address
  cases hload.load.symm.trans hop

/-- Loads stand for loads only. So an operand that is not loaded from a computed address is read
wherever it was read before. -/
theorem Ledger.slot_eq_iff {n : Nat} {o : Operand} (hz : g.bare? d = some z)
    (hlive : z.erased = false) (ho : ∀ i d', o = .inst i → ¬f.LoadsFrom i d') :
    g.slot ⟨d, n⟩ = some o ↔ f.slot ⟨d, n⟩ = some o := by
  constructor
  · intro hslot
    refine (h.slot_cases hpr hz hlive hslot).resolve_right fun hreused => ?_
    obtain ⟨y, e', hye, he'⟩ := hreused
    obtain ⟨_, d', -, hload, -⟩ := (h.reuse hye).address
    obtain ⟨w, hw, hwlive⟩ := (h.reuse hye).kept
    exact ho e' d' he' (h.loadsFrom hpr hw hwlive hload)
  · intro hslot
    refine h.slot_eq_of_kept hpr hz hlive hslot fun y e' hye hy => ?_
    obtain ⟨d', _, hload, -⟩ := (h.reuse hye).address
    exact ho y d' hy hload

/-- The deletion of loads leaves an address alone that is not itself computed from a loaded one. -/
theorem Ledger.keyKept (hf : f.Valid) (hbase : ¬f.LoadedBase k) {l : List InstId}
    (hl : ∀ d ∈ l, ∃ b, d ∈ f.listOf b) : KeyKept f g l k := by
  intro d hd hop
  obtain ⟨b, hb⟩ := hl d hd
  obtain ⟨z, hz, hlive⟩ := h.exists_live hpr hf hb hop
  obtain ⟨w, hw, -, -, hlen⟩ := hpr.shape hz
  have hslot : ∀ {n o}, o ∈ k → (g.slot ⟨d, n⟩ = some o ↔ f.slot ⟨d, n⟩ = some o) :=
    fun ho => h.slot_eq_iff hpr hz hlive fun i d' hi hload => hbase ⟨i, d', hi ▸ ho, hload⟩
  have hlength : (g.operandsOf d).length = (f.operandsOf d).length := by
    simp [operandsOf, hz, hw, (hlen hlive).2]
  exact ⟨eq_of_getElem? hlength fun ho => (hslot ho).mp,
    eq_of_getElem? hlength.symm fun ho => (hslot ho).mpr⟩

end LoadedBase

theorem Pruned.type_eq {z : Instruction} (hpr : Pruned f g seen) (hz : g.bare? i = some z) :
    (g.bare? i).map Instruction.ty = (f.bare? i).map Instruction.ty := by
  obtain ⟨w, hw, -, hty, -⟩ := hpr.shape hz
  rw [hz, hw, Option.map_some, Option.map_some, hty]

end Func

namespace Loads

open Func

variable {f g : Func} {a : Analysis} {rank : BlockId → Nat} {s s' s₀ : State} {x y e : InstId}
  {b c source target : BlockId} {done path clobbers : List BlockId} {pre rest seen : List InstId}
  {k : Address} {frames : List (List Address)} {eligible : List Address} {m : MemoryEffect}
  {n : Nat} {entry : Prop}

/-- The table has the address, and none of the `n` innermost blocks added it. -/
def Keeps (k : Address) (n : Nat) (s : State) : Prop :=
  (s.available.table.find? k).isSome ∧ ∀ frame ∈ s.available.frames.take n, k ∉ frame

theorem not_mem_onTop {g : List Address → List Address} (hg : ∀ l, k ∉ l → k ∉ g l)
    (h : ∀ frame ∈ frames.take n, k ∉ frame) :
    ∀ frame ∈ (AvailableLoads.onTop frames g).take n, k ∉ frame := by
  cases frames with
  | nil => exact h
  | cons frame frames =>
    cases n with
    | zero => simp
    | succ n =>
      obtain ⟨htop, hrest⟩ := List.forall_mem_cons.mp h
      exact List.forall_mem_cons.mpr ⟨hg frame htop, hrest⟩

/-- An instruction that neither stores to the address nor clobbers leaves it in the table. -/
theorem Keeps.visits (h : Keeps k n s) (hv : Visits eligible s y m s') (hwrite : m ≠ .write k)
    (hclobber : m ≠ .clobber) : Keeps k n s' := by
  obtain ⟨hsome, hframes⟩ := h
  cases hv with
  | pass | skip | differ => exact ⟨hsome, hframes⟩
  | invalidate k' =>
    have hne : k ≠ k' := fun heq => hwrite (heq ▸ rfl)
    refine ⟨?_, not_mem_onTop (fun l hl hmem => hl (List.mem_filter.mp hmem).1) hframes⟩
    simpa only [AvailableLoads.invalidate, Bindings.find?_erase, if_neg hne] using hsome
  | clear => exact absurd rfl hclobber
  | @add k' hk hnone =>
    have hne : k ≠ k' := by
      rintro rfl
      rw [hnone] at hsome
      cases hsome
    refine ⟨?_, not_mem_onTop (fun l hl hmem => ?_) hframes⟩
    · simpa only [AvailableLoads.add, Bindings.find?_insert, if_neg hne] using hsome
    · rcases List.mem_append.mp hmem with hmem | hmem
      · exact hl hmem
      · exact hne (List.mem_singleton.mp hmem)
  | reuse hk he hty hg hchanges hreuses havailable =>
    rw [Keeps, havailable]
    exact ⟨hsome, hframes⟩

/-- After a load from an address that may be reused, the table has the address. -/
theorem Keeps.of_read (hk : k ∈ eligible) (hv : Visits eligible s y (.read k) s') :
    Keeps k 0 s' := by
  refine ⟨?_, by simp⟩
  cases hv with
  | skip hmem => exact absurd hk hmem
  | add => simp [AvailableLoads.add, Bindings.find?_insert]
  | differ _ he => exact Option.isSome_of_eq_some he
  | reuse _ he _ _ _ _ havailable => exact havailable ▸ Option.isSome_of_eq_some he

/-- A load from an address that the table has is deleted, unless it is of another type. -/
theorem Keeps.exists_reuse (h : Keeps k n s) (hk : k ∈ eligible)
    (hv : Visits eligible s y (.read k) s')
    (hty : ∀ e, s.available.table.find? k = some e →
      (s.progress.func.bare? e).map Instruction.ty =
        (s.progress.func.bare? y).map Instruction.ty) :
    ∃ e, (y, e) ∈ s'.progress.reuses := by
  cases hv with
  | skip hmem => exact absurd hk hmem
  | add _ hnone =>
    have hsome := h.1
    rw [hnone] at hsome
    cases hsome
  | differ _ he hne => exact absurd (hty _ he) hne
  | reuse _ _ _ _ _ hreuses =>
    rw [hreuses]
    exact ⟨_, List.mem_append_right _ List.mem_cons_self⟩

/-- A block without side clobbers is entered. -/
theorem Keeps.opened (h : Keeps k n s) (hside : sideClobbers a clobbers b = false) :
    Keeps k (n + 1) (opened a clobbers b s) := by
  rw [Loads.opened, hside, Bool.and_false, if_neg Bool.false_ne_true]
  exact ⟨h.1, List.forall_mem_cons.mpr ⟨List.not_mem_nil, h.2⟩⟩

/-- A block that did not add the address is left. -/
theorem Keeps.leaveBlock (h : Keeps k (n + 1) s) :
    Keeps k n { s with available := s.available.leaveBlock } := by
  obtain ⟨hsome, hframes⟩ := h
  unfold AvailableLoads.leaveBlock
  cases hstack : s.available.frames with
  | nil =>
    rw [hstack] at hframes
    exact ⟨hsome, by simp [hstack]⟩
  | cons frame frames =>
    rw [hstack, List.take_succ_cons] at hframes
    obtain ⟨htop, hrest⟩ := List.forall_mem_cons.mp hframes
    refine ⟨?_, hrest⟩
    show ((frame.foldl Bindings.erase s.available.table).find? k).isSome
    rwa [find?_foldl_erase, if_neg htop]

/-! ## One block -/

/-- The table had the address when the block was entered and nothing has clobbered, or nothing has
since `e`. -/
def Armed (f : Func) (e : InstId) (entry : Prop) (pre : List InstId) : Prop :=
  (entry ∧ ∀ j ∈ pre, ¬f.Clobbers j) ∨
    ∃ before after, pre = before ++ e :: after ∧ ∀ j ∈ after, ¬f.Clobbers j

theorem Armed.concat (h : Armed f e entry (pre ++ [y])) :
    y = e ∨ Armed f e entry pre ∧ ¬f.Clobbers y := by
  rcases h with ⟨hentry, hpre⟩ | ⟨before, after, hsplit, hafter⟩
  · exact .inr ⟨.inl ⟨hentry, fun j hj => hpre j (by simp [hj])⟩, hpre y (by simp)⟩
  · rcases cut_of_concat_eq hsplit with ⟨-, rfl, -⟩ | ⟨after, rfl, rfl⟩
    · exact .inl rfl
    · exact .inr ⟨.inr ⟨before, after, rfl, fun j hj => hafter j (by simp [hj])⟩,
        hafter y (by simp)⟩

section Next

variable (hf : f.Valid) (h : Scanning f done path frames b pre (y :: rest) s)
  (hkey : KeyKept f s.progress.func (done.flatMap f.listOf ++ pre) k)
include hf h hkey

/-- A load from the address is looked up under the address. -/
theorem eq_read (hclass : s.progress.func.Classifies y m)
    (hload : ∃ d, f.LoadsFrom y d ∧ f.ComputesKnown d ∧ f.operandsOf d = k) : m = .read k := by
  obtain ⟨d, hload, hknown, hk⟩ := hload
  have hload' := h.ledger.loadsFrom_of hf h.midway hload
  obtain ⟨-, hseen⟩ := h.ledger.loadsFrom_next hf h.midway hload'
  have hk' := (hkey d hseen hload.address).mpr hk
  refine (hclass.read k).mpr ⟨d, hload', ⟨hload'.address, ?_⟩, hk'⟩
  rw [hk', ← hk]
  exact hknown.2

/-- Nothing stores to the address. -/
theorem ne_write (hclass : s.progress.func.Classifies y m)
    (hunstored : ∀ {b i}, i ∈ f.listOf b → ¬f.StoresTo i k) : m ≠ .write k := by
  intro hwrite
  obtain ⟨hop, d, hslot, hptr, hk⟩ := hclass.write k hwrite
  have hpr := h.midway.pruned
  have hop' : f.op? y = some .store := (hpr.op y).symm.trans hop
  obtain ⟨hseen, -⟩ := h.midway.seen_of_reads hf (not_isPhi_of_op? hop' rfl)
    (mem_reads_iff.mpr ⟨1, hslot⟩)
  obtain ⟨z, hz, hlive⟩ := hpr.valid.exists_live (h.midway.mem_next hf)
  have hslot' : f.slot ⟨y, 1⟩ = some (.inst d) := by
    rcases h.ledger.slot_of hpr hz hlive hslot with hslot' | ⟨e', he', hload⟩
    · exact hslot'
    · obtain rfl := Operand.inst.inj he'
      cases hload.symm.trans hptr
  have hptr' : f.op? d = some .elementPtr := (hpr.op d).symm.trans hptr
  refine hunstored (by simp [h.midway.split] : y ∈ f.listOf b) ⟨hop', d, hslot', hptr', ?_⟩
  exact (hkey d hseen hptr').mp hk

omit hf in
/-- A load that the table has under the address is of the type of all loads from it. -/
theorem type_of_find? (hreload : f.Reload e x k) {e' : InstId}
    (he' : s.available.table.find? k = some e') :
    (s.progress.func.bare? e').map Instruction.ty = (f.bare? x).map Instruction.ty := by
  have hpr := h.midway.pruned
  obtain ⟨hseen, ⟨c, hc⟩, d, hload, hk⟩ := h.ledger.entries he'
  obtain ⟨z, hz, hlive⟩ := hpr.valid.exists_live hc
  have hload' := h.ledger.loadsFrom hpr hz hlive hload
  have hd := hpr.closed e' hseen (not_isPhi_of_op? hload'.load rfl) d
    (mem_reads_iff.mpr ⟨0, hload.operand⟩)
  rw [hpr.type_eq hz]
  exact hreload.type ((hpr.sub c).subset hc) hload' ((hkey d hd hload'.address).mp hk)

end Next

theorem Visits.reuses_subset (hv : Visits eligible s y m s') :
    s.progress.reuses ⊆ s'.progress.reuses := by
  cases hv with
  | reuse _ _ _ _ _ hreuses =>
    rw [hreuses]
    exact List.subset_append_left _ _
  | _ => exact List.Subset.refl _

/-- What was seen before a deletion reads after it what it read before. -/
theorem Visits.keyKept_of {l : List InstId} (hv : Visits eligible s y m s')
    (hpr : Pruned f s.progress.func seen) (hy : y ∉ seen) (hl : l ⊆ seen)
    (h : KeyKept f s'.progress.func l k) : KeyKept f s.progress.func l k := by
  cases hv with
  | reuse _ _ _ hg => exact h.of_replaced hpr hy hg hl
  | _ => exact h

/-- In the block `b`, which was entered in the state `s₀`, before the instructions `rest`. -/
structure Tracking (f : Func) (e x : InstId) (k : Address) (entry : Prop) (n : Nat)
    (done path : List BlockId) (frames : List (List Address)) (b : BlockId) (s₀ : State)
    (pre rest : List InstId) (s : State) : Prop where
  scanning : Scanning f done path frames b pre rest s
  kept : ∀ {l}, l ⊆ done.flatMap f.listOf → KeyKept f s.progress.func l k →
    KeyKept f s₀.progress.func l k
  grown : s₀.progress.reuses ⊆ s.progress.reuses
  keeps : KeyKept f s.progress.func (done.flatMap f.listOf ++ pre) k → Armed f e entry pre →
    Keeps k n s
  found : ∀ before after, pre = before ++ x :: after →
    KeyKept f s.progress.func (done.flatMap f.listOf ++ before) k → Armed f e entry before →
    ∃ e', (x, e') ∈ s.progress.reuses

section Track

variable (hf : f.Valid) (hlayout : f.LaidOut) (hreload : f.Reload e x k) (hk : k ∈ eligible)
  (hunstored : ∀ k ∈ eligible, ∀ {c i}, i ∈ f.listOf c → ¬f.StoresTo i k)
  (hn : e ∈ f.listOf b → n = 0)
include hf hlayout hreload hk hunstored hn

theorem Tracking.step (h : Tracking f e x k entry n done path frames b s₀ pre (y :: rest) s) :
    ∃ s', visitInst eligible s y = .ok s' ∧
      Tracking f e x k entry n done path frames b s₀ (pre ++ [y]) rest s' := by
  have hscan := h.scanning
  obtain ⟨m, s', hclass, hs', hvisits⟩ := visitInst_visits hf hlayout hscan
  obtain ⟨s'', hs'', hscan'⟩ := visitInst_spec hf hlayout hunstored hscan
  obtain rfl := Except.ok.inj (hs'.symm.trans hs'')
  have hpr := hscan.midway.pruned
  have hkept : ∀ {l}, l ⊆ done.flatMap f.listOf ++ pre → KeyKept f s'.progress.func l k →
      KeyKept f s.progress.func l k := fun hl =>
    hvisits.keyKept_of hpr (hscan.midway.fresh hf y List.mem_cons_self) hl
  refine ⟨s', hs', hscan', fun hl hkey => h.kept hl (hkept (List.subset_append_of_subset_left _ hl)
    hkey), List.Subset.trans h.grown hvisits.reuses_subset, ?_, ?_⟩
  · intro hkey harmed
    rw [← List.append_assoc] at hkey
    have hnow := hkept (List.Subset.refl _) (hkey.mono (List.subset_append_left _ _))
    rcases harmed.concat with rfl | ⟨harmed, hclobbers⟩
    · obtain rfl := eq_read hf hscan hnow hclass hreload.first
      obtain rfl := hn (by simp [hscan.midway.split])
      exact .of_read hk hvisits
    · have hwrite := ne_write hf hscan hnow hclass hreload.unstored
      refine (h.keeps hnow harmed).visits hvisits hwrite ?_
      exact fun hm => hclobbers (hscan.ledger.clobbers_of hf hscan.midway (hclass.clobber.mp hm))
  · intro before after hsplit hkey harmed
    rcases cut_of_concat_eq hsplit with ⟨rfl, rfl, -⟩ | ⟨after, -, rfl⟩
    · have hnow := hkept (List.Subset.refl _) hkey
      obtain rfl := eq_read hf hscan hnow hclass hreload.second
      refine (h.keeps hnow harmed).exists_reuse hk hvisits fun e' he' => ?_
      obtain ⟨z, hz⟩ := hpr.valid.consistent.bare?_of_mem (hscan.midway.mem_next hf)
      rw [type_of_find? hscan hnow hreload he', hpr.type_eq hz]
    · have hbefore : done.flatMap f.listOf ++ before ⊆
          done.flatMap f.listOf ++ (before ++ x :: after) := by
        rw [← List.append_assoc]
        exact List.subset_append_left _ _
      obtain ⟨e', he'⟩ := h.found before after rfl (hkept hbefore hkey) harmed
      exact ⟨e', hvisits.reuses_subset he'⟩

/-- A block is entered. -/
theorem enter_tracked (hd : a.Describes f rank)
    (hclean : ∀ c, c ∉ clobbers → ∀ i ∈ f.listOf c, ¬f.Clobbers i) (hb : f.Reached b)
    (hnew : b ∉ done) (hdoms : ∀ c, c ≠ b → f.Dom c b → c ∈ done)
    (hhead : path.head? = a.dom.idom? b) (h : Eliminated f done path s)
    (hentry : entry → KeyKept f s.progress.func (done.flatMap f.listOf) k →
      Keeps k n (opened a clobbers b s)) :
    ∃ s', visit a eligible clobbers s (.enter b) = .ok s' ∧
      Tracking f e x k entry n done path s.available.frames b s (f.listOf b) [] s' := by
  have hmid := Midway.enter h.pruned hb hnew hdoms
  have hstart : Tracking f e x k entry n done path s.available.frames b s [] (f.listOf b)
      (opened a clobbers b s) := by
    refine ⟨scanning_enter hd hf hclean hmid hhead h, ?_, ?_, fun hkey harmed => ?_, ?_⟩
    · intro l _
      rw [opened_func]
      exact id
    · rw [opened_reuses]
      exact List.Subset.refl _
    · rw [opened_func, List.append_nil] at hkey
      rcases harmed with ⟨hentered, -⟩ | ⟨before, after, hsplit, -⟩
      · exact hentry hentered hkey
      · simp at hsplit
    · intro before after hsplit
      simp at hsplit
  rw [visit_enter_eq hf hmid]
  exact exists_foldlM (Tracking.step hf hlayout hreload hk hunstored hn) hstart

end Track

end Loads

end SsaOpt
