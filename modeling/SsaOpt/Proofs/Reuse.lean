import SsaOpt.Proofs.Unclobbered

/-! Loads deleted in favour of earlier ones. What holds of a deletion when it is made goes on to
hold: later deletions are of instructions that were not seen by then. -/

namespace SsaOpt

/-- The loads that were deleted, each with the load that took its place. -/
def Progress.reuses (p : Progress) : List (InstId × InstId) :=
  p.remarks.toList.filterMap fun
    | .loadReused _ x _ e => some (x, e)
    | _ => none

namespace Func

variable {f g g' : Func} {x e y i d : InstId} {b c : BlockId} {seen pre rest front : List InstId}
  {done : List BlockId} {reuses : List (InstId × InstId)} {table table' : Bindings Address InstId}
  {k : Address}

/-- The load `x` of `f` was deleted in `g` in favour of the load `e`. The two are of one type and
load from addresses computed from the same operands; what read `x` reads `e`; and whenever control
comes to `x`, nothing that may write to any address was executed since `e` was. -/
structure Reuse (f g : Func) (x e : InstId) : Prop where
  deleted : ∃ z, g.bare? x = some z ∧ z.erased = true
  kept : ∃ z, g.bare? e = some z ∧ z.erased = false
  type : (g.bare? e).map Instruction.ty = (f.bare? x).map Instruction.ty
  address : ∃ d d', f.LoadsFrom x d ∧ g.LoadsFrom e d' ∧ g.operandsOf d = g.operandsOf d'
  readers : ∀ {u}, f.slot u = some (.inst x) → g.slot u = none ∨ g.slot u = some (.inst e)
  unclobbered : ∀ {b pre post}, f.listOf b = pre ++ x :: post → f.Unclobbered e b pre

/-- What the pass knows about the deletions that it has made and about the loads in its table. -/
structure Ledger (f g : Func) (seen : List InstId) (reuses : List (InstId × InstId))
    (table : Bindings Address InstId) : Prop where
  reuse : ∀ {x e}, (x, e) ∈ reuses → Reuse f g x e
  visited : ∀ {x e}, (x, e) ∈ reuses → x ∈ seen ∧ e ∈ seen ∧ ∀ {d}, f.LoadsFrom x d → d ∈ seen
  others : ∀ {o u}, (∀ x e, (x, e) ∈ reuses → o ≠ .inst x) → f.slot u = some o →
    g.slot u = none ∨ g.slot u = some o
  deleted : ∀ {i z w}, g.bare? i = some z → z.erased = true → f.bare? i = some w →
    w.erased = false → ∃ e, (i, e) ∈ reuses
  entries : ∀ {k e}, table.find? k = some e →
    e ∈ seen ∧ (∃ c, e ∈ g.listOf c) ∧ ∃ d, g.LoadsFrom e d ∧ g.operandsOf d = k
  unstored : ∀ {x e d}, (x, e) ∈ reuses → f.LoadsFrom x d →
    ∀ {b i}, i ∈ f.listOf b → ¬f.StoresTo i (g.operandsOf d)

/-! ## One deletion -/

theorem not_isPhi_of_op? {op : Opcode} (h : f.op? i = some op) (hop : op.isPhi = false) :
    ¬f.isPhi i := by
  rw [isPhi_eq, h]
  simp [hop]

/-- What a slot reads after `x` was deleted in favour of `e`. -/
theorem Replaced.slot_cases (hg : Replaced g x e g') {u : Use} {o : Operand}
    (h : g.slot u = none ∨ g.slot u = some o) :
    g'.slot u = none ∨ g'.slot u = some (Operand.subst x (.inst e) o) := by
  obtain ⟨i, n⟩ := u
  by_cases hi : i = x
  · refine .inl ?_
    rw [slot, operandsOf, hg.bare, if_pos hi.symm]
    cases g.bare? i <;> rfl
  · rw [hg.slot_eq hi]
    rcases h with h | h <;> rw [h]
    · exact .inl rfl
    · exact .inr rfl

theorem LoadsFrom.replaced (hpr : Pruned f g seen) (hx : x ∉ seen) (hg : Replaced g x e g')
    (hi : i ∈ seen) (h : g.LoadsFrom i d) :
    g'.LoadsFrom i d ∧ g'.operandsOf d = g.operandsOf d := by
  have hphi : ∀ {j op}, g.op? j = some op → op.isPhi = false → ¬f.isPhi j := fun hop hnot =>
    not_isPhi_of_op? ((hpr.op _).symm.trans hop) hnot
  have hi' := hpr.bare_of_seen hx hg hi (hphi h.load rfl)
  have hd := hpr.closed i hi (hphi h.load rfl) d (mem_reads_iff.mpr ⟨0, h.operand⟩)
  have hd' := hpr.bare_of_seen hx hg hd (hphi h.address rfl)
  have hsame : g'.operandsOf i = g.operandsOf i := by rw [operandsOf, operandsOf, hi']
  refine ⟨⟨by rw [hg.op?_eq, h.load], ?_, by rw [hg.op?_eq, h.address]⟩, ?_⟩
  · rw [slot, hsame]
    exact h.operand
  · rw [operandsOf, operandsOf, hd']

theorem Reuse.replaced {x' e' : InstId} (hpr : Pruned f g seen) (hx : x ∉ seen)
    (hg : Replaced g x e g') (h : Reuse f g x' e') (hx' : x' ∈ seen) (he' : e' ∈ seen)
    (haddress : ∀ {d}, f.LoadsFrom x' d → d ∈ seen) : Reuse f g' x' e' := by
  have hne : ∀ {j}, j ∈ seen → j ≠ x := by
    rintro j hj rfl
    exact hx hj
  obtain ⟨d, d', hload, hload', hsame⟩ := h.address
  obtain ⟨hkeep, hoperands⟩ := hload'.replaced hpr hx hg he'
  have hd := hpr.bare_of_seen hx hg (haddress hload) (not_isPhi_of_op? hload.address rfl)
  obtain ⟨z, hz, herased⟩ := h.deleted
  obtain ⟨w, hw, hlive⟩ := h.kept
  refine ⟨⟨_, hg.bare_of_ne (hne hx') hz, herased⟩, ⟨_, hg.bare_of_ne (hne he') hw, hlive⟩, ?_,
    ⟨d, d', hload, hkeep, ?_⟩, fun hslot => ?_, h.unclobbered⟩
  · rw [hg.bare_of_ne (hne he') hw, ← h.type, hw]
    rfl
  · rw [hoperands, ← hsame, operandsOf, operandsOf, hd]
  · have hsubst : Operand.subst x (.inst e) (.inst e') = .inst e' := by
      rw [Operand.subst, if_neg (by simpa using hne he')]
    exact hsubst ▸ hg.slot_cases (h.readers hslot)

/-! ## The ledger -/

namespace Ledger

theorem start : Ledger f f [] [] {} where
  reuse h := absurd h List.not_mem_nil
  visited h := absurd h List.not_mem_nil
  others _ h := .inr h
  deleted hz herased hw hlive := by
    obtain rfl := Option.some.inj (hz.symm.trans hw)
    cases herased.symm.trans hlive
  entries h := by cases h
  unstored h := absurd h List.not_mem_nil

variable (h : Ledger f g seen reuses table)
include h

/-- More was seen, and the table may have forgotten something. -/
theorem mono {seen' : List InstId} (hseen : seen ⊆ seen')
    (htable : ∀ {k e}, table'.find? k = some e → table.find? k = some e) :
    Ledger f g seen' reuses table' where
  reuse := h.reuse
  visited hxe := by
    obtain ⟨hx, he, hd⟩ := h.visited hxe
    exact ⟨hseen hx, hseen he, fun hload => hseen (hd hload)⟩
  others := h.others
  deleted := h.deleted
  entries hk := by
    obtain ⟨he, hplaced, hload⟩ := h.entries (htable hk)
    exact ⟨hseen he, hplaced, hload⟩
  unstored := h.unstored

/-- A load is entered in the table. -/
theorem add (hx : x ∈ g.listOf b) (hload : g.LoadsFrom x d) :
    Ledger f g (seen ++ [x]) reuses (table.insert (g.operandsOf d) x) := by
  have hmore := h.mono (List.subset_append_left seen [x]) id
  refine ⟨h.reuse, hmore.visited, h.others, h.deleted, fun {k e} hk => ?_, h.unstored⟩
  rw [Bindings.find?_insert] at hk
  split at hk
  · next hkey =>
    obtain rfl := Option.some.inj hk
    exact ⟨by simp, ⟨b, hx⟩, d, hload, hkey.symm⟩
  · exact hmore.entries hk

/-- What a slot of a live instruction reads, it read before, or it stands for what it read. -/
theorem slot_cases {z : Instruction} {o : Operand} {n : Nat} (hpr : Pruned f g seen)
    (hz : g.bare? i = some z) (hlive : z.erased = false) (ho : g.slot ⟨i, n⟩ = some o) :
    f.slot ⟨i, n⟩ = some o ∨ ∃ y e, (y, e) ∈ reuses ∧ o = .inst e := by
  obtain ⟨w, hw, -, -, hlen⟩ := hpr.shape hz
  obtain ⟨p, hp⟩ : ∃ p, f.slot ⟨i, n⟩ = some p := by
    have hlt : n < z.operands.length := by
      simp only [slot, operandsOf, hz, Option.elim_some] at ho
      exact (List.getElem?_eq_some_iff.mp ho).1
    rw [(hlen hlive).2] at hlt
    exact ⟨w.operands[n], by simp [slot, operandsOf, hw, hlt]⟩
  by_cases hreused : ∃ y e, (y, e) ∈ reuses ∧ p = .inst y
  · obtain ⟨y, e, hye, rfl⟩ := hreused
    rcases (h.reuse hye).readers hp with hslot | hslot
    · cases hslot.symm.trans ho
    · exact .inr ⟨y, e, hye, Option.some.inj (ho.symm.trans hslot)⟩
  · push Not at hreused
    rcases h.others hreused hp with hslot | hslot
    · cases hslot.symm.trans ho
    · exact .inl (hp.trans (hslot.symm.trans ho))

theorem slot_of {z : Instruction} {o : Operand} {n : Nat} (hpr : Pruned f g seen)
    (hz : g.bare? i = some z) (hlive : z.erased = false) (ho : g.slot ⟨i, n⟩ = some o) :
    f.slot ⟨i, n⟩ = some o ∨ ∃ e, o = .inst e ∧ g.op? e = some .load := by
  rcases h.slot_cases hpr hz hlive ho with hslot | ⟨y, e, hye, he⟩
  · exact .inl hslot
  · obtain ⟨_, d', -, hload, -⟩ := (h.reuse hye).address
    exact .inr ⟨e, he, hload.load⟩

/-- An address computation of the function under optimisation is one of the original. -/
theorem computesKnown {z : Instruction} (hpr : Pruned f g seen) (hz : g.bare? d = some z)
    (hlive : z.erased = false) (hd : g.ComputesKnown d) : f.ComputesKnown d := by
  obtain ⟨hop, base, indices, hsplit, hall⟩ := hd
  obtain ⟨w, hw, -, -, hlen⟩ := hpr.shape hz
  have hoperands : z.operands = base :: indices := by simpa [operandsOf, hz] using hsplit
  obtain ⟨base', indices', hsplit'⟩ : ∃ base indices, w.operands = base :: indices := by
    refine List.exists_cons_of_length_pos ?_
    rw [← (hlen hlive).2, hoperands]
    exact Nat.succ_pos _
  refine ⟨(hpr.op d).symm.trans hop, base', indices', by simp [operandsOf, hw, hsplit'], ?_⟩
  intro o ho
  obtain ⟨n, hn, rfl⟩ := List.getElem_of_mem ho
  have hn' : n < indices.length := by
    have := (hlen hlive).2
    simp only [hoperands, hsplit', List.length_cons] at this
    omega
  have hslot : g.slot ⟨d, n + 1⟩ = some indices[n] := by simp [slot, hsplit, hn']
  have hlit := hall _ (List.getElem_mem hn')
  rcases h.slot_of hpr hz hlive hslot with hslot' | ⟨e, he, -⟩
  · have heq : some indices'[n] = some indices[n] := by
      rw [← hslot']
      simp [slot, operandsOf, hw, hsplit', hn]
    rwa [Option.some.inj heq]
  · rw [he] at hlit
    cases hlit

/-- An operand that was not deleted is still there. -/
theorem slot_eq_of_kept {z : Instruction} {o : Operand} {n : Nat} (hpr : Pruned f g seen)
    (hz : g.bare? i = some z) (hlive : z.erased = false) (ho : f.slot ⟨i, n⟩ = some o)
    (hkept : ∀ y e, (y, e) ∈ reuses → o ≠ .inst y) : g.slot ⟨i, n⟩ = some o := by
  refine (h.others hkept ho).resolve_left fun hnone => ?_
  obtain ⟨w, hw, -, -, hlen⟩ := hpr.shape hz
  simp only [slot, operandsOf, hz, hw, Option.elim_some, List.getElem?_eq_none_iff,
    (hlen hlive).2] at hnone ho
  rw [List.getElem?_eq_none hnone] at ho
  cases ho

/-- An operand that is no load is still there. -/
theorem slot_eq {z : Instruction} {o : Operand} {n : Nat} (hpr : Pruned f g seen)
    (hz : g.bare? i = some z) (hlive : z.erased = false) (ho : f.slot ⟨i, n⟩ = some o)
    (hnot : ∀ y, o = .inst y → f.op? y ≠ some .load) : g.slot ⟨i, n⟩ = some o := by
  refine h.slot_eq_of_kept hpr hz hlive ho fun y e hye heq => ?_
  obtain ⟨_, _, hload, -⟩ := (h.reuse hye).address
  exact hnot y heq hload.load

/-- An address computation of the original is one of the function under optimisation. -/
theorem computesKnown_of {z : Instruction} (hpr : Pruned f g seen) (hz : g.bare? d = some z)
    (hlive : z.erased = false) (hd : f.ComputesKnown d) : g.ComputesKnown d := by
  obtain ⟨hop, base, indices, hsplit, hall⟩ := hd
  obtain ⟨w, hw, -, -, hlen⟩ := hpr.shape hz
  have hoperands : w.operands = base :: indices := by simpa [operandsOf, hw] using hsplit
  obtain ⟨base', indices', hsplit'⟩ : ∃ base indices, z.operands = base :: indices := by
    refine List.exists_cons_of_length_pos ?_
    rw [(hlen hlive).2, hoperands]
    exact Nat.succ_pos _
  refine ⟨(hpr.op d).trans hop, base', indices', by simp [operandsOf, hz, hsplit'], ?_⟩
  intro o ho
  obtain ⟨n, hn, rfl⟩ := List.getElem_of_mem ho
  have hn' : n < indices.length := by
    have := (hlen hlive).2
    simp only [hoperands, hsplit', List.length_cons] at this
    omega
  have hlit := hall _ (List.getElem_mem hn')
  have hslot : f.slot ⟨d, n + 1⟩ = some indices[n] := by simp [slot, hsplit, hn']
  have hslot' := h.slot_eq hpr hz hlive hslot fun y hy => by
    rw [hy] at hlit
    cases hlit
  have heq : some indices'[n] = some indices[n] := by
    rw [← hslot']
    simp [slot, operandsOf, hz, hsplit', hn]
  rwa [Option.some.inj heq]

/-- A load from an address computation loaded from it in the original, since only loads stand
for loads. -/
theorem loadsFrom {z : Instruction} (hpr : Pruned f g seen) (hz : g.bare? i = some z)
    (hlive : z.erased = false) (hload : g.LoadsFrom i d) : f.LoadsFrom i d := by
  refine ⟨by rw [← hpr.op, hload.load], ?_, by rw [← hpr.op, hload.address]⟩
  rcases h.slot_of hpr hz hlive hload.operand with hslot | ⟨y, hy, hop⟩
  · exact hslot
  · obtain rfl := Operand.inst.inj hy
    cases hop.symm.trans hload.address

end Ledger

/-! ## The next instruction -/

section Next

variable (hf : f.Valid) (hmid : Midway f g done b pre (x :: rest))
  (h : Ledger f g (done.flatMap f.listOf ++ pre) reuses table)
include hf hmid h

/-- A clobber of the original is one of the function under optimisation. -/
theorem Ledger.clobbers (hx : f.Clobbers x) : g.Clobbers x := by
  have hpr := hmid.pruned
  rcases hx with ⟨callee, hcall⟩ | ⟨hstore, hunknown⟩
  · exact .inl ⟨callee, by rw [hpr.op, hcall]⟩
  · refine .inr ⟨by rw [hpr.op, hstore], fun ⟨d, hslot, hknown⟩ => hunknown ⟨d, ?_, ?_⟩⟩
    · obtain ⟨z, hz, hlive⟩ := hpr.valid.exists_live (hmid.mem_next hf)
      rcases h.slot_of hpr hz hlive hslot with hslot | ⟨e, he, hload⟩
      · exact hslot
      · obtain rfl := Operand.inst.inj he
        cases hload.symm.trans hknown.1
    · obtain ⟨-, c, hc⟩ := hmid.seen_of_reads hf (not_isPhi_of_op? hstore rfl)
        (mem_reads_iff.mpr ⟨1, hslot⟩)
      obtain ⟨z, hz, hlive⟩ := hpr.valid.exists_live hc
      exact h.computesKnown hpr hz hlive hknown

/-- A clobber of the function under optimisation is one of the original. -/
theorem Ledger.clobbers_of (hx : g.Clobbers x) : f.Clobbers x := by
  have hpr := hmid.pruned
  rcases hx with ⟨callee, hcall⟩ | ⟨hstore, hunknown⟩
  · exact .inl ⟨callee, by rw [← hpr.op, hcall]⟩
  · refine .inr ⟨by rw [← hpr.op, hstore], fun ⟨d, hslot, hknown⟩ => hunknown ⟨d, ?_⟩⟩
    obtain ⟨z, hz, hlive⟩ := hpr.valid.exists_live (hmid.mem_next hf)
    have hslot' := h.slot_eq hpr hz hlive hslot fun y hy hload => by
      obtain rfl := Operand.inst.inj hy
      cases hload.symm.trans hknown.1
    obtain ⟨-, c, hc⟩ := hmid.seen_of_reads hf
      (not_isPhi_of_op? ((hpr.op x).symm.trans hstore) rfl) (mem_reads_iff.mpr ⟨1, hslot'⟩)
    obtain ⟨w, hw, hwlive⟩ := hpr.valid.exists_live hc
    exact ⟨hslot', h.computesKnown_of hpr hw hwlive hknown⟩

/-- The next instruction loads from the address that it loaded from in the original. -/
theorem Ledger.loadsFrom_of (hload : f.LoadsFrom x d) : g.LoadsFrom x d := by
  have hpr := hmid.pruned
  obtain ⟨z, hz, hlive⟩ := hpr.valid.exists_live (hmid.mem_next hf)
  refine ⟨by rw [hpr.op, hload.load], ?_, by rw [hpr.op, hload.address]⟩
  refine h.slot_eq hpr hz hlive hload.operand fun y hy hop => ?_
  obtain rfl := Operand.inst.inj hy
  cases hop.symm.trans hload.address

/-- The next instruction loads from an address that was computed in what was seen. -/
theorem Ledger.loadsFrom_next (hload : g.LoadsFrom x d) :
    f.LoadsFrom x d ∧ d ∈ done.flatMap f.listOf ++ pre := by
  have hpr := hmid.pruned
  obtain ⟨z, hz, hlive⟩ := hpr.valid.exists_live (hmid.mem_next hf)
  have hloads := h.loadsFrom hpr hz hlive hload
  obtain ⟨hseen, -⟩ := hmid.seen_of_reads hf (not_isPhi_of_op? hloads.load rfl)
    (mem_reads_iff.mpr ⟨0, hload.operand⟩)
  exact ⟨hloads, hseen⟩

variable (he : table.find? k = some e) (hload : g.LoadsFrom x d) (hkey : g.operandsOf d = k)
  (hty : (g.bare? e).map Instruction.ty = (g.bare? x).map Instruction.ty)
  (hun : f.Unclobbered e b pre) (hr : Redundant g x e b front rest) (hg : Replaced g x e g')
include he hload hkey hty hun hr hg

theorem Ledger.reuse_of_replaced : Reuse f g' x e := by
  have hpr := hmid.pruned
  have hx := hmid.fresh hf x List.mem_cons_self
  obtain ⟨hseen, ⟨c, hc⟩, d', hload', hkey'⟩ := h.entries he
  obtain ⟨z, hz⟩ := hpr.valid.consistent.bare?_of_mem hr.mem
  obtain ⟨w, hw, hlive⟩ := hpr.valid.exists_live hc
  obtain ⟨hloads, hdseen⟩ := h.loadsFrom_next hf hmid hload
  obtain ⟨hkeep, hoperands⟩ := hload'.replaced hpr hx hg hseen
  have hd := hpr.bare_of_seen hx hg hdseen (not_isPhi_of_op? hloads.address rfl)
  have hw' := hg.bare_of_ne (hr.ne hpr.valid) hw
  refine ⟨⟨{ z with operands := [], home := none, erased := true }, ?_, rfl⟩, ⟨_, hw', hlive⟩, ?_,
    ⟨d, d', hloads, hkeep, ?_⟩, fun hslot => ?_, ?_⟩
  · simp [hg.bare, hz]
  · obtain ⟨v, hv, -, htv, -⟩ := hpr.shape hz
    rw [hw', hv, Option.map_some, Option.map_some, ← htv]
    simpa [hz, hw] using hty
  · rw [hoperands, hkey', ← hkey, operandsOf, operandsOf, hd]
  · have hsubst : Operand.subst x (.inst e) (.inst x) = .inst e := by
      rw [Operand.subst, if_pos rfl]
    refine hsubst ▸ hg.slot_cases (h.others (fun y e' hy hyx => ?_) hslot)
    obtain rfl := Operand.inst.inj hyx
    exact hx (h.visited hy).1
  · intro b' pre' post' hsplit
    obtain rfl := hf.consistent.home_unique (by simp [hmid.split] : x ∈ f.listOf b)
      (by simp [hsplit] : x ∈ f.listOf b')
    have hnodup := hf.consistent.list_nodup b
    rw [hmid.split] at hnodup hsplit
    exact (split_unique hnodup hsplit).1 ▸ hun

/-- The next instruction is deleted in favour of a load in the table. -/
theorem Ledger.delete (hunstored : ∀ {c i}, i ∈ f.listOf c → ¬f.StoresTo i k) :
    Ledger f g' (done.flatMap f.listOf ++ pre ++ [x]) (reuses ++ [(x, e)]) table := by
  have hpr := hmid.pruned
  have hx := hmid.fresh hf x List.mem_cons_self
  have hnew : ∀ {y e'}, (y, e') ∈ reuses ++ [(x, e)] → (y, e') ∈ reuses ∨ y = x ∧ e' = e := by
    intro y e' hye
    simpa using hye
  refine ⟨fun hye => ?_, fun hye => ?_, fun {o u} ho hslot => ?_, fun {i z w} hz her hw hlive => ?_,
    fun hk => ?_, fun {y e' d'} hye hload' c i hi => ?_⟩
  · rcases hnew hye with hye | ⟨rfl, rfl⟩
    · obtain ⟨hy, he', hd⟩ := h.visited hye
      exact (h.reuse hye).replaced hpr hx hg hy he' hd
    · exact h.reuse_of_replaced hf hmid he hload hkey hty hun hr hg
  · rcases hnew hye with hye | ⟨rfl, rfl⟩
    · exact (h.mono (List.subset_append_left _ _) id).visited hye
    · obtain ⟨hloads, hdseen⟩ := h.loadsFrom_next hf hmid hload
      refine ⟨by simp, List.mem_append_left _ (h.entries he).1, fun {d₀} hd₀ => ?_⟩
      obtain rfl := Operand.inst.inj (Option.some.inj (hd₀.operand.symm.trans hloads.operand))
      exact List.mem_append_left _ hdseen
  · have hsubst : Operand.subst x (.inst e) o = o := by
      rw [Operand.subst, if_neg (ho x e (by simp))]
    exact hsubst ▸ hg.slot_cases (h.others (fun y e' hy => ho y e' (by simp [hy])) hslot)
  · by_cases hix : i = x
    · exact ⟨e, by simp [hix]⟩
    · rw [hg.bare, if_neg fun hxi => hix hxi.symm, Option.map_eq_some_iff] at hz
      obtain ⟨v, hv, rfl⟩ := hz
      obtain ⟨e', he'⟩ := h.deleted hv her hw hlive
      exact ⟨e', by simp [he']⟩
  · obtain ⟨he', ⟨c', hc'⟩, d₀, hload₀, hkey₀⟩ := h.entries hk
    obtain ⟨hkeep, hoperands⟩ := hload₀.replaced hpr hx hg he'
    refine ⟨List.mem_append_left _ he', ⟨c', ?_⟩, d₀, hkeep, hoperands.trans hkey₀⟩
    have hne : ∀ {j}, j ∈ done.flatMap f.listOf ++ pre → j ≠ x := fun hj hjx => hx (hjx ▸ hj)
    exact ((hr.agreeOff hpr.valid hg).mem_list_iff (hne he')).mpr hc'
  · have hsame : d' ∈ done.flatMap f.listOf ++ pre → g'.operandsOf d' = g.operandsOf d' := by
      intro hd'
      rw [operandsOf, operandsOf, hpr.bare_of_seen hx hg hd' (not_isPhi_of_op? hload'.address rfl)]
    rcases hnew hye with hye | ⟨rfl, rfl⟩
    · rw [hsame ((h.visited hye).2.2 hload')]
      exact h.unstored hye hload' hi
    · obtain ⟨hloads, hdseen⟩ := h.loadsFrom_next hf hmid hload
      obtain rfl := Operand.inst.inj (Option.some.inj (hload'.operand.symm.trans hloads.operand))
      rw [hsame hdseen, hkey]
      exact hunstored hi

end Next

end Func

end SsaOpt
