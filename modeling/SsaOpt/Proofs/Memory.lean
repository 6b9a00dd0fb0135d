import SsaOpt.Loads.Address
import SsaOpt.Proofs.Pruning

/-! What instructions do to memory, said through their operands, and the classification that the
elimination of loads goes by. -/

namespace SsaOpt

namespace Func

variable {f : Func} {i d : InstId} {b : BlockId} {z : Instruction} {o : Operand}

/-- `d` computes an address from a base and integer literals. -/
def ComputesKnown (f : Func) (d : InstId) : Prop :=
  f.op? d = some .elementPtr ∧
    ∃ base indices, f.operandsOf d = base :: indices ∧ ∀ o ∈ indices, o.isIntegerLit

/-- The instruction may write to any address: it is a call, or a store whose address is not
computed from a base and integer literals. -/
def Clobbers (f : Func) (i : InstId) : Prop :=
  (∃ callee, f.op? i = some (.call callee)) ∨
    f.op? i = some .store ∧ ¬∃ d, f.slot ⟨i, 1⟩ = some (.inst d) ∧ f.ComputesKnown d

/-- `i` loads from the address that `d` computes. -/
structure LoadsFrom (f : Func) (i d : InstId) : Prop where
  load : f.op? i = some .load
  operand : f.slot ⟨i, 0⟩ = some (.inst d)
  address : f.op? d = some .elementPtr

/-- `i` stores to an address computed from these operands. -/
def StoresTo (f : Func) (i : InstId) (address : Address) : Prop :=
  f.op? i = some .store ∧ ∃ d, f.slot ⟨i, 1⟩ = some (.inst d) ∧ f.op? d = some .elementPtr ∧
    f.operandsOf d = address

/-- The operand names an instruction with the operands that it takes, if it names any. -/
def Readable (f : Func) (o : Operand) : Prop :=
  ∀ d, o = .inst d → ∃ w, f.bare? d = some w ∧ w.op.takes w.operands.length

theorem knownAddress?_spec (ho : f.Readable o) : ∃ r, f.knownAddress? o = .ok r ∧
    ∀ address, r = some address ↔
      ∃ d, o = .inst d ∧ f.ComputesKnown d ∧ f.operandsOf d = address := by
  cases o with
  | arg | global | lit => exact ⟨none, rfl, by simp⟩
  | inst d =>
    obtain ⟨w, hw, hlen⟩ := ho d rfl
    obtain ⟨y, hy, rfl⟩ := bare?_eq_some_iff.mp hw
    have hop := op?_of_inst hy
    have hoperands := operandsOf_of_inst hy
    by_cases hptr : y.op = .elementPtr
    · obtain ⟨base, indices, hsplit⟩ : ∃ base indices, y.operands = base :: indices := by
        have hpos : 1 ≤ y.operands.length := by
          simpa [Instruction.bare, hptr, Opcode.takes] using hlen
        exact List.exists_cons_of_length_pos hpos
      have hknown : f.ComputesKnown d ↔ indices.all Operand.isIntegerLit = true := by
        rw [ComputesKnown, hop, hptr, hoperands, hsplit]
        simp
      refine ⟨if indices.all Operand.isIntegerLit then some y.operands else none, ?_, ?_⟩
      · simp only [knownAddress?, addressOf?, hy, bind, Except.bind, pure, Except.pure, hptr,
          if_true, hsplit, isKnown]
      · intro address
        simp [Option.ite_none_right_eq_some, ← hknown, hoperands]
    · refine ⟨none, ?_, ?_⟩
      · simp only [knownAddress?, addressOf?, hy, bind, Except.bind, pure, Except.pure, if_neg hptr]
      · simp [ComputesKnown, hop, hptr]

/-- The classification `m` of `i` is right. -/
structure Classifies (f : Func) (i : InstId) (m : MemoryEffect) : Prop where
  clobber : m = .clobber ↔ f.Clobbers i
  read : ∀ address, m = .read address ↔
    ∃ d, f.LoadsFrom i d ∧ f.ComputesKnown d ∧ f.operandsOf d = address
  write : ∀ address, m = .write address → f.StoresTo i address

/-- What is neither a load nor a store is a clobber if it is a call. -/
theorem classifies_other {m : MemoryEffect} (hload : f.op? i ≠ some .load)
    (hstore : f.op? i ≠ some .store) (hm : m = .none ∨ m = .clobber)
    (hcall : m = .clobber ↔ ∃ callee, f.op? i = some (.call callee)) : f.Classifies i m where
  clobber := by simp [Clobbers, hstore, hcall]
  read address := by
    refine iff_of_false (fun hread => ?_) fun h => ?_
    · rcases hm with rfl | rfl <;> cases hread
    · obtain ⟨d, hfrom, -⟩ := h
      exact hload hfrom.load
  write address hwrite := by
    rcases hm with rfl | rfl <;> cases hwrite

section Access

variable {r : Option Address} (haddress : ∀ address, r = some address ↔
  ∃ d, o = .inst d ∧ f.ComputesKnown d ∧ f.operandsOf d = address)
include haddress

theorem classifies_load (hop : f.op? i = some .load) (hslot : f.slot ⟨i, 0⟩ = some o) :
    f.Classifies i (r.elim .none .read) := by
  have hread : ∀ address, r = some address ↔
      ∃ d, f.LoadsFrom i d ∧ f.ComputesKnown d ∧ f.operandsOf d = address := by
    intro address
    rw [haddress]
    refine exists_congr fun d => and_congr_left fun hknown => ?_
    constructor
    · intro ho
      exact ⟨hop, ho ▸ hslot, hknown.1.1⟩
    · intro hload
      exact Option.some.inj (hslot.symm.trans hload.operand)
  refine ⟨?_, fun address => ?_, ?_⟩
  · cases r <;> simp [Clobbers, hop]
  · rw [← hread]
    cases r <;> simp
  · cases r <;> simp

theorem classifies_store (hop : f.op? i = some .store) (hslot : f.slot ⟨i, 1⟩ = some o) :
    f.Classifies i (r.elim .clobber .write) := by
  have hclobbers : f.Clobbers i ↔ ¬∃ d, o = .inst d ∧ f.ComputesKnown d := by
    simp [Clobbers, hop, hslot]
  have hread : ∀ address, ¬∃ d, f.LoadsFrom i d ∧ f.ComputesKnown d ∧ f.operandsOf d = address := by
    intro address h
    obtain ⟨d, hload, -⟩ := h
    cases hop.symm.trans hload.load
  cases r with
  | none =>
    refine ⟨iff_of_true rfl (hclobbers.mpr fun h => ?_), fun address => iff_of_false (by simp)
      (hread address), by simp⟩
    obtain ⟨d, ho, hknown⟩ := h
    cases (haddress _).mpr ⟨d, ho, hknown, rfl⟩
  | some address =>
    obtain ⟨d, rfl, hknown, hk⟩ := (haddress address).mp rfl
    refine ⟨iff_of_false (by simp) fun h => hclobbers.mp h ⟨d, rfl, hknown⟩, fun address =>
      iff_of_false (by simp) (hread address), fun address' heq => ?_⟩
    obtain rfl := MemoryEffect.write.inj heq
    exact ⟨hop, d, hslot, hknown.1, hk⟩

end Access

theorem memoryEffect_spec (hz : f.bare? i = some z) (hlen : z.op.takes z.operands.length)
    (hreads : ¬z.op.isPhi → ∀ o ∈ z.operands, f.Readable o) :
    ∃ m, f.memoryEffect i = .ok m ∧ f.Classifies i m := by
  obtain ⟨⟨op, ty, os, uses, home, erased⟩, hw, rfl⟩ := bare?_eq_some_iff.mp hz
  have hop := op?_of_inst hw
  have hslot : ∀ k, f.slot ⟨i, k⟩ = os[k]? := by
    intro k
    rw [slot, operandsOf_of_inst hw]
  simp only [memoryEffect, operand, hw, bind, Except.bind]
  -- a store has its address second, after the value
  cases op with
  | load =>
    obtain ⟨o, rfl⟩ := List.length_eq_one_iff.mp (of_decide_eq_true hlen)
    obtain ⟨r, hr, haddress⟩ :=
      knownAddress?_spec (hreads Bool.false_ne_true o List.mem_cons_self)
    refine ⟨_, ?_, classifies_load haddress hop (hslot 0)⟩
    simp only [List.getElem?_cons_zero, Checked.ofOption, hr]
    cases r <;> rfl
  | store =>
    obtain ⟨v, o, rfl⟩ := List.length_eq_two.mp (of_decide_eq_true hlen)
    obtain ⟨r, hr, haddress⟩ :=
      knownAddress?_spec (hreads Bool.false_ne_true o (by simp [Instruction.bare]))
    refine ⟨_, ?_, classifies_store haddress hop (hslot 1)⟩
    simp only [List.getElem?_cons_succ, List.getElem?_cons_zero, Checked.ofOption, hr]
    cases r <;> rfl
  | call callee =>
    refine ⟨.clobber, rfl, classifies_other ?_ ?_ (.inr rfl) ?_⟩ <;> simp [hop]
  | _ =>
    refine ⟨.none, rfl, classifies_other ?_ ?_ (.inl rfl) ?_⟩ <;> simp [hop]

/-! ## The whole function -/

/-- Every placed instruction has the operands that it takes, and reads only such instructions. -/
def Legible (f : Func) : Prop :=
  ∀ {b i}, i ∈ f.listOf b → ∃ z, f.bare? i = some z ∧ z.op.takes z.operands.length ∧
    ∀ o ∈ z.operands, f.Readable o

theorem LaidOut.legible (hlayout : f.LaidOut) (hf : f.Valid) (htied : f.Tied) : f.Legible := by
  intro b i hi
  obtain ⟨z, hz, hlive⟩ := hf.exists_live hi
  refine ⟨z, hz, hlayout hz hlive, fun o ho d hd => ?_⟩
  have hread : d ∈ f.reads i := (mem_reads_iff_of_bare hz).mpr (hd ▸ ho)
  obtain ⟨w, hw, hw'⟩ := live_iff.mp ((htied.linked hi).reads d hread)
  exact ⟨w, hw, hlayout hw hw'⟩

theorem anyClobbers_spec (hf : f.Legible) : ∀ {is : List InstId}, (∀ i ∈ is, i ∈ f.listOf b) →
    ∃ r, f.anyClobbers is = .ok r ∧ (r = true ↔ ∃ i ∈ is, f.Clobbers i) := by
  intro is
  induction is with
  | nil => exact fun _ => ⟨false, rfl, by simp⟩
  | cons i is ih =>
    intro his
    obtain ⟨z, hz, hlen, hreads⟩ := hf (his i List.mem_cons_self)
    obtain ⟨m, hm, hclass⟩ := memoryEffect_spec hz hlen fun _ => hreads
    have hclobber := hclass.clobber
    obtain ⟨r, hr, hrest⟩ := ih fun j hj => his j (List.mem_cons_of_mem _ hj)
    simp only [anyClobbers, hm, bind, Except.bind]
    by_cases h : m = .clobber
    · rw [if_pos h]
      exact ⟨true, rfl, by simp [hclobber.mp h]⟩
    · rw [if_neg h]
      refine ⟨r, hr, ?_⟩
      rw [hclobber] at h
      simp [hrest, h]

theorem clobberBlocks_spec (hf : f.Legible) :
    ∃ bs, f.clobberBlocks = .ok bs ∧ ∀ b, b ∈ bs ↔ ∃ i ∈ f.listOf b, f.Clobbers i := by
  have htest : ∀ b ∈ f.blockIds, ∃ r, (do f.anyClobbers (← f.block b).insts) = .ok r ∧
      (r = true ↔ ∃ i ∈ f.listOf b, f.Clobbers i) := by
    intro b hb
    have hlt : b.index < f.blocks.size := BlockId.mem_upTo.mp hb
    have hy := block_eq_ok_iff.mpr (Array.getElem?_eq_getElem hlt)
    obtain ⟨r, hr, hclobbers⟩ := anyClobbers_spec hf (b := b) fun i hi => hi
    rw [listOf_of_block hy] at hr hclobbers
    exact ⟨r, bind_eq_ok_iff.mpr ⟨_, hy, hr⟩, by rwa [listOf_of_block hy]⟩
  obtain ⟨bs, hbs⟩ := exists_filterM fun b hb => (htest b hb).imp fun r hr => hr.1
  refine ⟨bs, hbs, fun b => ?_⟩
  rw [mem_filterM hbs]
  constructor
  · intro h
    obtain ⟨hmem, htrue⟩ := h
    obtain ⟨r, hr, hiff⟩ := htest b hmem
    exact hiff.mp (Except.ok.inj (hr.symm.trans htrue))
  · intro h
    obtain ⟨i, hi, hclobbers⟩ := h
    have hmem : b ∈ f.blockIds := BlockId.mem_upTo.mpr (lt_numBlocks_of_mem hi)
    obtain ⟨r, hr, hiff⟩ := htest b hmem
    obtain rfl := hiff.mpr ⟨i, hi, hclobbers⟩
    exact ⟨hmem, hr⟩

/-- The address that an instruction stores to, known or not. -/
theorem storedAddress?_spec (hf : f.Legible) (hi : i ∈ f.listOf b) :
    ∃ r, f.storedAddress? i = .ok r ∧ ∀ address, r = some address ↔ f.StoresTo i address := by
  obtain ⟨z, hz, hlen, hreads⟩ := hf hi
  obtain ⟨⟨op, ty, os, uses, home, erased⟩, hw, rfl⟩ := bare?_eq_some_iff.mp hz
  have hop := op?_of_inst hw
  simp only [storedAddress?, operand, hw, bind, Except.bind]
  cases op with
  | store =>
    obtain ⟨v, o, rfl⟩ := List.length_eq_two.mp (of_decide_eq_true hlen)
    have hslot : f.slot ⟨i, 1⟩ = some o := by simp [slot, operandsOf_of_inst hw]
    simp only [List.getElem?_cons_succ, List.getElem?_cons_zero, Checked.ofOption]
    cases o with
    | inst d =>
      obtain ⟨w, hd, -⟩ := hreads (.inst d) (by simp [Instruction.bare]) d rfl
      obtain ⟨y, hy, -⟩ := bare?_eq_some_iff.mp hd
      simp only [addressOf?, hy, bind, Except.bind]
      refine ⟨_, rfl, fun address => ?_⟩
      simp [StoresTo, hop, hslot, op?_of_inst hy, operandsOf_of_inst hy]
    | arg | global | lit => exact ⟨none, rfl, by simp [StoresTo, hslot]⟩
  | _ => exact ⟨none, rfl, by simp [StoresTo, hop]⟩

/-- The known address that an instruction computes. -/
theorem computedAddress?_spec (hf : f.Legible) (hi : i ∈ f.listOf b) :
    ∃ r, f.computedAddress? i = .ok r ∧
      ∀ address, r = some address ↔ f.ComputesKnown i ∧ f.operandsOf i = address := by
  obtain ⟨z, hz, hlen, -⟩ := hf hi
  obtain ⟨⟨op, ty, os, uses, home, erased⟩, hw, rfl⟩ := bare?_eq_some_iff.mp hz
  have hop := op?_of_inst hw
  have hoperands := operandsOf_of_inst hw
  simp only [computedAddress?, hw, bind, Except.bind]
  cases op with
  | elementPtr =>
    obtain ⟨base, indices, rfl⟩ := List.exists_cons_of_length_pos (of_decide_eq_true hlen)
    refine ⟨_, rfl, fun address => ?_⟩
    simp [ComputesKnown, hop, hoperands]
  | _ => exact ⟨none, rfl, by simp [ComputesKnown, hop]⟩

/-- What a test finds in the instructions that stand in blocks. -/
theorem placed_filterMapM {α : Type} {test : InstId → Checked (Option α)} {Q : InstId → α → Prop}
    (h : ∀ {b i}, i ∈ f.listOf b → ∃ r, test i = .ok r ∧ ∀ v, r = some v ↔ Q i v) :
    ∃ vs, f.placed.filterMapM test = .ok vs ∧ ∀ v, v ∈ vs ↔ ∃ b, ∃ i ∈ f.listOf b, Q i v := by
  obtain ⟨vs, hvs⟩ := exists_filterMapM fun i hi => by
    obtain ⟨b, hb⟩ := mem_placed_iff.mp hi
    exact (h hb).imp fun r hr => hr.1
  refine ⟨vs, hvs, fun v => ?_⟩
  rw [mem_filterMapM hvs]
  constructor
  · intro h
    obtain ⟨i, hi, hsome⟩ := h
    obtain ⟨b, hb⟩ := mem_placed_iff.mp hi
    obtain ⟨r, hr, hiff⟩ := h hb
    exact ⟨b, i, hb, (hiff v).mp (Except.ok.inj (hr.symm.trans hsome))⟩
  · intro h
    obtain ⟨b, i, hb, hi⟩ := h
    obtain ⟨r, hr, hiff⟩ := h hb
    exact ⟨i, mem_placed_iff.mpr ⟨b, hb⟩, hr.trans (congrArg _ ((hiff v).mpr hi))⟩

/-- The known addresses that are computed, less those that are stored to. -/
theorem eligibleAddresses_spec (hf : f.Legible) : ∃ as, f.eligibleAddresses = .ok as ∧
    ∀ address, address ∈ as ↔
      (∃ b, ∃ d ∈ f.listOf b, f.ComputesKnown d ∧ f.operandsOf d = address) ∧
        ∀ {b i}, i ∈ f.listOf b → ¬f.StoresTo i address := by
  obtain ⟨computed, hcomputed, hmem⟩ := placed_filterMapM (computedAddress?_spec hf)
  obtain ⟨stored, hstored, hmem'⟩ := placed_filterMapM (storedAddress?_spec hf)
  refine ⟨_, bind_eq_ok_iff.mpr ⟨computed, hcomputed,
    bind_eq_ok_iff.mpr ⟨stored, hstored, rfl⟩⟩, fun address => ?_⟩
  rw [List.mem_filter, decide_eq_true_eq, hmem, hmem']
  refine and_congr_right fun _ => ⟨fun h b i hi hstores => h ⟨b, i, hi, hstores⟩, ?_⟩
  intro h ⟨b, i, hi, hstores⟩
  exact h hi hstores

end Func

end SsaOpt
