import SsaOpt.Proofs.Execution

/-! The equations of static single assignment. Wherever a pure instruction is available, its
register holds what its operands, as they are at that moment, compute: control cannot come back to
an operand without coming back to the instruction. -/

namespace SsaOpt

namespace Func

open Interpretation

variable {f : Func} {a b p : BlockId} {pre post : List InstId} {i d e : InstId} {x : Instruction}

/-! ## Availability -/

theorem Avail.mono {pre' : List InstId} (h : f.Avail b pre d) (hpre : ∀ i ∈ pre, i ∈ pre') :
    f.Avail b pre' d :=
  h.imp_left (hpre d)

/-- At the end of a block everything in the blocks that dominate it is available. -/
theorem avail_end_of_dom (hd : d ∈ f.listOf a) (hdom : f.Dom a p) : f.Avail p (f.listOf p) d := by
  by_cases hap : a = p
  · exact .inl (hap ▸ hd)
  · exact .inr ⟨a, hd, hap, hdom⟩

/-- What strictly dominates a block is left before control comes to it. -/
theorem avail_end_of_edge (hp : f.Reached p) (hedge : f.Edge p b) (hd : d ∈ f.listOf a)
    (hne : a ≠ b) (hdom : f.Dom a b) : f.Avail p (f.listOf p) d :=
  avail_end_of_dom hd (hdom.of_step hne hp hedge)

theorem mem_reads_iff_of_bare (h : f.bare? i = some x) : d ∈ f.reads i ↔ .inst d ∈ x.operands := by
  have hinst : ∀ o : Operand, o.inst? = some d ↔ o = .inst d := by
    rintro (_ | _ | _ | _) <;> simp [Operand.inst?]
  simp [reads_eq, operandsOf, h, hinst]

theorem isPhi_of_bare (h : f.bare? i = some x) : f.isPhi i = x.op.isPhi := by
  simp [isPhi_eq, op?, h]

namespace Valid

variable (hf : f.Valid)
include hf

theorem not_avail_next (hb : f.listOf b = pre ++ i :: post) : ¬f.Avail b pre i := by
  have hnodup := hf.consistent.list_nodup b
  rw [hb] at hnodup
  have hmem : i ∈ f.listOf b := by simp [hb]
  rintro (hi | ⟨home, hi, hne, -⟩)
  · exact List.disjoint_of_nodup_append hnodup hi List.mem_cons_self
  · exact hne (hf.consistent.home_unique hi hmem)

/-- What an available instruction reads is available. -/
theorem avail_operand (hr : f.Reached b) (hb : f.listOf b = pre ++ post) (hd : f.Avail b pre d)
    (hphi : ¬f.isPhi d) (he : e ∈ f.reads d) : f.Avail b pre e := by
  rcases hd with hd | ⟨home, hd, hne, hdom⟩
  · obtain ⟨front, back, rfl⟩ := List.append_of_mem hd
    have hb' : f.listOf b = front ++ d :: (back ++ post) := by simp [hb]
    exact (hf.reads hr hb' hphi he).mono fun i hi => List.mem_append_left _ hi
  · obtain ⟨front, back, hsplit⟩ := List.append_of_mem hd
    rcases hf.reads hdom.reaches_left hsplit hphi he with he | ⟨a, he, hne', hdom'⟩
    · exact .inr ⟨home, by simp [hsplit, he], hne, hdom⟩
    · refine .inr ⟨a, he, ?_, hdom'.trans hdom⟩
      rintro rfl
      exact hne (hdom.antisymm hdom')

/-- What an instruction of a strictly dominating block reads, stands in such a block too. -/
theorem home_ne_of_dom (hd : d ∈ f.listOf a) (hne : a ≠ b) (hdom : f.Dom a b)
    (hphi : ¬f.isPhi d) (he : e ∈ f.reads d) : e ∉ f.listOf b := by
  intro heb
  have hd' : f.Avail b [] d := .inr ⟨a, hd, hne, hdom⟩
  rcases hf.avail_operand hdom.1 (List.nil_append _).symm hd' hphi he with he' | ⟨c, hc, hne', -⟩
  · cases he'
  · exact hne' (hf.consistent.home_unique hc heb)

end Valid

/-! ## Equations -/

/-- Every pure instruction that is available holds what its operands compute. -/
def Sound (I : Interpretation) (f : Func) (args : Nat → I.Value) (b : BlockId)
    (pre : List InstId) (regs : InstId → I.Value) : Prop :=
  ∀ d x, f.Avail b pre d → f.bare? d = some x → x.op.isPure →
    I.compute x.op x.ty (I.inputs args regs x) = some (regs d)

variable {I : Interpretation} {args : Nat → I.Value} {regs regs' : InstId → I.Value}

theorem inputs_congr (h : ∀ d, .inst d ∈ x.operands → regs' d = regs d) :
    I.inputs args regs' x = I.inputs args regs x := by
  refine List.map_congr_left fun o ho => ?_
  cases o with
  | inst d => exact h d ho
  | arg | global | lit => rfl

theorem not_isPhi_of_isPure {op : Opcode} (h : op.isPure) : ¬op.isPhi := by
  cases op <;> simp_all [Opcode.isPure, Opcode.isPhi]

theorem Avail.ne_of_next (hf : f.Valid) (hb : f.listOf b = pre ++ i :: post)
    (hd : f.Avail b pre d) : d ≠ i := by
  rintro rfl
  exact hf.not_avail_next hb hd

/-- The next instruction is executed: its own equation begins to hold, and no other is about its
register. -/
theorem Sound.write {s : I.State} {v : I.Value} {m : I.Memory} (hf : f.Valid) (hr : f.Reached b)
    (hb : f.listOf b = pre ++ i :: post) (hphi : ¬f.isPhi i)
    (hs : Sound I f args b pre s.regs) (hx : f.bare? i = some x)
    (hv : x.op.isPure → I.compute x.op x.ty (I.inputs args s.regs x) = some v) :
    Sound I f args b (pre ++ [i]) (s.write i v m).regs := by
  have hkeep : ∀ d, f.Avail b pre d → (s.write i v m).regs d = s.regs d := by
    intro d hd
    simp [State.write, hd.ne_of_next hf hb]
  intro d y hd hy hpure
  by_cases hdi : d = i
  · subst hdi
    obtain rfl := Option.some.inj (hx.symm.trans hy)
    rw [inputs_congr fun e he =>
      hkeep e (hf.reads hr hb hphi ((mem_reads_iff_of_bare hx).mpr he)), hv hpure]
    simp [State.write]
  · have hd' : f.Avail b pre d := hd.imp_left fun h => by simpa [hdi] using h
    have hphi' : ¬f.isPhi d := by
      rw [isPhi_of_bare hy]
      exact not_isPhi_of_isPure hpure
    rw [hkeep d hd', inputs_congr fun e he =>
      hkeep e (hf.avail_operand hr hb hd' hphi' ((mem_reads_iff_of_bare hy).mpr he))]
    exact hs d y hd' hy hpure

theorem enter_regs_of_not_mem {origin : Option BlockId} {s : I.State} (hd : d ∉ f.listOf b) :
    (f.enter I args origin b s).regs d = s.regs d := by
  simp [enter, hd]

/-- Control takes an edge: no equation that still holds is about a phi of the block entered. -/
theorem Sound.enter {s : I.State} (hf : f.Valid) (hp : f.Reached p) (hedge : f.Edge p b)
    (hs : Sound I f args p (f.listOf p) s.regs) :
    Sound I f args b ((f.listOf b).filter f.isPhi) (f.enter I args (some p) b s).regs := by
  intro d x hd hx hpure
  have hphi : ¬f.isPhi d := by
    rw [isPhi_of_bare hx]
    exact not_isPhi_of_isPure hpure
  rcases hd with hd | ⟨a, hd, hne, hdom⟩
  · exact absurd (List.mem_filter.mp hd).2 hphi
  · have hdb : d ∉ f.listOf b := fun h => hne (hf.consistent.home_unique hd h)
    rw [enter_regs_of_not_mem hdb, inputs_congr fun e he => enter_regs_of_not_mem
      (hf.home_ne_of_dom hd hne hdom hphi ((mem_reads_iff_of_bare hx).mpr he))]
    exact hs d x (avail_end_of_edge hp hedge hd hne hdom) hx hpure

/-- When a call begins, no pure instruction is available. -/
theorem Sound.start {regs : InstId → I.Value} :
    Sound I f args .entry ((f.listOf .entry).filter f.isPhi) regs := by
  intro d x hd hx hpure
  rcases hd with hd | ⟨a, -, hne, hdom⟩
  · have hphi := (List.mem_filter.mp hd).2
    rw [isPhi_of_bare hx] at hphi
    exact absurd hphi (not_isPhi_of_isPure hpure)
  · exact absurd (hdom.antisymm (.root_dominates hdom.reaches_left)) hne

end Func

end SsaOpt
