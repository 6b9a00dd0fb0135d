import SsaOpt.Proofs.Consistency
import SsaOpt.Proofs.Dominance
import SsaOpt.WellFormed

/-! Well-formed functions, said in terms of paths: what an accepted function promises about the
shape of its blocks and about the values that are defined at each of its points. -/

namespace SsaOpt

namespace Func

variable {f : Func} {i d : InstId} {a b : BlockId} {pre post : List InstId}

def op? (f : Func) (i : InstId) : Option Opcode := (f.bare? i).map Instruction.op

/-- The instruction ends its block. -/
def ends (f : Func) (i : InstId) : Bool := (f.op? i).any Opcode.isTerminator

/-- The instruction exists and is not erased. -/
def live (f : Func) (i : InstId) : Bool := (f.bare? i).any fun x => !x.erased

/-- Control can come to the block. -/
def Reached (f : Func) (b : BlockId) : Prop := Reaches f.Edge .entry b

/-- Every path to `b` passes through `a`. -/
def Dom (f : Func) (a b : BlockId) : Prop := Dominates f.Edge .entry a b

/-- `d` is defined when control is in `b` after the instructions `pre`: it is one of them, or it
stands in a block that strictly dominates `b`. -/
def Avail (f : Func) (b : BlockId) (pre : List InstId) (d : InstId) : Prop :=
  d ∈ pre ∨ ∃ home, d ∈ f.listOf home ∧ home ≠ b ∧ f.Dom home b

/-- A well-formed body: phis, then other instructions, then one terminator in every block, and
every value read is defined where it is read. Unreachable blocks may read anything. -/
structure Valid (f : Func) : Prop where
  consistent : f.Consistent
  target_lt : ∀ {a b}, f.Edge a b → b.index < f.numBlocks
  entry_lt : 0 < f.numBlocks
  list_ne_nil : ∀ {b}, b.index < f.numBlocks → f.listOf b ≠ []
  live : ∀ {b i x}, i ∈ f.listOf b → f.bare? i = some x → x.erased = false
  phis_first : ∀ {b pre i post}, f.listOf b = pre ++ i :: post → f.isPhi i → ∀ j ∈ pre, f.isPhi j
  ends_iff : ∀ {b pre i post}, f.listOf b = pre ++ i :: post → (f.ends i = true ↔ post = [])
  reads : ∀ {b pre i post d}, f.Reached b → f.listOf b = pre ++ i :: post → ¬f.isPhi i →
    d ∈ f.reads i → f.Avail b pre d
  incoming : ∀ {b i op bs k p d}, f.Reached b → i ∈ f.listOf b → f.op? i = some op →
    op.incoming? = some bs → bs[k]? = some p → f.slot ⟨i, k⟩ = some (.inst d) → f.Reached p →
    ∃ home, d ∈ f.listOf home ∧ f.Dom home p

/-- What is left of a well-formed body when the order within blocks is forgotten: every block ends
in its one terminator, and what is read stands in a block that dominates the block of the reader.
Unreachable blocks may read anything. -/
structure Housed (f : Func) : Prop where
  consistent : f.Consistent
  target_lt : ∀ {a b}, f.Edge a b → b.index < f.numBlocks
  entry_lt : 0 < f.numBlocks
  list_ne_nil : ∀ {b}, b.index < f.numBlocks → f.listOf b ≠ []
  ends_iff : ∀ {b pre i post}, f.listOf b = pre ++ i :: post → (f.ends i = true ↔ post = [])
  home_dom : ∀ {b i d}, f.Reached b → i ∈ f.listOf b → ¬f.isPhi i → d ∈ f.reads i →
    ∃ home, d ∈ f.listOf home ∧ f.Dom home b

/-! ## Views -/

theorem op?_of_inst {x : Instruction} (h : f.inst i = .ok x) : f.op? i = some x.op := by
  simp [op?, bare?_of_inst h, Instruction.bare]

theorem op?_eq_some_iff {op : Opcode} :
    f.op? i = some op ↔ ∃ x, f.inst i = .ok x ∧ x.op = op := by
  simp [op?, bare?, inst_eq_ok_iff, Instruction.bare]

theorem isPhi_eq : f.isPhi i = (f.op? i).any Opcode.isPhi := by
  simp only [isPhi, op?, bare?]
  cases f.insts[i.index]? <;> rfl

theorem ends_eq_true_iff : f.ends i = true ↔ ∃ op, f.op? i = some op ∧ op.isTerminator := by
  cases h : f.op? i <;> simp [ends, h]

theorem live_of_inst {x : Instruction} (h : f.inst i = .ok x) : f.live i = !x.erased := by
  simp [live, bare?_of_inst h, Instruction.bare]

theorem live_iff : f.live i = true ↔ ∃ x, f.bare? i = some x ∧ x.erased = false := by
  cases h : f.bare? i <;> simp [live, h]

theorem not_isPhi_of_ends (h : f.ends i) : ¬f.isPhi i := by
  rw [isPhi_eq]
  rw [ends] at h
  cases hop : f.op? i with
  | none => simp
  | some op =>
    rw [hop] at h
    cases op <;> simp_all [Opcode.isTerminator, Opcode.isPhi]

theorem isTerminator_of_mem_successors {op : Opcode} (h : b ∈ op.successors) :
    op.isTerminator := by
  cases op <;> simp_all [Opcode.successors, Opcode.isTerminator]

/-- Control leaves a block as its last instruction says. -/
theorem successors_of_last {t : InstId} {op : Opcode} (hlast : (f.listOf b).getLast? = some t)
    (hop : f.op? t = some op) : f.successors b = .ok op.successors := by
  obtain ⟨y, hy⟩ := exists_block_of_mem (List.mem_of_getLast? hlast)
  rw [listOf_of_block hy] at hlast
  obtain ⟨x, hx, rfl⟩ := op?_eq_some_iff.mp hop
  simp only [successors, terminator?, hy, bind, Except.bind, hlast, hx, pure, Except.pure]
  by_cases hterm : x.op.isTerminator = true
  · rw [if_pos hterm]
    simp only [hx]
  · rw [if_neg hterm]
    have hnone : x.op.successors = [] :=
      List.eq_nil_iff_forall_not_mem.mpr fun c hc => hterm (isTerminator_of_mem_successors hc)
    rw [hnone]

theorem Consistent.exists_successors (hf : f.Consistent) (hb : b.index < f.numBlocks) :
    ∃ targets, f.successors b = .ok targets := by
  cases hlast : (f.listOf b).getLast? with
  | none =>
    obtain ⟨y, hy⟩ := exists_block hb
    rw [listOf_of_block hy] at hlast
    exact ⟨[], by simp only [successors, terminator?, hy, bind, Except.bind, hlast]; rfl⟩
  | some t =>
    obtain ⟨x, hx⟩ := hf.bare?_of_mem (List.mem_of_getLast? hlast)
    exact ⟨x.op.successors, successors_of_last hlast (by simp [op?, hx])⟩

theorem edge_iff : f.Edge a b ↔
    ∃ t op, (f.listOf a).getLast? = some t ∧ f.op? t = some op ∧ b ∈ op.successors := by
  constructor
  · rintro ⟨targets, h, hb⟩
    obtain ⟨t?, ht, h⟩ := bind_eq_ok_iff.mp h
    obtain ⟨y, hy, ht⟩ := bind_eq_ok_iff.mp ht
    rw [listOf_of_block hy]
    cases hlast : y.insts.getLast? with
    | none =>
      rw [hlast] at ht
      obtain rfl := pure_eq_ok_iff.mp ht
      obtain rfl := pure_eq_ok_iff.mp h
      simp at hb
    | some t =>
      rw [hlast] at ht
      obtain ⟨x, hx, ht⟩ := bind_eq_ok_iff.mp ht
      obtain rfl := pure_eq_ok_iff.mp ht
      split at h
      · obtain rfl := pure_eq_ok_iff.mp h
        simp at hb
      · next t' ht' =>
        split at ht'
        · obtain rfl := Option.some.inj ht'
          obtain ⟨x', hx', h⟩ := bind_eq_ok_iff.mp h
          obtain rfl := pure_eq_ok_iff.mp h
          exact ⟨t, x'.op, rfl, op?_of_inst hx', hb⟩
        · cases ht'
  · rintro ⟨t, op, hlast, hop, hb⟩
    exact ⟨op.successors, successors_of_last hlast hop, hb⟩

theorem lt_numBlocks_of_mem (h : i ∈ f.listOf b) : b.index < f.numBlocks := by
  obtain ⟨y, hy⟩ := exists_block_of_mem h
  exact (Array.getElem?_eq_some_iff.mp (block_eq_ok_iff.mp hy)).1

/-- A function whose control gets beyond the entry has a body. -/
theorem Reached.numBlocks_pos (hb : f.Reached b) (hne : b ≠ .entry) : 0 < f.numBlocks := by
  obtain ⟨p, hp⟩ := hb
  rcases hp.last_step with ⟨hentry, -⟩ | ⟨a, q, -, hedge, -⟩
  · exact absurd hentry hne
  · exact Nat.zero_lt_of_lt hedge.source_lt

/-- What is true of the instructions of all blocks that exist is true of all placed ones. -/
theorem forall_placed {P : InstId → Prop} (h : ∀ b ∈ f.blockIds, ∀ i ∈ f.listOf b, P i) :
    ∀ b, ∀ i ∈ f.listOf b, P i :=
  fun b i hi => h b (BlockId.mem_upTo.mpr (lt_numBlocks_of_mem hi)) i hi

theorem incoming?_eq_none_iff {op : Opcode} : op.incoming? = none ↔ ¬op.isPhi := by
  cases op <;> simp [Opcode.incoming?, Opcode.isPhi]

theorem isPhi_of_incoming {op : Opcode} {bs : List BlockId} (hop : f.op? i = some op)
    (hbs : op.incoming? = some bs) : f.isPhi i := by
  rw [isPhi_eq, hop]
  by_contra hnot
  rw [incoming?_eq_none_iff.mpr hnot] at hbs
  cases hbs

theorem Valid.exists_live (hf : f.Valid) (hi : i ∈ f.listOf b) :
    ∃ x, f.bare? i = some x ∧ x.erased = false := by
  obtain ⟨x, hx⟩ := hf.consistent.bare?_of_mem hi
  exact ⟨x, hx, hf.live hi hx⟩

theorem Valid.housed (hf : f.Valid) : f.Housed := by
  refine ⟨hf.consistent, hf.target_lt, hf.entry_lt, hf.list_ne_nil, hf.ends_iff, ?_⟩
  intro b i d hb hi hphi hd
  obtain ⟨pre, post, hsplit⟩ := List.append_of_mem hi
  rcases hf.reads hb hsplit hphi hd with hpre | ⟨home, hhome, -, hdom⟩
  · exact ⟨b, by simp [hsplit, hpre], .refl hb⟩
  · exact ⟨home, hhome, hdom⟩

theorem Housed.lt_numBlocks (hf : f.Housed) (hb : f.Reached b) : b.index < f.numBlocks := by
  obtain ⟨p, hp⟩ := hb
  cases hp with
  | start => exact hf.entry_lt
  | step _ hedge => exact hf.target_lt hedge

theorem Valid.lt_numBlocks (hf : f.Valid) (hb : f.Reached b) : b.index < f.numBlocks :=
  hf.housed.lt_numBlocks hb

/-- A block is its phis and then the rest. -/
theorem Valid.list_eq (hf : f.Valid) (b : BlockId) :
    f.listOf b = (f.listOf b).filter f.isPhi ++ (f.listOf b).filter fun i => !f.isPhi i := by
  have hsplit : ∀ l : List InstId,
      (∀ pre i post, l = pre ++ i :: post → f.isPhi i → ∀ j ∈ pre, f.isPhi j) →
      l = l.filter f.isPhi ++ l.filter fun i => !f.isPhi i := by
    intro l
    induction l with
    | nil => exact fun _ => rfl
    | cons i l ih =>
      intro hl
      by_cases hi : f.isPhi i
      · have hrest := ih fun pre j post heq hj k hk =>
          hl (i :: pre) j post (by rw [heq]; rfl) hj k (List.mem_cons_of_mem _ hk)
        simpa [hi] using hrest
      · have hnone : ∀ j ∈ l, ¬f.isPhi j := by
          intro j hj hphi
          obtain ⟨front, back, rfl⟩ := List.append_of_mem hj
          exact hi (hl (i :: front) j back rfl hphi i List.mem_cons_self)
        rw [List.filter_cons_of_neg hi, List.filter_eq_nil_iff.mpr hnone, List.nil_append]
        refine (List.filter_eq_self.mpr fun j hj => ?_).symm
        rcases List.mem_cons.mp hj with rfl | hj
        · simpa using hi
        · simpa using hnone j hj
  exact hsplit _ fun _ _ _ => hf.phis_first

end Func

end SsaOpt
