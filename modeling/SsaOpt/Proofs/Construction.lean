import Mathlib.Data.List.TakeWhile
import SsaOpt.Proofs.Acceptance

/-! What construction steps record besides the instructions.

A step changes nothing of the shape of a function, or it emits one instruction. From that follow two
invariants. A phi is emitted behind the phis of its block and anything else at the end, so the phis
of a block come first, in the order of their creation. And the predecessors of a block are the
blocks where an instruction was emitted that goes there, each recorded once. In a function that was
accepted, only the last instruction of a block goes anywhere, so what was recorded is what the
analysis finds. -/

namespace SsaOpt

namespace Func

variable {f g h : Func} {i j : InstId} {b c p : BlockId} {op : Opcode} {ty : Ty}
  {front back : List InstId} {dests : List BlockId}

/-- The predecessors recorded on a block. -/
def predsOf (f : Func) (b : BlockId) : List BlockId := f.blocks[b.index]?.elim [] BasicBlock.preds

/-- Where an instruction may pass control. -/
def targetsOf (f : Func) (i : InstId) : List BlockId := (f.op? i).elim [] Opcode.successors

/-- The terminator of `p` goes to `b`. -/
def goesTo (f : Func) (p b : BlockId) : Bool :=
  match f.terminator? p with
  | .ok (some t) => b ∈ f.targetsOf t
  | _ => false

theorem goesTo_iff : f.goesTo p b = true ↔ f.Edge p b := by
  unfold goesTo Edge successors
  cases f.terminator? p with
  | error fault => simp [bind, Except.bind]
  | ok t? =>
    cases t? with
    | none => simp [bind, Except.bind, pure, Except.pure]
    | some t =>
      cases ht : f.inst t with
      | error fault =>
        have hop : f.op? t = none := by
          refine Option.eq_none_iff_forall_ne_some.mpr fun op hop => ?_
          obtain ⟨x, hx, -⟩ := op?_eq_some_iff.mp hop
          cases ht.symm.trans hx
        simp [bind, Except.bind, targetsOf, hop, ht]
      | ok x => simp [bind, Except.bind, pure, Except.pure, targetsOf, op?_of_inst ht, ht]

/-! ## Recording predecessors -/

theorem predsOf_of_block {x : BasicBlock} (hx : f.block b = .ok x) : f.predsOf b = x.preds := by
  simp [predsOf, block_eq_ok_iff.mp hx]

theorem predsOf_modifyBlock {w : BasicBlock → BasicBlock} {k : List BlockId → List BlockId}
    (hw : ∀ x, (w x).preds = k x.preds) {x : BasicBlock} (hx : f.block b = .ok x) :
    (f.modifyBlock b w).predsOf c = if b = c then k (f.predsOf c) else f.predsOf c := by
  have hx := block_eq_ok_iff.mp hx
  obtain ⟨b⟩ := b
  obtain ⟨c⟩ := c
  simp only [predsOf, modifyBlock, Array.getElem?_modify, BlockId.mk.injEq]
  split
  · next hbc => subst hbc; simp [hx, hw]
  · rfl

theorem predsOf_relisted {w : List InstId → List InstId} {k : Instruction → Instruction} :
    ((f.modifyBlock b fun x => { x with insts := w x.insts }).modifyInst i k).predsOf c =
      f.predsOf c := by
  simp only [predsOf, modifyBlock, modifyInst, Array.getElem?_modify]
  split
  · cases f.blocks[c.index]? <;> rfl
  · rfl

/-- `p` was recorded as a predecessor of the destinations, once of each. -/
structure Joined (f : Func) (p : BlockId) (dests : List BlockId) (g : Func) : Prop where
  insts : g.insts = f.insts
  lists : ∀ c, g.listOf c = f.listOf c
  nodup : ∀ c, (f.predsOf c).Nodup → (g.predsOf c).Nodup
  mem_preds : ∀ q c, q ∈ g.predsOf c ↔ q ∈ f.predsOf c ∨ q = p ∧ c ∈ dests

theorem joined_nil (f : Func) (p : BlockId) : Joined f p [] f :=
  ⟨rfl, fun _ => rfl, fun _ hc => hc, by simp⟩

theorem Joined.trans {more : List BlockId} (hg : Joined f p dests g)
    (hh : Joined g p more h) : Joined f p (dests ++ more) h where
  insts := hh.insts.trans hg.insts
  lists c := (hh.lists c).trans (hg.lists c)
  nodup c hc := hh.nodup c (hg.nodup c hc)
  mem_preds q c := by
    rw [hh.mem_preds, hg.mem_preds, List.mem_append]
    tauto

theorem joined_of_addPred (hg : f.addPred b p = .ok g) : Joined f p [b] g := by
  obtain ⟨x, hx, hg⟩ := bind_eq_ok_iff.mp hg
  have hpreds := predsOf_of_block hx
  split at hg
  · next hmem =>
    obtain rfl := pure_eq_ok_iff.mp hg
    refine ⟨rfl, fun _ => rfl, fun _ hc => hc, fun q c => ?_⟩
    refine ⟨.inl, fun hq => hq.elim id fun hq => ?_⟩
    rw [hq.1, List.mem_singleton.mp hq.2, hpreds]
    exact hmem
  · next hnew =>
    obtain rfl := pure_eq_ok_iff.mp hg
    have hafter : ∀ c, (f.modifyBlock b fun x => { x with preds := x.preds ++ [p] }).predsOf c =
        if b = c then f.predsOf c ++ [p] else f.predsOf c :=
      fun c => predsOf_modifyBlock (k := (· ++ [p])) (fun _ => rfl) hx
    refine ⟨rfl, fun c => ?_, fun c hc => ?_, fun q c => ?_⟩
    · rw [listOf_modifyBlock (k := id) (by exact fun _ => rfl) hx]
      simp
    · rw [hafter]
      split
      · next hbc =>
        subst hbc
        refine List.nodup_append.mpr ⟨hc, List.nodup_singleton p, ?_⟩
        intro q hq r hr heq
        rw [hpreds] at hq
        exact hnew (List.mem_singleton.mp hr ▸ heq ▸ hq)
      · exact hc
    · rw [hafter]
      by_cases hbc : b = c
      · simp [hbc]
      · have hcb : c ≠ b := fun heq => hbc heq.symm
        simp [hbc, hcb]

theorem joined_of_addPreds : ∀ {f : Func},
    dests.foldlM (fun f s => f.addPred s p) f = .ok g → Joined f p dests g := by
  induction dests with
  | nil =>
    intro f hg
    obtain rfl := pure_eq_ok_iff.mp hg
    exact joined_nil f p
  | cons b dests ih =>
    intro f hg
    obtain ⟨f₁, h₁, hg⟩ := foldlM_cons_ok_iff.mp hg
    exact (joined_of_addPred h₁).trans (ih hg)

/-! ## One step -/

theorem op?_of_pushOperand {o : Operand} (hg : f.pushOperand i o = .ok g) (j : InstId) :
    g.op? j = f.op? j := by
  rw [op?, (pushOperand_spec hg).2.1]
  split
  · rw [Option.map_map]
    rfl
  · rfl

theorem create_ops {os : List Operand} (hg : f.create op ty os = .ok (i, g)) :
    i.index = f.insts.size ∧ ∀ j, g.op? j = if j = i then some op else f.op? j := by
  obtain ⟨g', hg', hg⟩ := bind_eq_ok_iff.mp hg
  obtain ⟨rfl, rfl⟩ := Prod.mk.inj (pure_eq_ok_iff.mp hg)
  refine ⟨rfl, fun j => ?_⟩
  have hkeep := foldlM_keeps
    (P := fun g => g.op? j = op? { f with insts := f.insts.push { op, ty } } j)
    (fun _ _ _ _ hP hpush => (op?_of_pushOperand hpush j).trans hP) rfl hg'
  rw [hkeep]
  obtain ⟨j⟩ := j
  simp only [op?, bare?, Array.getElem?_push, InstId.mk.injEq]
  split <;> rfl

theorem Placed.op? (hg : Placed f i b front back g) (j : InstId) : g.op? j = f.op? j := by
  rw [Func.op?, hg.bare]
  split
  · rw [Option.map_map]
    rfl
  · rfl

/-- One instruction was emitted into `b`, between `front` and `back`, and `b` was recorded as a
predecessor of the destinations. -/
structure Emitted (f : Func) (b : BlockId) (op : Opcode) (dests : List BlockId)
    (front back : List InstId) (i : InstId) (g : Func) : Prop where
  fresh : i.index = f.insts.size
  ops : ∀ j, g.op? j = if j = i then some op else f.op? j
  split : f.listOf b = front ++ back
  lists : ∀ c, g.listOf c = if b = c then front ++ i :: back else f.listOf c
  nodup : ∀ c, (f.predsOf c).Nodup → (g.predsOf c).Nodup
  mem_preds : ∀ q c, q ∈ g.predsOf c ↔ q ∈ f.predsOf c ∨ q = b ∧ c ∈ dests

theorem emitted_of_placed {os : List Operand} (hf : f.create op ty os = .ok (i, g))
    (hplaced : Placed g i b front back h) (hpreds : ∀ c, h.predsOf c = g.predsOf c) :
    Emitted f b op [] front back i h := by
  obtain ⟨hfresh, hops⟩ := create_ops hf
  have hblocks := create_blocks hf
  have hlist : ∀ c, g.listOf c = f.listOf c := fun c => by rw [listOf, hblocks, listOf]
  have hsame : ∀ c, h.predsOf c = f.predsOf c := fun c => by
    rw [hpreds, predsOf, hblocks, predsOf]
  refine ⟨hfresh, fun j => (hplaced.op? j).trans (hops j), ?_, fun c => ?_, fun c hc => ?_,
    fun q c => ?_⟩
  · rw [← hlist, hplaced.split]
  · rw [hplaced.lists, hlist]
  · rw [hsame]
    exact hc
  · simp [hsame]

theorem Emitted.mem_list (hg : Emitted f b op dests front back i g) :
    j ∈ g.listOf c ↔ j ∈ f.listOf c ∨ j = i ∧ c = b := by
  rw [hg.lists]
  by_cases hbc : b = c
  · rw [if_pos hbc, ← hbc, hg.split]
    simp only [List.mem_append, List.mem_cons, and_true]
    tauto
  · have hcb : c ≠ b := fun heq => hbc heq.symm
    simp [hbc, hcb]

theorem Emitted.joined (hg : Emitted f b op [] front back i g) (hh : Joined g b dests h) :
    Emitted f b op dests front back i h where
  fresh := hg.fresh
  ops j := by rw [← hg.ops, Func.op?, bare?, hh.insts, Func.op?, bare?]
  split := hg.split
  lists c := (hh.lists c).trans (hg.lists c)
  nodup c hc := hh.nodup c (hg.nodup c hc)
  mem_preds q c := by simp [hh.mem_preds, hg.mem_preds]

theorem predsOf_append (hg : f.append i b = .ok g) (c : BlockId) : g.predsOf c = f.predsOf c := by
  obtain ⟨x, -, hg⟩ := bind_eq_ok_iff.mp hg
  split at hg
  · exact absurd hg not_throw_eq_ok
  · obtain ⟨y, -, hg⟩ := bind_eq_ok_iff.mp hg
    exact pure_eq_ok_iff.mp hg ▸ predsOf_relisted (w := (· ++ [i]))

theorem predsOf_insertAt {k : Nat} (hg : f.insertAt i b k = .ok g) (c : BlockId) :
    g.predsOf c = f.predsOf c := by
  obtain ⟨x, -, hg⟩ := bind_eq_ok_iff.mp hg
  split at hg
  · exact absurd hg not_throw_eq_ok
  · obtain ⟨y, -, hg⟩ := bind_eq_ok_iff.mp hg
    exact pure_eq_ok_iff.mp hg ▸ predsOf_relisted (w := fun l => l.insertIdx k i)

/-- Neither the instructions of the blocks nor what was recorded about them has changed. -/
structure Alike (f g : Func) : Prop where
  phi : ∀ i, g.isPhi i = f.isPhi i
  dests : ∀ i, g.targetsOf i = f.targetsOf i
  lists : ∀ b, g.listOf b = f.listOf b
  preds : ∀ b, g.predsOf b = f.predsOf b

theorem Alike.refl (f : Func) : Alike f f :=
  ⟨fun _ => rfl, fun _ => rfl, fun _ => rfl, fun _ => rfl⟩

theorem Alike.trans (hg : Alike f g) (hh : Alike g h) : Alike f h :=
  ⟨fun i => (hh.phi i).trans (hg.phi i), fun i => (hh.dests i).trans (hg.dests i),
    fun b => (hh.lists b).trans (hg.lists b), fun b => (hh.preds b).trans (hg.preds b)⟩

theorem alike_addBlock (f : Func) : Alike f f.addBlock.2 := by
  refine ⟨fun _ => rfl, fun _ => rfl, fun b => ?_, fun b => ?_⟩
  · simp only [listOf, addBlock, Array.getElem?_push]
    split
    · next hb => simp [hb]
    · rfl
  · simp only [predsOf, addBlock, Array.getElem?_push]
    split
    · next hb => simp [hb]
    · rfl

/-- A phi stays one, and goes nowhere. -/
theorem alike_pushIncoming (hg : f.pushIncoming i b = .ok g) : Alike f g := by
  obtain ⟨x, hx, hg⟩ := bind_eq_ok_iff.mp hg
  have hphi : ∀ op : Opcode, x.op.isPhi → op.isPhi →
      Alike f (f.modifyInst i fun x => { x with op }) := by
    intro op hold hnew
    have hops : ∀ j, (f.modifyInst i fun x => { x with op }).op? j =
        if i = j then some op else f.op? j := by
      intro j
      rw [op?, bare?_modifyInst (by exact fun _ => rfl)]
      split
      · next hij => simp [← hij, bare?_of_inst hx]
      · rfl
    have hnone : ∀ op : Opcode, op.isPhi → op.successors = [] := by
      intro op hop
      cases op <;> simp_all [Opcode.isPhi, Opcode.successors]
    refine ⟨fun j => ?_, fun j => ?_, fun _ => rfl, fun _ => rfl⟩
    · rw [isPhi_eq, isPhi_eq, hops]
      split
      · next hij => simp [← hij, op?_of_inst hx, hold, hnew]
      · rfl
    · rw [targetsOf, targetsOf, hops]
      split
      · next hij => simp [← hij, op?_of_inst hx, hnone, hold, hnew]
      · rfl
  split at hg
  · next bs hop => exact pure_eq_ok_iff.mp hg ▸ hphi _ (by rw [hop]; rfl) rfl
  · next bs hop => exact pure_eq_ok_iff.mp hg ▸ hphi _ (by rw [hop]; rfl) rfl
  · exact absurd hg not_throw_eq_ok

theorem alike_pushOperand {o : Operand} (hg : f.pushOperand i o = .ok g) : Alike f g := by
  have hops := op?_of_pushOperand hg
  have hblocks := (pushOperand_spec hg).1
  refine ⟨fun j => ?_, fun j => ?_, fun b => ?_, fun b => ?_⟩
  · rw [isPhi_eq, hops, isPhi_eq]
  · rw [targetsOf, hops, targetsOf]
  · rw [listOf, hblocks, listOf]
  · rw [predsOf, hblocks, predsOf]

end Func

namespace Cursor

open Func

variable {c c' : Cursor} {i : InstId} {op : Opcode} {ty : Ty} {os : List Operand}
  {front back : List InstId}

theorem leadingPhis_spec {f : Func} (h : leadingPhis f (front ++ back) = .ok front.length) :
    (∀ j ∈ front, f.isPhi j) ∧ ∀ j ∈ back.head?, ¬f.isPhi j := by
  induction front with
  | nil =>
    refine ⟨by simp, fun j hj => ?_⟩
    cases back with
    | nil => cases hj
    | cons j' rest =>
      obtain rfl := Option.some.inj hj
      obtain ⟨x, hx, h⟩ := bind_eq_ok_iff.mp h
      rw [isPhi_eq, op?_of_inst hx]
      split at h
      · obtain ⟨m, -, h⟩ := bind_eq_ok_iff.mp h
        cases pure_eq_ok_iff.mp h
      · next hnot => exact hnot
  | cons i front ih =>
    obtain ⟨x, hx, h⟩ := bind_eq_ok_iff.mp h
    split at h
    · next hphi =>
      obtain ⟨m, hm, h⟩ := bind_eq_ok_iff.mp h
      obtain rfl := Nat.succ.inj (pure_eq_ok_iff.mp h)
      obtain ⟨hfront, hback⟩ := ih hm
      refine ⟨fun j hj => ?_, hback⟩
      rcases List.mem_cons.mp hj with rfl | hj
      · rw [isPhi_eq, op?_of_inst hx]
        exact hphi
      · exact hfront j hj
    · cases pure_eq_ok_iff.mp h

theorem emit_spec (h : c.emit op ty os = .ok (i, c')) : ∃ b, c.requireCurrent = .ok b ∧
    Emitted c.func b op [] (c.func.listOf b) [] i c'.func := by
  obtain ⟨b, f, hb, hf, hg⟩ := emit_eq_ok h
  refine ⟨b, hb, ?_⟩
  rw [listOf, ← create_blocks hf]
  exact emitted_of_placed hf (append_spec hg) (predsOf_append hg)

theorem emitTerminator_spec (h : c.emitTerminator op os = .ok (i, c')) :
    ∃ b, Emitted c.func b op op.successors (c.func.listOf b) [] i c'.func := by
  obtain ⟨b, c₁, hb, hc₁, hg⟩ := emitTerminator_eq_ok h
  obtain ⟨b', hb', hemit⟩ := emit_spec hc₁
  obtain rfl := Except.ok.inj (hb.symm.trans hb')
  exact ⟨b, hemit.joined (joined_of_addPreds hg)⟩

theorem emitPhi_spec (h : c.emitPhi op ty = .ok (i, c')) : ∃ b front back,
    Emitted c.func b op [] front back i c'.func ∧
      leadingPhis c.func (front ++ back) = .ok front.length := by
  obtain ⟨b, f, front, back, hf, hsplit, hk, hg⟩ := emitPhi_eq_ok h
  rw [listOf, ← create_blocks hf, ← listOf] at hsplit
  exact ⟨b, front, back, emitted_of_placed hf (insertAt_spec hsplit hg) (predsOf_insertAt hg), hk⟩

/-- What one step can do: nothing to the shape, or one instruction that is not a phi and stands at
the end, or a phi behind the phis. -/
theorem build_cases {step : Build} {r : Reply} (h : c.build step = .ok (r, c')) :
    Alike c.func c'.func ∨ ∃ b op front back i,
      Emitted c.func b op op.successors front back i c'.func ∧
        (op.isPhi = false ∧ back = [] ∨ leadingPhis c.func (front ++ back) = .ok front.length) := by
  cases step with
  | block =>
    obtain ⟨-, rfl⟩ := Prod.mk.inj (pure_eq_ok_iff.mp h)
    exact .inl (alike_addBlock c.func)
  | switch b =>
    obtain ⟨-, rfl⟩ := Prod.mk.inj (pure_eq_ok_iff.mp h)
    exact .inl (.refl c.func)
  | incoming phi value source =>
    obtain ⟨c₁, h₁, h⟩ := bind_eq_ok_iff.mp h
    obtain ⟨-, rfl⟩ := Prod.mk.inj (pure_eq_ok_iff.mp h)
    obtain ⟨f, hf, h₁⟩ := bind_eq_ok_iff.mp h₁
    obtain ⟨g, hg, h₁⟩ := bind_eq_ok_iff.mp h₁
    obtain rfl := pure_eq_ok_iff.mp h₁
    exact .inl ((alike_pushIncoming hf).trans (alike_pushOperand hg))
  | phi | memPhi =>
    obtain ⟨i, h⟩ := named_eq_ok h
    obtain ⟨b, front, back, hemit, hk⟩ := emitPhi_spec h
    exact .inr ⟨b, _, front, back, i, hemit, .inr hk⟩
  | jump | branch =>
    obtain ⟨i, h⟩ := named_eq_ok h
    obtain ⟨b, hemit⟩ := emitTerminator_spec h
    exact .inr ⟨b, _, _, [], i, hemit, .inl ⟨rfl, rfl⟩⟩
  | binary | compare | cast | select | elementPtr | load | store | call | alloca | ret =>
    obtain ⟨i, h⟩ := named_eq_ok h
    obtain ⟨b, -, hemit⟩ := emit_spec h
    exact .inr ⟨b, _, _, [], i, hemit, .inl ⟨rfl, rfl⟩⟩

end Cursor

namespace Func

variable {f g : Func} {i : InstId} {b : BlockId} {op : Opcode} {front back : List InstId}

/-! ## What all steps keep -/

/-- The phis of each block come first and in order, and the predecessors of a block are the blocks
with an instruction that goes there. -/
structure Recorded (f : Func) : Prop where
  consistent : f.Consistent
  ordered : ∀ b, (f.listOf b).Pairwise fun i j => f.isPhi j → f.isPhi i ∧ i.index < j.index
  nodup : ∀ b, (f.predsOf b).Nodup
  mem_preds : ∀ p b, p ∈ f.predsOf b ↔ ∃ i ∈ f.listOf p, b ∈ f.targetsOf i

theorem recorded_of_empty (hblocks : f.blocks = #[]) (hinsts : f.insts = #[]) : f.Recorded := by
  refine ⟨consistent_of_empty hblocks hinsts, ?_, ?_, ?_⟩
  · simp [listOf, hblocks]
  · simp [predsOf, hblocks]
  · simp [predsOf, listOf, hblocks]

theorem Recorded.alike (hf : f.Recorded) (hg : g.Consistent) (h : Alike f g) : g.Recorded where
  consistent := hg
  ordered b := by
    simp only [h.lists, h.phi]
    exact hf.ordered b
  nodup b := by
    rw [h.preds]
    exact hf.nodup b
  mem_preds p b := by
    simp only [h.preds, h.lists, h.dests]
    exact hf.mem_preds p b

theorem Consistent.index_lt (hf : f.Consistent) (hi : i ∈ f.listOf b) :
    i.index < f.insts.size := by
  obtain ⟨x, hx⟩ := hf.exists_inst hi
  exact (Array.getElem?_eq_some_iff.mp (inst_eq_ok_iff.mp hx)).1

theorem Recorded.emitted (hf : f.Recorded) (hg : g.Consistent)
    (h : Emitted f b op op.successors front back i g)
    (hfront : op.isPhi → ∀ j ∈ front, f.isPhi j) (hback : ∀ j ∈ back, ¬f.isPhi j) :
    g.Recorded := by
  -- what stood in a block before is older than the new instruction
  have holder : ∀ {c j}, j ∈ f.listOf c → j.index < i.index := by
    intro c j hj
    rw [h.fresh]
    exact hf.consistent.index_lt hj
  have hop : ∀ {c j}, j ∈ f.listOf c → g.op? j = f.op? j := by
    intro c j hj
    have hne : j ≠ i := fun heq => Nat.lt_irrefl _ (heq ▸ holder hj)
    rw [h.ops, if_neg hne]
  have hnew : g.op? i = some op := by rw [h.ops, if_pos rfl]
  have hphi : ∀ {c j}, j ∈ f.listOf c → g.isPhi j = f.isPhi j := by
    intro c j hj
    rw [isPhi_eq, hop hj, isPhi_eq]
  have hmem : ∀ {j}, j ∈ front ∨ j ∈ back → j ∈ f.listOf b := by
    intro j hj
    rw [h.split]
    exact List.mem_append.mpr hj
  have hold : ∀ c, (f.listOf c).Pairwise fun j k => g.isPhi k → g.isPhi j ∧ j.index < k.index := by
    intro c
    refine (hf.ordered c).imp_of_mem fun {j k} hj hk hjk => ?_
    rw [hphi hj, hphi hk]
    exact hjk
  refine ⟨hg, fun c => ?_, fun c => h.nodup c (hf.nodup c), fun p c => ?_⟩
  · rw [h.lists]
    split
    · have hsplit := hold b
      rw [h.split, List.pairwise_append] at hsplit
      obtain ⟨hpre, hpost, hcross⟩ := hsplit
      refine List.pairwise_append.mpr ⟨hpre, List.pairwise_cons.mpr ⟨fun k hk hkphi => ?_, hpost⟩,
        fun j hj k hk hkphi => ?_⟩
      · rw [hphi (hmem (.inr hk))] at hkphi
        exact absurd hkphi (hback k hk)
      · rcases List.mem_cons.mp hk with rfl | hk
        · rw [isPhi_eq, hnew] at hkphi
          rw [hphi (hmem (.inl hj))]
          exact ⟨hfront hkphi j hj, holder (hmem (.inl hj))⟩
        · exact hcross j hj k hk hkphi
    · exact hold c
  · have hdests : ∀ {d j}, j ∈ f.listOf d → g.targetsOf j = f.targetsOf j := by
      intro d j hj
      rw [targetsOf, hop hj, targetsOf]
    rw [h.mem_preds, hf.mem_preds]
    constructor
    · intro hp
      rcases hp with ⟨j, hj, hc⟩ | ⟨rfl, hc⟩
      · exact ⟨j, h.mem_list.mpr (.inl hj), by rwa [hdests hj]⟩
      · refine ⟨i, h.mem_list.mpr (.inr ⟨rfl, rfl⟩), ?_⟩
        rw [targetsOf, hnew]
        exact hc
    · intro hp
      obtain ⟨j, hj, hc⟩ := hp
      rcases h.mem_list.mp hj with hj | ⟨rfl, rfl⟩
      · rw [hdests hj] at hc
        exact .inl ⟨j, hj, hc⟩
      · rw [targetsOf, hnew] at hc
        exact .inr ⟨rfl, hc⟩

/-- Where the phis come first, no phi follows an instruction that is none. -/
theorem not_isPhi_of_head
    (hordered : back.Pairwise fun i j => f.isPhi j → f.isPhi i ∧ i.index < j.index)
    (hhead : ∀ j ∈ back.head?, ¬f.isPhi j) : ∀ j ∈ back, ¬f.isPhi j := by
  cases back with
  | nil => simp
  | cons k back =>
    intro j hj hphi
    have hk := hhead k rfl
    rcases List.mem_cons.mp hj with rfl | hj
    · exact hk hphi
    · exact hk ((List.pairwise_cons.mp hordered).1 j hj hphi).1

theorem Recorded.build {c c' : Cursor} {step : Build} {r : Reply} (hc : c.func.Recorded)
    (h : c.build step = .ok (r, c')) : c'.func.Recorded := by
  have hcons := Cursor.consistent_build hc.consistent h
  rcases Cursor.build_cases h with halike | ⟨b, op, front, back, i, hemit, hplace⟩
  · exact hc.alike hcons halike
  · rcases hplace with ⟨hphi, rfl⟩ | hlead
    · refine hc.emitted hcons hemit (fun hop => ?_) (by simp)
      rw [hphi] at hop
      cases hop
    · obtain ⟨hfront, hhead⟩ := Cursor.leadingPhis_spec hlead
      have hordered := hc.ordered b
      rw [hemit.split] at hordered
      exact hc.emitted hcons hemit (fun _ => hfront)
        (not_isPhi_of_head (List.pairwise_append.mp hordered).2.1 hhead)

theorem Recorded.run {c c' : Cursor} {steps : List Build} (hc : c.func.Recorded)
    (h : c.run (steps.map .build) = .ok c') : c'.func.Recorded := by
  refine foldlM_keeps (P := fun c => c.func.Recorded) (fun c₁ e c₂ he hc₁ h₁ => ?_) hc h
  obtain ⟨step, -, rfl⟩ := List.mem_map.mp he
  obtain ⟨⟨r, c₃⟩, h₃, h₁⟩ := bind_eq_ok_iff.mp h₁
  obtain rfl := pure_eq_ok_iff.mp h₁
  exact hc₁.build h₃

/-- A block is its phis, in the order of their creation, and then the rest. -/
theorem Recorded.exists_phis (hf : f.Recorded) (b : BlockId) : ∃ phis others,
    f.listOf b = phis ++ others ∧ (∀ i ∈ phis, f.isPhi i) ∧ (∀ i ∈ others, ¬f.isPhi i) ∧
      phis.Pairwise fun i j => i.index < j.index := by
  have hcut := List.takeWhile_append_dropWhile (p := f.isPhi) (l := f.listOf b)
  have hordered := hf.ordered b
  rw [← hcut, List.pairwise_append] at hordered
  obtain ⟨hphis, hothers, -⟩ := hordered
  refine ⟨(f.listOf b).takeWhile f.isPhi, (f.listOf b).dropWhile f.isPhi, hcut.symm,
    fun i hi => List.mem_takeWhile_imp hi, ?_, ?_⟩
  · refine not_isPhi_of_head hothers fun j hj => ?_
    have hnot := List.head?_dropWhile_not f.isPhi (f.listOf b)
    rw [Option.mem_def.mp hj] at hnot
    simpa using hnot
  · exact hphis.imp_of_mem fun {i j} _ hj hij => (hij (List.mem_takeWhile_imp hj)).2

/-! ## What the analysis finds -/

/-- In a function that was accepted, only the last instruction of a block goes anywhere. -/
theorem Recorded.mem_preds_iff (hf : f.Recorded) (hdecl : f.isDeclaration = false)
    (hcheck : f.check = .ok ()) {p b : BlockId} : p ∈ f.predsOf b ↔ f.Edge p b := by
  rw [hf.mem_preds, edge_iff]
  constructor
  · intro hp
    obtain ⟨i, hi, hb⟩ := hp
    have hvalid := hf.consistent.valid hdecl (Nat.zero_lt_of_lt (lt_numBlocks_of_mem hi)) hcheck
    obtain ⟨x, hx⟩ := hf.consistent.exists_inst hi
    rw [targetsOf, op?_of_inst hx] at hb
    obtain ⟨pre, post, hsplit⟩ := List.append_of_mem hi
    obtain rfl : post = [] := by
      refine (hvalid.ends_iff hsplit).mp (ends_eq_true_iff.mpr ⟨x.op, op?_of_inst hx, ?_⟩)
      exact isTerminator_of_mem_successors hb
    exact ⟨i, x.op, by simp [hsplit], op?_of_inst hx, hb⟩
  · intro hp
    obtain ⟨t, op, hlast, hop, hb⟩ := hp
    exact ⟨t, List.mem_of_getLast? hlast, by rwa [targetsOf, hop]⟩

theorem nodup_of_successors {row : List BlockId} (h : f.successors b = .ok row) : row.Nodup := by
  obtain ⟨t?, -, h⟩ := bind_eq_ok_iff.mp h
  split at h
  · exact pure_eq_ok_iff.mp h ▸ List.nodup_nil
  · obtain ⟨x, -, h⟩ := bind_eq_ok_iff.mp h
    exact pure_eq_ok_iff.mp h ▸ x.op.nodup_successors

end Func

namespace FlowGraph

variable {f : Func} {g : FlowGraph}

theorem nodup_succs (h : ofFunc f = .ok g) (p : BlockId) : (g.succs p).Nodup := by
  obtain ⟨rows, hrows, -, rfl⟩ := ofFunc_eq_ok_iff.mp h
  by_cases hp : p.index < f.numBlocks
  · obtain ⟨row, -, hs, hr⟩ := exists_row hrows hp
    rw [hr]
    exact Func.nodup_of_successors hs
  · have hrow : rows[p.index]? = none := by simpa [length_rows hrows] using hp
    simp [succs, ofSuccs, Array.getD_eq_getD_getElem?, hrow]

theorem nodup_preds (h : ofFunc f = .ok g) (b : BlockId) : (g.preds b).Nodup := by
  obtain ⟨rows, -, -, rfl⟩ := ofFunc_eq_ok_iff.mp h
  by_cases hb : b.index < rows.toArray.size
  · simp only [preds, ofSuccs, BlockId.getD_tabulate hb]
    refine List.Nodup.filter _ (List.Nodup.map ?_ List.nodup_range)
    intro m n hmn
    exact BlockId.mk.inj hmn
  · have hrow : (ofSuccs rows.toArray).predRows[b.index]? = none :=
      Array.getElem?_eq_none (by simpa [ofSuccs] using hb)
    simp [preds, Array.getD_eq_getD_getElem?, hrow]

end FlowGraph

namespace Cursor

open Func

theorem count_eq_of_mem_iff {l : List BlockId} {b : BlockId} {q : Bool} (hnodup : l.Nodup)
    (hmem : b ∈ l ↔ q = true) : l.count b = if q then 1 else 0 := by
  rw [List.Nodup.count hnodup]
  simp only [hmem]

/-- **Both records of the control flow agree.** Take construction steps that run to their end on a
function without a body. In every block of what they make the phis come first, in the order of their
creation. If that is no declaration and was accepted, then for all blocks `p` and `b` the
predecessors recorded on `b`, the predecessors of `b` in the analysis and the successors of `p` in
the analysis hold `p`, `p` and `b` exactly once if the terminator of `p` goes to `b`, and not at all
if it does not. -/
theorem run_records_flow {start : Func} (hblocks : start.blocks = #[]) (hinsts : start.insts = #[])
    {steps : List Build} {c : Cursor} (hrun : run { func := start } (steps.map .build) = .ok c) :
    (∀ b, ∃ phis others, c.func.listOf b = phis ++ others ∧ (∀ i ∈ phis, c.func.isPhi i) ∧
      (∀ i ∈ others, ¬c.func.isPhi i) ∧ phis.Pairwise fun i j => i.index < j.index) ∧
    (c.func.isDeclaration = false → c.func.check = .ok () →
      ∃ a, Analysis.ofFunc c.func = .ok a ∧ ∀ p b,
        (c.func.predsOf b).count p = (if c.func.goesTo p b then 1 else 0) ∧
        (a.graph.preds b).count p = (if c.func.goesTo p b then 1 else 0) ∧
        (a.graph.succs p).count b = (if c.func.goesTo p b then 1 else 0)) := by
  have hrec := Recorded.run (recorded_of_empty hblocks hinsts) hrun
  refine ⟨hrec.exists_phis, fun hdecl hcheck => ?_⟩
  obtain ⟨a, ha⟩ := Analysis.exists_ofFunc (targetsExist_of_check hdecl hcheck)
  have hgraph := (Analysis.ofFunc_eq_ok_iff.mp ha).1
  have hdesc := FlowGraph.describes_ofFunc hgraph
  refine ⟨a, ha, fun p b => ⟨?_, ?_, ?_⟩⟩
  · refine count_eq_of_mem_iff (hrec.nodup b) ?_
    rw [hrec.mem_preds_iff hdecl hcheck, goesTo_iff]
  · refine count_eq_of_mem_iff (FlowGraph.nodup_preds hgraph b) ?_
    rw [hdesc.valid.mem_preds, hdesc.edge_iff, goesTo_iff]
  · refine count_eq_of_mem_iff (FlowGraph.nodup_succs hgraph p) ?_
    rw [goesTo_iff, ← hdesc.edge_iff]
    rfl

/-- A branch over a block whose own branch has two equal targets. The second phi of the join is
emitted after an instruction that is none. -/
def joinedBranches : List Build := [
  .block, .block, .block,
  .switch ⟨0⟩, .branch (.arg 0) ⟨2⟩ ⟨1⟩,
  .switch ⟨1⟩, .branch (.arg 0) ⟨2⟩ ⟨2⟩,
  .switch ⟨2⟩, .phi .i32, .alloca .i32 4, .memPhi, .incoming ⟨2⟩ (.lit (.i32 1)) ⟨0⟩,
  .incoming ⟨2⟩ (.lit (.i32 2)) ⟨1⟩, .ret (some (.inst ⟨2⟩))]

theorem run_records_flow_joinedBranches :
    ∃ c a, run { func := .made [.i1] [] } (joinedBranches.map .build) = .ok c ∧
      c.func.check = .ok () ∧ Analysis.ofFunc c.func = .ok a ∧
      c.func.listOf ⟨2⟩ = [⟨2⟩, ⟨4⟩, ⟨3⟩, ⟨5⟩] ∧ c.func.predsOf ⟨2⟩ = [⟨0⟩, ⟨1⟩] ∧
      (a.graph.preds ⟨2⟩).count ⟨1⟩ = 1 ∧ (a.graph.succs ⟨1⟩).count ⟨2⟩ = 1 ∧
      (a.graph.preds ⟨1⟩).count ⟨2⟩ = 0 := by
  obtain ⟨c, hc, h⟩ := exists_ok_of_any
    (x := run { func := .made [.i1] [] } (joinedBranches.map .build))
    (q := fun c => c.func.isDeclaration = false && c.func.check = .ok () &&
      c.func.listOf ⟨2⟩ = [⟨2⟩, ⟨4⟩, ⟨3⟩, ⟨5⟩] && c.func.predsOf ⟨2⟩ = [⟨0⟩, ⟨1⟩] &&
      c.func.goesTo ⟨1⟩ ⟨2⟩ && !c.func.goesTo ⟨2⟩ ⟨1⟩) (by decide)
  simp only [Bool.and_eq_true, decide_eq_true_eq, Bool.not_eq_true'] at h
  obtain ⟨⟨⟨⟨⟨hdecl, hcheck⟩, hlist⟩, hpreds⟩, hyes⟩, hno⟩ := h
  obtain ⟨a, ha, hcounts⟩ := (run_records_flow rfl rfl hc).2 hdecl hcheck
  obtain ⟨-, hin, hout⟩ := hcounts ⟨1⟩ ⟨2⟩
  obtain ⟨-, hback, -⟩ := hcounts ⟨2⟩ ⟨1⟩
  rw [hyes] at hin hout
  rw [hno] at hback
  exact ⟨c, a, hc, hcheck, ha, hlist, hpreds, hin, hout, hback⟩

/-- A declaration is accepted whatever body it was given. Here the jump that recorded its block as a
predecessor is not the last instruction of the block. -/
theorem declaration_records_stale_edge :
    ∃ c a, run { func := { name := "f", returnType := .void, params := [], isDeclaration := true } }
        ([.block, .block, .switch ⟨0⟩, .jump ⟨1⟩, .ret none].map .build) = .ok c ∧
      c.func.check = .ok () ∧ Analysis.ofFunc c.func = .ok a ∧ c.func.predsOf ⟨1⟩ = [⟨0⟩] ∧
      a.graph.preds ⟨1⟩ = [] ∧ a.graph.succs ⟨0⟩ = [] ∧ c.func.goesTo ⟨0⟩ ⟨1⟩ = false := by
  obtain ⟨c, hc, h⟩ := exists_ok_of_any
    (x := run { func := { name := "f", returnType := .void, params := [], isDeclaration := true } }
      ([.block, .block, .switch ⟨0⟩, .jump ⟨1⟩, .ret none].map .build))
    (q := fun c => c.func.check = .ok () && c.func.predsOf ⟨1⟩ = [⟨0⟩] &&
      c.func.goesTo ⟨0⟩ ⟨1⟩ = false && (Analysis.ofFunc c.func).toOption.any fun a =>
        a.graph.preds ⟨1⟩ = [] && a.graph.succs ⟨0⟩ = []) (by decide)
  simp only [Bool.and_eq_true, decide_eq_true_eq] at h
  obtain ⟨⟨⟨hcheck, hpreds⟩, hno⟩, h⟩ := h
  obtain ⟨a, ha, h⟩ := exists_ok_of_any h
  simp only [Bool.and_eq_true, decide_eq_true_eq] at h
  exact ⟨c, a, hc, hcheck, ha, hpreds, h.1, h.2, hno⟩

end Cursor

end SsaOpt
