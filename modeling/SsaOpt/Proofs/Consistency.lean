import SsaOpt.Proofs.Edits
import SsaOpt.Script

/-! Every function made by an edit script has consistent arenas. -/

namespace SsaOpt

namespace Func

variable {f g : Func} {i j d : InstId} {b : BlockId} {o : Operand} {u : Use} {x : Instruction}

/-- Consistency is about operands, homes, use edges and lists. -/
theorem Consistent.congr (hf : f.Consistent) (hops : ∀ i, g.operandsOf i = f.operandsOf i)
    (hhome : ∀ i, g.homeOf i = f.homeOf i) (huses : ∀ d, g.usesOf d = f.usesOf d)
    (hlists : ∀ b, g.listOf b = f.listOf b) : g.Consistent where
  uses_nodup d := huses d ▸ hf.uses_nodup d
  mem_uses d u := by rw [huses, hf.mem_uses, slot, slot, hops]
  list_nodup b := hlists b ▸ hf.list_nodup b
  mem_list b i := by rw [hlists, hf.mem_list, hhome]

theorem Consistent.pushOperand (hf : f.Consistent) (h : f.pushOperand i o = .ok g) :
    g.Consistent := by
  have hi : (f.bare? i).isSome := by
    obtain ⟨x, hx, -⟩ := bind_eq_ok_iff.mp h
    simp [bare?_of_inst hx]
  obtain ⟨hblocks, hbare, huses⟩ := pushOperand_spec h
  have hops : ∀ j, g.operandsOf j = if i = j then f.operandsOf j ++ [o] else f.operandsOf j := by
    intro j
    simp only [operandsOf, hbare]
    split
    · next hij =>
      subst hij
      obtain ⟨y, hy⟩ := Option.isSome_iff_exists.mp hi
      simp [hy]
    · rfl
  -- the new slot is the only one that changes
  have hslot : ∀ u, g.slot u =
      if u = ⟨i, (f.operandsOf i).length⟩ then some o else f.slot u := by
    rintro ⟨user, k⟩
    simp only [slot, hops, Use.mk.injEq]
    by_cases huser : i = user
    · subst huser
      simp only [if_true, true_and, List.getElem?_append]
      grind
    · have hne : user ≠ i := fun h => huser h.symm
      simp [huser, hne]
  have hfresh : f.slot ⟨i, (f.operandsOf i).length⟩ = none := by simp [slot]
  refine ⟨fun d => ?_, fun d u => ?_, fun b => ?_, fun b j => ?_⟩
  · rw [huses]
    split
    · refine List.nodup_append.mpr ⟨hf.uses_nodup d, List.nodup_singleton _, ?_⟩
      rintro u hu v hv rfl
      rw [List.mem_singleton] at hv
      rw [hf.mem_uses, hv, hfresh] at hu
      cases hu
    · exact hf.uses_nodup d
  · rw [huses, hslot]
    by_cases hu : u = ⟨i, (f.operandsOf i).length⟩
    · subst hu
      by_cases ho : o = .inst d <;> simp [ho, hf.mem_uses, hfresh]
    · by_cases ho : o = .inst d <;> simp [ho, hu, hf.mem_uses]
  · rw [listOf, hblocks]
    exact hf.list_nodup b
  · have hhome : g.homeOf j = f.homeOf j := by
      simp only [homeOf, hbare]
      split
      · rw [Option.bind_map]; rfl
      · rfl
    rw [hhome, ← hf.mem_list, listOf, hblocks]
    rfl

theorem Consistent.placed {front back : List InstId} (hf : f.Consistent)
    (h : Placed f i b front back g) : g.Consistent := by
  have hfree : ∀ c, i ∉ f.listOf c := by
    intro c hc
    rw [hf.mem_list, h.free] at hc
    cases hc
  have hnodup := hf.list_nodup b
  have hnew := hfree b
  rw [h.split] at hnodup hnew
  have hhome : ∀ j, g.homeOf j = if i = j then some b else f.homeOf j := by
    intro j
    simp only [homeOf, h.bare]
    split
    · next hij =>
      subst hij
      obtain ⟨y, hy⟩ := Option.isSome_iff_exists.mp h.known
      simp [hy]
    · rfl
  refine ⟨fun d => h.uses d ▸ hf.uses_nodup d, fun d u => ?_, fun c => ?_, fun c j => ?_⟩
  · rw [h.uses, hf.mem_uses, slot, slot, operandsOf, operandsOf, h.bare]
    split
    · cases f.bare? u.user <;> rfl
    · rfl
  · rw [h.lists]
    split
    · exact (List.perm_middle.nodup_iff).mpr (List.nodup_cons.mpr ⟨hnew, hnodup⟩)
    · exact hf.list_nodup c
  · rw [h.lists, hhome]
    by_cases hj : i = j
    · subst hj
      by_cases hc : b = c <;> simp [hc, hfree]
    · have hj' : j ≠ i := fun h => hj h.symm
      rw [if_neg hj, ← hf.mem_list]
      split
      · next hc => simp [← hc, h.split, hj']
      · rfl

theorem Consistent.detached (hf : f.Consistent) (h : Detached f i g) : g.Consistent := by
  have hhome : ∀ j, g.homeOf j = if i = j then none else f.homeOf j := by
    intro j
    simp only [homeOf, h.bare]
    split
    · cases f.bare? j <;> rfl
    · rfl
  refine ⟨fun d => h.uses d ▸ hf.uses_nodup d, fun d u => ?_, fun c => ?_, fun c j => ?_⟩
  · rw [h.uses, hf.mem_uses, slot, slot, operandsOf, operandsOf, h.bare]
    split
    · cases f.bare? u.user <;> rfl
    · rfl
  · rw [h.lists]
    exact (hf.list_nodup c).filter _
  · rw [h.lists, hhome, List.mem_filter, hf.mem_list]
    by_cases hj : i = j
    · simp [hj]
    · have hj' : j ≠ i := fun h => hj h.symm
      simp [hj, hj']

theorem Consistent.erased (hf : f.Consistent) (h : Erased f i g) : g.Consistent := by
  have hhome : ∀ j, g.homeOf j = if i = j then none else f.homeOf j := by
    intro j
    simp only [homeOf, h.bare]
    split
    · cases f.bare? j <;> rfl
    · rfl
  refine ⟨h.uses_nodup, fun d u => ?_, fun c => ?_, fun c j => ?_⟩
  · rw [h.mem_uses, hf.mem_uses, h.slot_eq]
    by_cases hu : i = u.user
    · simp [hu]
    · have hu' : u.user ≠ i := fun h => hu h.symm
      simp [hu, hu']
  · rw [h.lists]
    exact (hf.list_nodup c).filter _
  · rw [h.lists, hhome, List.mem_filter, hf.mem_list]
    by_cases hj : i = j
    · simp [hj]
    · have hj' : j ≠ i := fun h => hj h.symm
      simp [hj, hj']

theorem subst_eq_inst_iff {p : Operand} :
    Operand.subst i o p = .inst d ↔ p = .inst i ∧ o = .inst d ∨ p ≠ .inst i ∧ p = .inst d := by
  rw [Operand.subst]
  split <;> simp_all

theorem Consistent.replaceUses {n : Nat} (hf : f.Consistent)
    (h : f.replaceUses i o = .ok (n, g)) : g.Consistent := by
  by_cases ho : o = .inst i
  · rw [Func.replaceUses, if_pos ho] at h
    obtain ⟨-, rfl⟩ := Prod.mk.inj (pure_eq_ok_iff.mp h)
    exact hf
  · obtain ⟨hblocks, hbare, huses⟩ := replaceUses_spec hf ho h
    have hslot : ∀ u d, g.slot u = some (.inst d) ↔
        f.slot u = some (.inst i) ∧ o = .inst d ∨ d ≠ i ∧ f.slot u = some (.inst d) := by
      intro u d
      rw [slot_replaceUses hf ho h]
      cases f.slot u with
      | none => simp
      | some p => simp only [Option.map_some, Option.some.injEq, subst_eq_inst_iff]; grind
    refine ⟨fun d => ?_, fun d u => ?_, fun b => ?_, fun b j => ?_⟩
    · rw [huses]
      split_ifs with hd ho'
      · exact List.nodup_nil
      · refine List.nodup_append.mpr ⟨hf.uses_nodup d, hf.uses_nodup i, ?_⟩
        rintro u hu v hv rfl
        rw [hf.mem_uses] at hu hv
        rw [hu] at hv
        exact hd (by simpa using hv)
      · exact hf.uses_nodup d
    · rw [huses, hslot]
      split_ifs with hd ho'
      · subst hd
        simp [ho]
      · rw [List.mem_append, hf.mem_uses, hf.mem_uses]
        grind
      · rw [hf.mem_uses]
        grind
    · rw [listOf, hblocks]
      exact hf.list_nodup b
    · have hhome : g.homeOf j = f.homeOf j := by
        simp only [homeOf, hbare, Option.bind_map]
        rfl
      rw [hhome, ← hf.mem_list, listOf, hblocks]
      rfl

/-! ## Growth of the arenas -/

/-- The arena with one more instruction, which reads nothing. -/
theorem Consistent.pushInst (hf : f.Consistent) (op : Opcode) (ty : Ty) :
    Consistent { f with insts := f.insts.push { op, ty } } := by
  have hbare : ∀ j, bare? { f with insts := f.insts.push { op, ty } } j =
      if j.index = f.insts.size then some { op, ty } else f.bare? j := by
    intro j
    simp only [bare?, Array.getElem?_push]
    split <;> rfl
  have hnew : ∀ j : InstId, j.index = f.insts.size → f.bare? j = none := by
    intro j hj
    simp [bare?, hj]
  refine hf.congr (fun j => ?_) (fun j => ?_) (fun d => ?_) fun _ => rfl
  · simp only [operandsOf, hbare]
    split
    · next hj => simp [hnew j hj]
    · rfl
  · simp only [homeOf, hbare]
    split
    · next hj => simp [hnew j hj]
    · rfl
  · simp only [usesOf, Array.getElem?_push]
    split
    · next hj => simp [hj]
    · rfl

theorem Consistent.create {op : Opcode} {ty : Ty} {os : List Operand} (hf : f.Consistent)
    (h : f.create op ty os = .ok (i, g)) : g.Consistent := by
  obtain ⟨f', h', h⟩ := bind_eq_ok_iff.mp h
  obtain ⟨-, rfl⟩ := Prod.mk.inj (pure_eq_ok_iff.mp h)
  exact foldlM_keeps (fun _ _ _ _ hf => hf.pushOperand) (hf.pushInst op ty) h'

theorem create_blocks {op : Opcode} {ty : Ty} {os : List Operand}
    (h : f.create op ty os = .ok (i, g)) : g.blocks = f.blocks := by
  obtain ⟨f', h', h⟩ := bind_eq_ok_iff.mp h
  obtain ⟨-, rfl⟩ := Prod.mk.inj (pure_eq_ok_iff.mp h)
  exact foldlM_keeps (P := fun g => g.blocks = f.blocks)
    (fun _ _ _ _ hb h => (pushOperand_spec h).1.trans hb) rfl h'

theorem Consistent.pushIncoming (hf : f.Consistent) (h : f.pushIncoming i b = .ok g) :
    g.Consistent := by
  have hop : ∀ w : Opcode, (f.modifyInst i fun x => { x with op := w }).Consistent := by
    intro w
    refine hf.congr (fun j => ?_) (fun j => ?_) (fun d => ?_) fun _ => rfl
    · simp only [operandsOf]
      rw [bare?_modifyInst (by exact fun _ => rfl)]
      split
      · cases f.bare? j <;> rfl
      · rfl
    · simp only [homeOf]
      rw [bare?_modifyInst (by exact fun _ => rfl)]
      split
      · cases f.bare? j <;> rfl
      · rfl
    · exact usesOf_modifyInst_of_uses fun _ => rfl
  obtain ⟨x, -, h⟩ := bind_eq_ok_iff.mp h
  split at h
  · exact pure_eq_ok_iff.mp h ▸ hop _
  · exact pure_eq_ok_iff.mp h ▸ hop _
  · exact absurd h not_throw_eq_ok

theorem Consistent.addBlock (hf : f.Consistent) : f.addBlock.2.Consistent := by
  refine hf.congr (fun _ => rfl) (fun _ => rfl) (fun _ => rfl) fun b => ?_
  simp only [listOf, Func.addBlock, Array.getElem?_push]
  split
  · next hb => simp [hb]
  · rfl

theorem Consistent.addPred {p : BlockId} (hf : f.Consistent) (h : f.addPred b p = .ok g) :
    g.Consistent := by
  obtain ⟨x, hx, h⟩ := bind_eq_ok_iff.mp h
  split at h
  · exact pure_eq_ok_iff.mp h ▸ hf
  · obtain rfl := pure_eq_ok_iff.mp h
    refine hf.congr (fun _ => rfl) (fun _ => rfl) (fun _ => rfl) fun c => ?_
    rw [listOf_modifyBlock (k := id) (by exact fun _ => rfl) hx]
    simp

end Func

/-! ## Scripts -/

namespace Cursor

open Func

variable {c c' : Cursor} {i : InstId} {op : Opcode} {ty : Ty} {os : List Operand}

theorem emit_eq_ok (h : c.emit op ty os = .ok (i, c')) : ∃ b f, c.requireCurrent = .ok b ∧
    c.func.create op ty os = .ok (i, f) ∧ f.append i b = .ok c'.func := by
  obtain ⟨b, hb, h⟩ := bind_eq_ok_iff.mp h
  obtain ⟨⟨i', f⟩, hf, h⟩ := bind_eq_ok_iff.mp h
  obtain ⟨g, hg, h⟩ := bind_eq_ok_iff.mp h
  obtain ⟨rfl, rfl⟩ := Prod.mk.inj (pure_eq_ok_iff.mp h)
  exact ⟨b, f, hb, hf, hg⟩

theorem consistent_emit (hc : c.func.Consistent) (h : c.emit op ty os = .ok (i, c')) :
    c'.func.Consistent := by
  obtain ⟨b, f, -, hf, hg⟩ := emit_eq_ok h
  exact (hc.create hf).placed (append_spec hg)

theorem leadingPhis_le {f : Func} {is : List InstId} {k : Nat}
    (h : leadingPhis f is = .ok k) : k ≤ is.length := by
  induction is generalizing k with
  | nil => exact pure_eq_ok_iff.mp h ▸ Nat.le_refl 0
  | cons i rest ih =>
    obtain ⟨x, -, h⟩ := bind_eq_ok_iff.mp h
    split at h
    · obtain ⟨m, hm, h⟩ := bind_eq_ok_iff.mp h
      obtain rfl := pure_eq_ok_iff.mp h
      exact Nat.succ_le_succ (ih hm)
    · exact pure_eq_ok_iff.mp h ▸ Nat.zero_le _

/-- A phi is put behind the phis that lead the block. -/
theorem emitPhi_eq_ok (h : c.emitPhi op ty = .ok (i, c')) : ∃ b f front back,
    c.func.create op ty [] = .ok (i, f) ∧ c.func.listOf b = front ++ back ∧
      leadingPhis c.func (front ++ back) = .ok front.length ∧
      f.insertAt i b front.length = .ok c'.func := by
  obtain ⟨b, -, h⟩ := bind_eq_ok_iff.mp h
  obtain ⟨y, hy, h⟩ := bind_eq_ok_iff.mp h
  obtain ⟨k, hk, h⟩ := bind_eq_ok_iff.mp h
  obtain ⟨⟨i', f⟩, hf, h⟩ := bind_eq_ok_iff.mp h
  obtain ⟨g, hg, h⟩ := bind_eq_ok_iff.mp h
  obtain ⟨rfl, rfl⟩ := Prod.mk.inj (pure_eq_ok_iff.mp h)
  have hlen : (y.insts.take k).length = k := List.length_take_of_le (leadingPhis_le hk)
  refine ⟨b, f, y.insts.take k, y.insts.drop k, hf, ?_, ?_, ?_⟩
  · rw [listOf_of_block hy, List.take_append_drop]
  · rw [List.take_append_drop, hlen]
    exact hk
  · rw [hlen]
    exact hg

theorem consistent_emitPhi (hc : c.func.Consistent) (h : c.emitPhi op ty = .ok (i, c')) :
    c'.func.Consistent := by
  obtain ⟨b, f, front, back, hf, hsplit, -, hg⟩ := emitPhi_eq_ok h
  rw [listOf, ← create_blocks hf, ← listOf] at hsplit
  exact (hc.create hf).placed (insertAt_spec hsplit hg)

theorem emitTerminator_eq_ok (h : c.emitTerminator op os = .ok (i, c')) : ∃ b c₁,
    c.requireCurrent = .ok b ∧ c.emit op .void os = .ok (i, c₁) ∧
      op.successors.foldlM (fun f s => f.addPred s b) c₁.func = .ok c'.func := by
  obtain ⟨b, hb, h⟩ := bind_eq_ok_iff.mp h
  obtain ⟨⟨i', c₁⟩, hc₁, h⟩ := bind_eq_ok_iff.mp h
  obtain ⟨g, hg, h⟩ := bind_eq_ok_iff.mp h
  obtain ⟨rfl, rfl⟩ := Prod.mk.inj (pure_eq_ok_iff.mp h)
  exact ⟨b, c₁, hb, hc₁, hg⟩

theorem consistent_emitTerminator (hc : c.func.Consistent)
    (h : c.emitTerminator op os = .ok (i, c')) : c'.func.Consistent := by
  obtain ⟨b, c₁, -, hc₁, hg⟩ := emitTerminator_eq_ok h
  exact foldlM_keeps (fun _ _ _ _ hf => hf.addPred) (consistent_emit hc hc₁) hg

theorem consistent_addIncoming {v : Operand} {b : BlockId} (hc : c.func.Consistent)
    (h : c.addIncoming i v b = .ok c') : c'.func.Consistent := by
  obtain ⟨f, hf, h⟩ := bind_eq_ok_iff.mp h
  obtain ⟨g, hg, h⟩ := bind_eq_ok_iff.mp h
  obtain rfl := pure_eq_ok_iff.mp h
  exact (hc.pushIncoming hf).pushOperand hg

theorem named_eq_ok {m : Checked (InstId × Cursor)} {r : Reply}
    (h : build.named m = .ok (r, c')) : ∃ i, m = .ok (i, c') := by
  obtain ⟨⟨i, c₁⟩, h₁, h⟩ := bind_eq_ok_iff.mp h
  obtain ⟨-, rfl⟩ := Prod.mk.inj (pure_eq_ok_iff.mp h)
  exact ⟨i, h₁⟩

theorem consistent_build {step : Build} {r : Reply} (hc : c.func.Consistent)
    (h : c.build step = .ok (r, c')) : c'.func.Consistent := by
  cases step with
  | block =>
    obtain ⟨-, rfl⟩ := Prod.mk.inj (pure_eq_ok_iff.mp h)
    exact hc.addBlock
  | switch b =>
    obtain ⟨-, rfl⟩ := Prod.mk.inj (pure_eq_ok_iff.mp h)
    exact hc
  | incoming phi value source =>
    obtain ⟨c₁, h₁, h⟩ := bind_eq_ok_iff.mp h
    obtain ⟨-, rfl⟩ := Prod.mk.inj (pure_eq_ok_iff.mp h)
    exact consistent_addIncoming hc h₁
  | phi | memPhi =>
    obtain ⟨i, h⟩ := named_eq_ok h
    exact consistent_emitPhi hc h
  | jump | branch =>
    obtain ⟨i, h⟩ := named_eq_ok h
    exact consistent_emitTerminator hc h
  | binary | compare | cast | select | elementPtr | load | store | call | alloca | ret =>
    obtain ⟨i, h⟩ := named_eq_ok h
    exact consistent_emit hc h

theorem silent_eq_ok {m : Checked Func} {r : Reply} (h : edit.silent c m = .ok (r, c')) :
    m = .ok c'.func := by
  obtain ⟨f, hf, h⟩ := bind_eq_ok_iff.mp h
  obtain ⟨-, rfl⟩ := Prod.mk.inj (pure_eq_ok_iff.mp h)
  exact hf

theorem consistent_edit {e : Edit} {r : Reply} (hc : c.func.Consistent)
    (h : c.edit e = .ok (r, c')) : c'.func.Consistent := by
  cases e with
  | build step => exact consistent_build hc h
  | create op ty os =>
    obtain ⟨⟨i, f⟩, hf, h⟩ := bind_eq_ok_iff.mp h
    obtain ⟨-, rfl⟩ := Prod.mk.inj (pure_eq_ok_iff.mp h)
    exact hc.create hf
  | pushOperand i o => exact hc.pushOperand (silent_eq_ok h)
  | replaceUses i o =>
    obtain ⟨⟨n, f⟩, hf, h⟩ := bind_eq_ok_iff.mp h
    obtain ⟨-, rfl⟩ := Prod.mk.inj (pure_eq_ok_iff.mp h)
    exact hc.replaceUses hf
  | append i b => exact hc.placed (append_spec (silent_eq_ok h))
  | insertBefore i target =>
    obtain ⟨b, front, back, -, hplaced⟩ := insertBefore_spec (silent_eq_ok h)
    exact hc.placed hplaced
  | detach i =>
    exact hc.detached (detach_spec (fun b => hc.mem_list b i) (silent_eq_ok h))
  | erase i => exact hc.erased (erase_spec hc (silent_eq_ok h))

/-- What a script does to a consistent function, it does step by step. -/
theorem consistent_run {script : List Edit} (hc : c.func.Consistent)
    (h : c.run script = .ok c') : c'.func.Consistent := by
  refine foldlM_keeps (P := fun c => c.func.Consistent) (fun c₁ e c₂ _ hc₁ h₁ => ?_) hc h
  obtain ⟨⟨r, c₃⟩, h₃, h₁⟩ := bind_eq_ok_iff.mp h₁
  obtain rfl := pure_eq_ok_iff.mp h₁
  exact consistent_edit hc₁ h₃

end Cursor

namespace Func

/-- A function as scripts make it: the edits of a script, done to a function without a body. -/
def Built (f : Func) : Prop :=
  ∃ (start : Func) (script : List Edit) (c : Cursor), start.blocks = #[] ∧ start.insts = #[] ∧
    Cursor.run { func := start } script = .ok c ∧ c.func = f

/-- A function without a body has nothing that could be inconsistent. -/
theorem consistent_of_empty {f : Func} (hblocks : f.blocks = #[]) (hinsts : f.insts = #[]) :
    f.Consistent := by
  have hbare : ∀ i, f.bare? i = none := by simp [bare?, hinsts]
  constructor
  · simp [usesOf, hinsts]
  · simp [usesOf, hinsts, slot, operandsOf, hbare]
  · simp [listOf, hblocks]
  · simp [listOf, hblocks, homeOf, hbare]

theorem Built.consistent {f : Func} (h : f.Built) : f.Consistent := by
  obtain ⟨start, script, c, hblocks, hinsts, hrun, rfl⟩ := h
  exact Cursor.consistent_run (consistent_of_empty hblocks hinsts) hrun

theorem Consistent.count_uses {f : Func} (hf : f.Consistent) (d : InstId) (u : Use) :
    (f.usesOf d).count u = if f.slot u = some (.inst d) then 1 else 0 := by
  rw [List.Nodup.count (hf.uses_nodup d)]
  simp only [hf.mem_uses d u]

/-- The function that construction steps make from nothing; a step that faults leaves it empty. -/
def made (params : List Ty) (steps : List Build) : Func :=
  let start : Func := { name := "f", returnType := .void, params }
  match Cursor.run { func := start } (steps.map .build) with
  | .ok c => c.func
  | .error _ => start

theorem built_made (params : List Ty) (steps : List Build) : (made params steps).Built := by
  rw [made]
  cases h : Cursor.run { func := { name := "f", returnType := .void, params } }
      (steps.map .build) with
  | ok c => exact ⟨_, _, c, rfl, rfl, h, rfl⟩
  | error e => exact ⟨_, [], _, rfl, rfl, rfl, rfl⟩

end Func

namespace Cursor

open Func

/-- **Every state of a script is consistent.** Take a script that runs to its end on a function
without a body. After each of its edits, the edges recorded on an instruction are those of the
slots that read it, each recorded once; and an instruction is at home in a block exactly if the
block lists it, which it then does once, and no other block does. -/
theorem run_states_exact {start : Func} (hblocks : start.blocks = #[]) (hinsts : start.insts = #[])
    {script done : List Edit} {c : Cursor} (hrun : run { func := start } script = .ok c)
    (hdone : done <+: script) :
    ∃ m, run { func := start } done = .ok m ∧
      (∀ d u, (m.func.usesOf d).count u = if m.func.slot u = some (.inst d) then 1 else 0) ∧
      ∀ i b, (m.func.homeOf i = some b ↔ i ∈ m.func.listOf b) ∧
        (i ∈ m.func.listOf b →
          (m.func.listOf b).count i = 1 ∧ ∀ b', i ∈ m.func.listOf b' → b' = b) := by
  obtain ⟨rest, rfl⟩ := hdone
  obtain ⟨m, hm, -⟩ := foldlM_append_ok_iff.mp hrun
  have hc : m.func.Consistent := consistent_run (consistent_of_empty hblocks hinsts) hm
  refine ⟨m, hm, hc.count_uses, fun i b => ⟨(hc.mem_list b i).symm, fun hi => ⟨?_, ?_⟩⟩⟩
  · exact List.count_eq_one_of_mem (hc.list_nodup b) hi
  · intro b' hb'
    exact hc.home_unique hb' hi

/-- A sum that reads itself, a product of that sum with itself, and an instruction that gets an
operand and a block again after it was erased. -/
def tangledEdits : List Edit := [
  .build .block, .build .block, .build (.switch ⟨0⟩),
  .build (.binary .add .i32 (.inst ⟨0⟩) (.lit (.i32 1))),
  .build (.binary .mul .i32 (.inst ⟨0⟩) (.inst ⟨0⟩)),
  .create (.binary .sub) .i32 [.inst ⟨1⟩, .inst ⟨0⟩], .append ⟨2⟩ ⟨1⟩,
  .erase ⟨2⟩, .pushOperand ⟨2⟩ (.inst ⟨0⟩), .append ⟨2⟩ ⟨0⟩,
  .replaceUses ⟨0⟩ (.inst ⟨1⟩), .detach ⟨1⟩, .insertBefore ⟨1⟩ ⟨2⟩, .build (.jump ⟨1⟩)]

/-- After eleven of the edits, the product reads itself twice and is read by the two others. -/
theorem run_states_exact_tangledEdits :
    ∃ m, run { func := .made [] [] } (tangledEdits.take 11) = .ok m ∧
      m.func.usesOf ⟨1⟩ = [⟨⟨0⟩, 0⟩, ⟨⟨1⟩, 0⟩, ⟨⟨1⟩, 1⟩, ⟨⟨2⟩, 0⟩] ∧
      (∀ d u, (m.func.usesOf d).count u = if m.func.slot u = some (.inst d) then 1 else 0) ∧
      m.func.listOf ⟨0⟩ = [⟨0⟩, ⟨1⟩, ⟨2⟩] ∧ ∀ b', ⟨2⟩ ∈ m.func.listOf b' → b' = ⟨0⟩ := by
  obtain ⟨c, hc, -⟩ := exists_ok_of_any (x := run { func := .made [] [] } tangledEdits)
    (q := fun _ => true) (by decide +kernel)
  obtain ⟨m', hm', hviews⟩ := exists_ok_of_any
    (x := run { func := .made [] [] } (tangledEdits.take 11))
    (q := fun m => m.func.usesOf ⟨1⟩ = [⟨⟨0⟩, 0⟩, ⟨⟨1⟩, 0⟩, ⟨⟨1⟩, 1⟩, ⟨⟨2⟩, 0⟩] ∧
      m.func.listOf ⟨0⟩ = [⟨0⟩, ⟨1⟩, ⟨2⟩]) (by decide +kernel)
  obtain ⟨m, hm, huses, hlists⟩ := run_states_exact (by decide +kernel) (by decide +kernel) hc
    (List.take_prefix 11 tangledEdits)
  obtain rfl := Except.ok.inj (hm.symm.trans hm')
  obtain ⟨hedges, hlist⟩ := of_decide_eq_true hviews
  refine ⟨m, hm, hedges, huses, hlist, ?_⟩
  exact ((hlists ⟨2⟩ ⟨0⟩).2 (by simp [hlist])).2

end Cursor

end SsaOpt
