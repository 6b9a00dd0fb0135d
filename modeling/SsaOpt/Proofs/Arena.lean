import Mathlib.Data.List.Nodup
import SsaOpt.Func.Edit
import SsaOpt.Proofs.Checked

/-! The arenas of a function, seen through three views: the data of each instruction without its
use edges, the use edges of each instruction, and the list of each block. Every edit is specified
by what it does to the views, and keeps them consistent: an edge is recorded once for each slot
that reads an instruction, and a block lists, once, the instructions that are at home there. -/

namespace SsaOpt

/-- The data of an instruction without the edges recorded on it. -/
def Instruction.bare (x : Instruction) : Instruction := { x with uses := [] }

/-- What reads `i` reads `o` instead. -/
def Operand.subst (i : InstId) (o : Operand) : Operand → Operand :=
  fun p => if p = .inst i then o else p

namespace Func

def bare? (f : Func) (i : InstId) : Option Instruction := f.insts[i.index]?.map Instruction.bare

def usesOf (f : Func) (d : InstId) : List Use := f.insts[d.index]?.elim [] Instruction.uses

def listOf (f : Func) (b : BlockId) : List InstId := f.blocks[b.index]?.elim [] BasicBlock.insts

def operandsOf (f : Func) (i : InstId) : List Operand := (f.bare? i).elim [] Instruction.operands

def homeOf (f : Func) (i : InstId) : Option BlockId := (f.bare? i).bind Instruction.home

/-- What a function is besides its body. -/
def signature (f : Func) : String × Ty × List Ty × Bool :=
  (f.name, f.returnType, f.params, f.isDeclaration)

/-- What the slot of an edge reads. -/
def slot (f : Func) (u : Use) : Option Operand := (f.operandsOf u.user)[u.index]?

/-- Operand slots agree with use edges, and block lists with the homes of the instructions. -/
structure Consistent (f : Func) : Prop where
  uses_nodup : ∀ d, (f.usesOf d).Nodup
  mem_uses : ∀ d u, u ∈ f.usesOf d ↔ f.slot u = some (.inst d)
  list_nodup : ∀ b, (f.listOf b).Nodup
  mem_list : ∀ b i, i ∈ f.listOf b ↔ f.homeOf i = some b

variable {f g : Func} {i j d : InstId} {b : BlockId} {o : Operand} {u : Use} {x y : Instruction}

/-! ## Lookups -/

theorem bare?_eq_some_iff : f.bare? i = some y ↔ ∃ x, f.inst i = .ok x ∧ x.bare = y := by
  simp [bare?, inst_eq_ok_iff]

theorem bare?_of_inst (h : f.inst i = .ok x) : f.bare? i = some x.bare :=
  bare?_eq_some_iff.mpr ⟨x, h, rfl⟩

theorem usesOf_of_inst (h : f.inst i = .ok x) : f.usesOf i = x.uses := by
  simp [usesOf, inst_eq_ok_iff.mp h]

theorem operandsOf_of_inst (h : f.inst i = .ok x) : f.operandsOf i = x.operands := by
  simp [operandsOf, bare?_of_inst h, Instruction.bare]

theorem homeOf_of_inst (h : f.inst i = .ok x) : f.homeOf i = x.home := by
  simp [homeOf, bare?_of_inst h, Instruction.bare]

theorem listOf_of_block {x : BasicBlock} (h : f.block b = .ok x) : f.listOf b = x.insts := by
  simp [listOf, block_eq_ok_iff.mp h]

theorem exists_inst_of_bare (h : (f.bare? i).isSome) : ∃ x, f.inst i = .ok x := by
  obtain ⟨y, hy⟩ := Option.isSome_iff_exists.mp h
  obtain ⟨x, hx, -⟩ := bare?_eq_some_iff.mp hy
  exact ⟨x, hx⟩

theorem exists_inst_of_mem_uses (h : u ∈ f.usesOf d) : ∃ x, f.inst d = .ok x := by
  cases hd : f.insts[d.index]? with
  | none => simp [usesOf, hd] at h
  | some x => exact ⟨x, inst_eq_ok_iff.mpr hd⟩

theorem exists_inst_of_slot (h : f.slot u = some o) : ∃ x, f.inst u.user = .ok x := by
  cases hx : f.insts[u.user.index]? with
  | none => simp [slot, operandsOf, bare?, hx] at h
  | some x => exact ⟨x, inst_eq_ok_iff.mpr hx⟩

theorem exists_block_of_mem (h : i ∈ f.listOf b) : ∃ x, f.block b = .ok x := by
  cases hb : f.blocks[b.index]? with
  | none => simp [listOf, hb] at h
  | some x => exact ⟨x, block_eq_ok_iff.mpr hb⟩

theorem exists_block (hb : b.index < f.numBlocks) : ∃ x, f.block b = .ok x :=
  ⟨f.blocks[b.index], block_eq_ok_iff.mpr (Array.getElem?_eq_getElem hb)⟩

theorem mem_placed_iff : i ∈ f.placed ↔ ∃ b, i ∈ f.listOf b := by
  simp only [placed, List.mem_flatMap, Array.mem_toList_iff, Array.mem_iff_getElem?]
  constructor
  · rintro ⟨y, ⟨n, hn⟩, hi⟩
    exact ⟨⟨n⟩, by simpa [listOf, hn] using hi⟩
  · rintro ⟨b, hi⟩
    obtain ⟨y, hy⟩ := exists_block_of_mem hi
    exact ⟨y, ⟨b.index, block_eq_ok_iff.mp hy⟩, listOf_of_block hy ▸ hi⟩

theorem placed_eq_nil (h : ¬0 < f.numBlocks) : f.placed = [] := by
  have hblocks : f.blocks = #[] := Array.size_eq_zero_iff.mp (Nat.eq_zero_of_not_pos h)
  simp [placed, hblocks]

theorem reads_eq : f.reads i = (f.operandsOf i).filterMap Operand.inst? := by
  simp only [reads, operandsOf, bare?]
  cases f.insts[i.index]? <;> rfl

theorem mem_reads_iff : d ∈ f.reads i ↔ ∃ k, f.slot ⟨i, k⟩ = some (.inst d) := by
  have hinst : ∀ o : Operand, o.inst? = some d ↔ o = .inst d := by
    rintro (_ | _ | _ | _) <;> simp [Operand.inst?]
  rw [reads_eq, List.mem_filterMap]
  simp only [slot, hinst, exists_eq_right, ← List.mem_iff_getElem?]

theorem Consistent.bare?_of_mem (hf : f.Consistent) (h : i ∈ f.listOf b) :
    ∃ x, f.bare? i = some x := by
  rw [hf.mem_list, homeOf] at h
  obtain ⟨x, hx, -⟩ := Option.bind_eq_some_iff.mp h
  exact ⟨x, hx⟩

theorem Consistent.exists_inst (hf : f.Consistent) (h : i ∈ f.listOf b) :
    ∃ x, f.inst i = .ok x := by
  obtain ⟨y, hy⟩ := hf.bare?_of_mem h
  obtain ⟨x, hx, -⟩ := bare?_eq_some_iff.mp hy
  exact ⟨x, hx⟩

theorem Consistent.home_unique (hf : f.Consistent) {c : BlockId} (hb : i ∈ f.listOf b)
    (hc : i ∈ f.listOf c) : b = c := by
  rw [hf.mem_list] at hb hc
  exact Option.some.inj (hb.symm.trans hc)

theorem Consistent.placed_nodup (hf : f.Consistent) : f.placed.Nodup := by
  unfold placed
  rw [List.nodup_flatMap]
  constructor
  · intro y hy
    obtain ⟨n, hn⟩ := Array.mem_iff_getElem?.mp (Array.mem_toList_iff.mp hy)
    exact listOf_of_block (b := ⟨n⟩) (block_eq_ok_iff.mpr hn) ▸ hf.list_nodup ⟨n⟩
  · rw [List.pairwise_iff_getElem]
    intro m n hm hn hlt i hi hi'
    have hmem : ∀ k (hk : k < f.blocks.toList.length), i ∈ f.blocks.toList[k].insts →
        i ∈ f.listOf ⟨k⟩ := by
      intro k hk hik
      have hblock : f.block ⟨k⟩ = .ok f.blocks.toList[k] := block_eq_ok_iff.mpr (by simp_all)
      rwa [listOf_of_block hblock]
    have heq := hf.home_unique (hmem m hm hi) (hmem n hn hi')
    exact absurd (BlockId.mk.inj heq) (by omega)

/-! ## The two ways to modify an arena -/

theorem bare?_modifyInst {h : Instruction → Instruction} (hh : ∀ x, (h x).bare = h x.bare) :
    (f.modifyInst i h).bare? j = if i = j then (f.bare? j).map h else f.bare? j := by
  obtain ⟨i⟩ := i
  obtain ⟨j⟩ := j
  simp only [bare?, modifyInst, Array.getElem?_modify, InstId.mk.injEq]
  split
  · cases f.insts[j]? <;> simp [hh]
  · rfl

theorem bare?_modifyInst_of_bare {h : Instruction → Instruction}
    (hh : ∀ x, (h x).bare = x.bare) : (f.modifyInst i h).bare? j = f.bare? j := by
  simp only [bare?, modifyInst, Array.getElem?_modify]
  split
  · cases f.insts[j.index]? <;> simp [hh]
  · rfl

@[simp] theorem isSome_bare?_modifyInst {h : Instruction → Instruction} :
    ((f.modifyInst i h).bare? j).isSome = (f.bare? j).isSome := by
  simp only [bare?, modifyInst, Array.getElem?_modify]
  split
  · cases f.insts[j.index]? <;> rfl
  · rfl

theorem usesOf_modifyInst {h : Instruction → Instruction} {k : List Use → List Use}
    (hh : ∀ x, (h x).uses = k x.uses) (hx : f.inst i = .ok x) :
    (f.modifyInst i h).usesOf j = if i = j then k (f.usesOf j) else f.usesOf j := by
  have hx := inst_eq_ok_iff.mp hx
  obtain ⟨i⟩ := i
  obtain ⟨j⟩ := j
  simp only [usesOf, modifyInst, Array.getElem?_modify, InstId.mk.injEq]
  split
  · next hij => subst hij; simp [hx, hh]
  · rfl

theorem usesOf_modifyInst_of_uses {h : Instruction → Instruction}
    (hh : ∀ x, (h x).uses = x.uses) : (f.modifyInst i h).usesOf j = f.usesOf j := by
  simp only [usesOf, modifyInst, Array.getElem?_modify]
  split
  · cases f.insts[j.index]? <;> simp [hh]
  · rfl

theorem listOf_modifyBlock {c : BlockId} {h : BasicBlock → BasicBlock}
    {k : List InstId → List InstId} (hh : ∀ x, (h x).insts = k x.insts) {x : BasicBlock}
    (hx : f.block b = .ok x) :
    (f.modifyBlock b h).listOf c = if b = c then k (f.listOf c) else f.listOf c := by
  have hx := block_eq_ok_iff.mp hx
  obtain ⟨b⟩ := b
  obtain ⟨c⟩ := c
  simp only [listOf, modifyBlock, Array.getElem?_modify, BlockId.mk.injEq]
  split
  · next hbc => subst hbc; simp [hx, hh]
  · rfl

@[simp] theorem listOf_modifyInst {h : Instruction → Instruction} :
    (f.modifyInst i h).listOf b = f.listOf b := rfl

@[simp] theorem bare?_modifyBlock {h : BasicBlock → BasicBlock} :
    (f.modifyBlock b h).bare? i = f.bare? i := rfl

@[simp] theorem usesOf_modifyBlock {h : BasicBlock → BasicBlock} :
    (f.modifyBlock b h).usesOf i = f.usesOf i := rfl

@[simp] theorem numBlocks_modifyInst {h : Instruction → Instruction} :
    (f.modifyInst i h).numBlocks = f.numBlocks := rfl

@[simp] theorem numBlocks_modifyBlock {h : BasicBlock → BasicBlock} :
    (f.modifyBlock b h).numBlocks = f.numBlocks := by simp [numBlocks, modifyBlock]

end Func

end SsaOpt
