import Mathlib.Data.Set.Card
import SsaOpt.Proofs.Consistency

/-! Replacing the uses of an instruction is a substitution on operand slots. The edit visits only
the slots of the recorded edges; that it misses none and that its answer counts them rests on the
consistency of every function that a script can make. -/

namespace SsaOpt

namespace Func

variable {f g : Func} {i : InstId} {o : Operand} {n : Nat}

/-- `g` is `f` with `o` in each of the `n` slots that read `i`. The edges of these slots are at the
end of the list of the instruction that `o` reads, and nothing else is different. -/
structure Substituted (f : Func) (i : InstId) (o : Operand) (n : Nat) (g : Func) : Prop where
  slots : ∀ u, g.slot u = if f.slot u = some (.inst i) then some o else f.slot u
  count : {u | f.slot u = some (.inst i)}.encard = n
  unused : g.usesOf i = []
  gained : ∀ d, o = .inst d → g.usesOf d = f.usesOf d ++ f.usesOf i
  kept : ∀ d, d ≠ i → o ≠ .inst d → g.usesOf d = f.usesOf d
  data : ∀ j, (g.bare? j).map (fun x => { x with operands := [] }) =
    (f.bare? j).map fun x => { x with operands := [] }
  blocks : g.blocks = f.blocks

/-- No slot and no edge of `g` mentions `i`, and the slots and edges that do not are those of
`f`. -/
structure Forgotten (f : Func) (i : InstId) (g : Func) : Prop where
  unread : ∀ u, g.slot u ≠ some (.inst i)
  unused : g.usesOf i = []
  idle : (∀ k, g.slot ⟨i, k⟩ = none) ∧ ∀ d, ∀ u ∈ g.usesOf d, u.user ≠ i
  slots : ∀ u, u.user ≠ i → g.slot u = f.slot u
  edges : ∀ d u, u.user ≠ i → (u ∈ g.usesOf d ↔ u ∈ f.usesOf d)

/-- As each slot has one edge, the slots that read `i` are as many as its edges. -/
theorem Consistent.encard_readers (hf : f.Consistent) (i : InstId) :
    {u | f.slot u = some (.inst i)}.encard = (f.usesOf i).length := by
  have hset : {u | f.slot u = some (.inst i)} = ((f.usesOf i).toFinset : Set Use) := by
    ext u
    rw [Set.mem_ofPred_eq, List.coe_toFinset, Set.mem_ofPred_eq, hf.mem_uses]
  rw [hset, Set.encard_coe_eq_coe_finsetCard, List.toFinset_card_of_nodup (hf.uses_nodup i)]

theorem Consistent.substituted (hf : f.Consistent) (ho : o ≠ .inst i)
    (h : f.replaceUses i o = .ok (n, g)) : Substituted f i o n g := by
  obtain ⟨hblocks, hbare, huses⟩ := replaceUses_spec hf ho h
  refine ⟨fun u => ?_, ?_, ?_, fun d hd => ?_, fun d hdi hd => ?_, fun j => ?_, hblocks⟩
  · rw [slot_replaceUses hf ho h]
    cases f.slot u with
    | none => rfl
    | some p => simp only [Option.map_some, Option.some.injEq, Operand.subst, apply_ite some]
  · rw [hf.encard_readers, replaceUses_count ho h]
  · rw [huses, if_pos rfl]
  · have hdi : d ≠ i := fun hdi => ho (hdi ▸ hd)
    rw [huses, if_neg hdi, if_pos hd]
  · rw [huses, if_neg hdi, if_neg hd]
  · rw [hbare, Option.map_map]
    rfl

/-- What nothing reads leaves no trace when it is deleted. -/
theorem Erased.forgotten (hf : f.Consistent) (h : Erased f i g) : Forgotten f i g := by
  have hg := hf.erased h
  have hunused : g.usesOf i = [] := by
    rw [List.eq_nil_iff_forall_not_mem]
    intro u hu
    have hold := ((h.mem_uses i u).mp hu).1
    rw [h.unread] at hold
    exact List.not_mem_nil hold
  refine ⟨fun u hu => ?_, hunused, ⟨fun k => ?_, fun d u hu => ?_⟩, fun u hu => ?_,
    fun d u hu => ?_⟩
  · have hmem := (hg.mem_uses i u).mpr hu
    rw [hunused] at hmem
    exact List.not_mem_nil hmem
  · rw [h.slot_eq, if_pos rfl]
  · exact ((h.mem_uses d u).mp hu).2
  · rw [h.slot_eq, if_neg fun hi => hu hi.symm]
  · rw [h.mem_uses, and_iff_left hu]

/-- **Replacing uses is exact.** Take any function that a script makes, one of its instructions
`i`, and an operand other than `i` itself that, if it reads an instruction, reads one that exists.
Then every slot that read `i` gets the operand, in whatever instruction it is, and no other slot
changes; the answer is the number of these slots, and their edges move along in order. Afterwards
`i` can be deleted, and then nothing mentions it. -/
theorem replaceUses_then_erase (hf : f.Built) (hi : ∃ x, f.inst i = .ok x) (ho : o ≠ .inst i)
    (hknown : ∀ d, o = .inst d → ∃ x, f.inst d = .ok x) :
    ∃ n g, f.replaceUses i o = .ok (n, g) ∧ Substituted f i o n g ∧
      ∃ e, g.erase i = .ok e ∧ Forgotten g i e := by
  have hc := hf.consistent
  have hbare : ∀ {d}, (∃ x, f.inst d = .ok x) → (f.bare? d).isSome := by
    rintro d ⟨x, hx⟩
    simp [bare?_of_inst hx]
  obtain ⟨n, g, hg⟩ := exists_replaceUses hc (hbare hi) fun d hd => hbare (hknown d hd)
  have hsubst := hc.substituted ho hg
  have hcg := hc.replaceUses hg
  have hig : (g.bare? i).isSome := by
    rw [(replaceUses_spec hc ho hg).2.1, Option.isSome_map]
    exact hbare hi
  obtain ⟨e, he⟩ := exists_erase hcg hig hsubst.unused
  exact ⟨n, g, hg, hsubst, e, he, (erase_spec hcg he).forgotten hcg⟩

/-- The sum reads itself, the product reads the sum twice, and so do an instruction in no block and
an erased one, once each. -/
def sharedSum : List Edit := [
  .build .block, .build (.switch ⟨0⟩),
  .build (.binary .add .i32 (.inst ⟨0⟩) (.lit (.i32 1))),
  .build (.binary .mul .i32 (.inst ⟨0⟩) (.inst ⟨0⟩)),
  .create (.binary .sub) .i32 [.inst ⟨1⟩, .inst ⟨0⟩],
  .create (.cast .zext) .i64 [], .erase ⟨3⟩, .pushOperand ⟨3⟩ (.inst ⟨0⟩)]

/-- The sum is replaced by one of its own readers, which reads itself then. -/
theorem replaceUses_then_erase_sharedSum :
    ∃ c, Cursor.run { func := .made [] [] } sharedSum = .ok c ∧
      ∃ g, c.func.replaceUses ⟨0⟩ (.inst ⟨1⟩) = .ok (5, g) ∧
        Substituted c.func ⟨0⟩ (.inst ⟨1⟩) 5 g ∧
        g.usesOf ⟨1⟩ = [⟨⟨2⟩, 0⟩, ⟨⟨0⟩, 0⟩, ⟨⟨1⟩, 0⟩, ⟨⟨1⟩, 1⟩, ⟨⟨2⟩, 1⟩, ⟨⟨3⟩, 0⟩] ∧
        ∃ e, g.erase ⟨0⟩ = .ok e ∧ Forgotten g ⟨0⟩ e := by
  obtain ⟨c, hc, hviews⟩ := exists_ok_of_any (x := Cursor.run { func := .made [] [] } sharedSum)
    (q := fun c => c.func.insts.size = 4 ∧ c.func.usesOf ⟨1⟩ = [⟨⟨2⟩, 0⟩] ∧
      c.func.usesOf ⟨0⟩ = [⟨⟨0⟩, 0⟩, ⟨⟨1⟩, 0⟩, ⟨⟨1⟩, 1⟩, ⟨⟨2⟩, 1⟩, ⟨⟨3⟩, 0⟩]) (by decide)
  obtain ⟨hsize, hproduct, hsum⟩ := of_decide_eq_true hviews
  have hbuilt : c.func.Built := ⟨.made [] [], sharedSum, c, by decide, by decide, hc, rfl⟩
  have hknown : ∀ k < 4, ∃ x, c.func.inst ⟨k⟩ = .ok x := fun k hk =>
    ⟨_, inst_eq_ok_iff.mpr (Array.getElem?_eq_getElem (hsize ▸ hk))⟩
  obtain ⟨n, g, hg, hsubst, hforgotten⟩ := replaceUses_then_erase hbuilt (o := .inst ⟨1⟩)
    (hknown 0 (by decide)) (by decide) fun d hd => Operand.inst.inj hd ▸ hknown 1 (by decide)
  obtain rfl : n = 5 := by rw [replaceUses_count (by decide) hg, hsum]; rfl
  refine ⟨c, hc, g, hg, hsubst, ?_, hforgotten⟩
  rw [hsubst.gained ⟨1⟩ rfl, hproduct, hsum]
  rfl

end Func

end SsaOpt
