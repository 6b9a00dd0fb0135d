import SsaOpt.Proofs.Loads

/-! Stores between a load and the load that takes its place.

Addresses to which the function stores are left alone, but they are compared by the operands that
address computations have when the pass begins, and a load is looked up under the operands that they
have by then. The two differ if the base of an address is itself a load that was deleted, and then
a load can be reused across a store to its own address. -/

namespace SsaOpt

namespace Func

variable {f g : Func} {d : InstId} {seen : List InstId} {reuses : List (InstId × InstId)}
  {table : Bindings Address InstId}

/-- Some walk executes `e`, later stores to the address and later still comes to `x`, and does not
execute `e` again in between. -/
def StoredBetween (f : Func) (e x : InstId) (address : Address) : Prop :=
  ∃ u v q before middle after, Path f.Edge u v q ∧
    q.flatMap f.listOf = before ++ e :: (middle ++ x :: after) ∧ e ∉ middle ∧
    ∃ i ∈ middle, f.StoresTo i address

theorem StoredBetween.exists_store {e x : InstId} {address : Address}
    (h : f.StoredBetween e x address) :
    (∃ b, x ∈ f.listOf b) ∧ ∃ b i, i ∈ f.listOf b ∧ f.StoresTo i address := by
  obtain ⟨u, v, q, before, middle, after, -, hexec, -, i, hi, hstores⟩ := h
  have hplaced : ∀ {j}, j ∈ before ++ e :: (middle ++ x :: after) → ∃ b, j ∈ f.listOf b := by
    intro j hj
    rw [← hexec] at hj
    obtain ⟨b, -, hj⟩ := List.mem_flatMap.mp hj
    exact ⟨b, hj⟩
  obtain ⟨b, hb⟩ := hplaced (by simp [hi] : i ∈ _)
  exact ⟨hplaced (by simp), b, i, hb, hstores⟩

/-- An address computation that reads no deleted load has the operands that it had. -/
theorem Ledger.operandsOf_eq (h : Ledger f g seen reuses table) (hpr : Pruned f g seen)
    (hptr : f.op? d = some .elementPtr) (hlive : f.live d)
    (hbase : ∀ y ∈ f.reads d, ∀ e, (y, e) ∉ reuses) : g.operandsOf d = f.operandsOf d := by
  obtain ⟨w, hw, hwlive⟩ := live_iff.mp hlive
  obtain ⟨z, hz⟩ : ∃ z, g.bare? d = some z := by
    obtain ⟨z, hz, -⟩ := Option.map_eq_some_iff.mp ((hpr.op d).trans hptr)
    exact ⟨z, hz⟩
  have hkept : z.erased = false := by
    rw [← Bool.not_eq_true]
    intro herased
    -- only loads are deleted
    obtain ⟨e, he⟩ := h.deleted hz herased hw hwlive
    obtain ⟨_, _, hload, -⟩ := (h.reuse he).address
    cases hptr.symm.trans hload.load
  obtain ⟨w', hw', -, -, hlen⟩ := hpr.shape hz
  obtain rfl := Option.some.inj (hw.symm.trans hw')
  have hslot : ∀ k, g.slot ⟨d, k⟩ = z.operands[k]? ∧ f.slot ⟨d, k⟩ = w.operands[k]? := by
    intro k
    simp [slot, operandsOf, hz, hw]
  suffices heq : z.operands = w.operands by simpa [operandsOf, hz, hw] using heq
  refine List.ext_getElem? fun k => ?_
  cases hk : w.operands[k]? with
  | none =>
    rw [List.getElem?_eq_none_iff] at hk ⊢
    exact (hlen hkept).2 ▸ hk
  | some o =>
    have ho : f.slot ⟨d, k⟩ = some o := (hslot k).2.trans hk
    have hread : ∀ x e, (x, e) ∈ reuses → o ≠ .inst x := by
      rintro x e hxe rfl
      exact hbase x (mem_reads_iff.mpr ⟨k, ho⟩) e hxe
    rcases h.others hread ho with hnone | hsome
    · rw [(hslot k).1, List.getElem?_eq_none_iff, (hlen hkept).2, ← List.getElem?_eq_none_iff,
        hk] at hnone
      cases hnone
    · rw [← (hslot k).1, hsome]

/-- No walk stores to the address under which a deleted load was looked up. -/
theorem Ledger.not_storedBetween {x e : InstId} (h : Ledger f g seen reuses table)
    (hxe : (x, e) ∈ reuses) (hload : f.LoadsFrom x d) : ¬f.StoredBetween e x (g.operandsOf d) := by
  intro hstored
  obtain ⟨-, b, i, hi, hstores⟩ := hstored.exists_store
  exact h.unstored hxe hload hi hstores

/-- Nor to the one that the function had in the beginning, if that reads no deleted load. -/
theorem Ledger.not_storedBetween_first {x e : InstId} (h : Ledger f g seen reuses table)
    (hpr : Pruned f g seen) (htied : f.Tied) (hxe : (x, e) ∈ reuses) (hload : f.LoadsFrom x d)
    (hbase : ∀ y ∈ f.reads d, ∀ e', (y, e') ∉ reuses) :
    ¬f.StoredBetween e x (f.operandsOf d) := by
  intro hstored
  obtain ⟨⟨b, hx⟩, -⟩ := hstored.exists_store
  have hread : d ∈ f.reads x := mem_reads_iff.mpr ⟨0, hload.operand⟩
  have hlive := (htied.linked hx).reads d hread
  rw [← h.operandsOf_eq hpr hload.address hlive hbase] at hstored
  exact h.not_storedBetween hxe hload hstored

end Func

namespace Loads

open Func

/-- **Elimination of loads and stores to the same address.** Take a function that was accepted,
whose instructions have the operands that they are built with. If a load was deleted in favour of
another, then no walk from an execution of the other to the deleted load stores to the address under
which the load was looked up, the one that the function computes in the end. Nor does it store to
the address that the function computed in the beginning, unless the computation of the address reads
a load that was deleted as well. In both parts the walk and the addresses of its stores are those of
the function as it was in the beginning; it is only the address of the load that the first part reads
in the result. -/
theorem run_reuses_unstored {f : Func} (hbuilt : f.Built) (hdecl : f.isDeclaration = false)
    (hcheck : f.check = .ok ()) (hlayout : f.LaidOut) {a : Analysis}
    (ha : Analysis.ofFunc f = .ok a) :
    ∃ p, run a f = .ok p ∧ ∀ {x e d}, (x, e) ∈ p.reuses → f.LoadsFrom x d →
      ¬f.StoredBetween e x (p.func.operandsOf d) ∧
        ((∀ y ∈ f.reads d, ∀ e', (y, e') ∉ p.reuses) →
          ¬f.StoredBetween e x (f.operandsOf d)) := by
  by_cases h₀ : 0 < f.numBlocks
  · obtain ⟨rank, hd⟩ := Analysis.describes ha h₀
    have hf := hbuilt.consistent.valid hdecl h₀ hcheck
    have htied := hbuilt.consistent.tied hdecl hcheck
    obtain ⟨p, seen, table, hp, hpr, hledger⟩ := exists_run hd hf htied hlayout
    exact ⟨p, hp, fun hxe hload => ⟨hledger.not_storedBetween hxe hload, fun hbase =>
      hledger.not_storedBetween_first hpr htied hxe hload hbase⟩⟩
  · exact ⟨_, run_of_no_blocks h₀, fun hxe => absurd hxe List.not_mem_nil⟩

/-- A pointer is loaded twice, and an element of the array that it points to is loaded before a
branch and where the arms join. One arm stores to an element. The second load of the element and the
store go by `base`, and `index` is the place of the element that is stored to. -/
def pointedElements (base : InstId) (index : Int32) : Func := .made [.ptr, .i1] [
  .block, .block, .block,
  .switch ⟨0⟩, .elementPtr (.arg 0) [.lit (.i32 0)], .load .ptr (.inst ⟨0⟩),
  .elementPtr (.inst ⟨1⟩) [.lit (.i32 0)], .load .i32 (.inst ⟨2⟩), .load .ptr (.inst ⟨0⟩),
  .elementPtr (.inst base) [.lit (.i32 0)], .elementPtr (.inst base) [.lit (.i32 index)],
  .branch (.arg 1) ⟨2⟩ ⟨1⟩,
  .switch ⟨2⟩, .store (.lit (.i32 5)) (.inst ⟨6⟩), .jump ⟨1⟩,
  .switch ⟨1⟩, .load .i32 (.inst ⟨5⟩), .ret (some (.inst ⟨10⟩))]

/-- Both loads of the element go by the first load of the pointer, and the store is to another
element. The second load of the element is deleted, and rightly so. -/
theorem run_reuses_unstored_pointedElements :
    ∃ a p, Analysis.ofFunc (pointedElements ⟨1⟩ 1) = .ok a ∧
      run a (pointedElements ⟨1⟩ 1) = .ok p ∧ p.reuses = [(⟨4⟩, ⟨1⟩), (⟨10⟩, ⟨3⟩)] ∧
      ¬(pointedElements ⟨1⟩ 1).StoredBetween ⟨3⟩ ⟨10⟩ ((pointedElements ⟨1⟩ 1).operandsOf ⟨5⟩) := by
  obtain ⟨a, ha, h⟩ := exists_ok_of_any (x := Analysis.ofFunc (pointedElements ⟨1⟩ 1))
    (q := fun a => (run a (pointedElements ⟨1⟩ 1)).toOption.any fun p : Progress =>
      p.reuses = [(⟨4⟩, ⟨1⟩), (⟨10⟩, ⟨3⟩)]) (by decide +kernel)
  obtain ⟨q, hq, hreuses⟩ := exists_ok_of_any h
  have hreuses := of_decide_eq_true hreuses
  have hbuilt : (pointedElements ⟨1⟩ 1).Built := built_made _ _
  obtain ⟨p, hp, hunstored⟩ := run_reuses_unstored hbuilt (by decide +kernel)
    (by decide +kernel) (by decide +kernel) ha
  obtain rfl := Except.ok.inj (hq.symm.trans hp)
  have hload : (pointedElements ⟨1⟩ 1).LoadsFrom ⟨10⟩ ⟨5⟩ :=
    ⟨by decide +kernel, by decide +kernel, by decide +kernel⟩
  refine ⟨a, q, ha, hq, hreuses, (hunstored (by simp [hreuses]) hload).2 ?_⟩
  have hreads : (pointedElements ⟨1⟩ 1).reads ⟨5⟩ = [⟨1⟩] := by decide +kernel
  simp [hreads, hreuses]

/-- The second load of the element and the store go by the second load of the pointer. That load is
deleted first, so the second load of the element looks like the first, and it is deleted although
one arm stores to the very element. -/
theorem pointedElements_reused_across_store :
    (pointedElements ⟨4⟩ 0).Built ∧ (pointedElements ⟨4⟩ 0).isDeclaration = false ∧
      (pointedElements ⟨4⟩ 0).check = .ok () ∧ (pointedElements ⟨4⟩ 0).LaidOut ∧
      ∃ a p, Analysis.ofFunc (pointedElements ⟨4⟩ 0) = .ok a ∧
        run a (pointedElements ⟨4⟩ 0) = .ok p ∧ (⟨10⟩, ⟨3⟩) ∈ p.reuses ∧
        (pointedElements ⟨4⟩ 0).LoadsFrom ⟨10⟩ ⟨5⟩ ∧
        (pointedElements ⟨4⟩ 0).StoredBetween ⟨3⟩ ⟨10⟩
          ((pointedElements ⟨4⟩ 0).operandsOf ⟨5⟩) := by
  obtain ⟨a, ha, h⟩ := exists_ok_of_any (x := Analysis.ofFunc (pointedElements ⟨4⟩ 0))
    (q := fun a => (run a (pointedElements ⟨4⟩ 0)).toOption.any fun p : Progress =>
      (⟨10⟩, ⟨3⟩) ∈ p.reuses) (by decide +kernel)
  obtain ⟨p, hp, hreuses⟩ := exists_ok_of_any h
  refine ⟨built_made _ _, by decide +kernel, by decide +kernel, by decide +kernel, a, p, ha, hp,
    of_decide_eq_true hreuses, ⟨by decide +kernel, by decide +kernel, by decide +kernel⟩, ?_⟩
  have harm : (pointedElements ⟨4⟩ 0).Edge ⟨0⟩ ⟨2⟩ :=
    ⟨[⟨2⟩, ⟨1⟩], by decide +kernel, by simp⟩
  have hjoin : (pointedElements ⟨4⟩ 0).Edge ⟨2⟩ ⟨1⟩ := ⟨[⟨1⟩], by decide +kernel, by simp⟩
  refine ⟨⟨0⟩, ⟨1⟩, [⟨0⟩, ⟨2⟩, ⟨1⟩], [⟨0⟩, ⟨1⟩, ⟨2⟩], [⟨4⟩, ⟨5⟩, ⟨6⟩, ⟨7⟩, ⟨8⟩, ⟨9⟩], [⟨11⟩],
    .step (.step .start harm) hjoin, by decide +kernel, by decide, ⟨8⟩, by decide, ?_⟩
  exact ⟨by decide +kernel, ⟨6⟩, by decide +kernel, by decide +kernel, by decide +kernel⟩

end Loads

end SsaOpt
