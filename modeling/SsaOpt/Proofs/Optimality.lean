import SsaOpt.Proofs.Loops
import SsaOpt.Proofs.Rest

/-! Where hoisting comes to rest it is locally optimal: among all blocks in which the instruction
could stand as the function is, its own has the least loop depth, and is the lowest one with it. The
loop depth counts loops, so this can be said in terms of paths alone. -/

namespace SsaOpt.Motion

open Func

variable {f : Func} {a : Analysis} {rank : BlockId → Nat} {x : InstId} {b c : BlockId}
  {st : Setting}

/-- All operands of `x` are defined above the block, and all uses of `x` are below it. -/
structure Fits (f : Func) (x : InstId) (c : BlockId) : Prop where
  defs : ∀ {d home}, d ∈ f.reads x → d ∈ f.listOf home → f.Dom home c
  uses : ∀ {i home}, x ∈ f.reads i → i ∈ f.listOf home → f.Dom c home

/-- Where all readers are in reachable blocks, their blocks are found. -/
theorem exists_useBlocks (hf : f.Consistent) (hd : a.Describes f rank) (hloose : Loose f x)
    (hreach : ∀ i, x ∈ f.reads i → ∃ home, i ∈ f.listOf home ∧ f.Reached home) :
    ∃ blocks, reachableSites a.dom (f.useBlock x) (f.usesOf x) = .ok (some blocks) ∧
      ((∃ i, x ∈ f.reads i) → blocks ≠ []) ∧ ∀ c ∈ blocks, ∃ i, x ∈ f.reads i ∧ i ∈ f.listOf c := by
  have hread : ∀ u ∈ f.usesOf x, x ∈ f.reads u.user := fun u hu =>
    mem_reads_iff.mpr ⟨u.index, (hf.mem_uses x u).mp hu⟩
  have : Nonempty BlockId := ⟨.entry⟩
  choose! home hhome using hreach
  refine ⟨(f.usesOf x).map fun u => home u.user, ?_, fun huse => ?_, fun c hc => ?_⟩
  · refine reachableSites_map hd fun u hu => ?_
    obtain ⟨hmem, hr⟩ := hhome u.user (hread u hu)
    exact ⟨useBlock_of_mem hf hmem (hloose.not_phi (hread u hu)), hr⟩
  · obtain ⟨i, hi⟩ := huse
    obtain ⟨k, hk⟩ := mem_reads_iff.mp hi
    exact List.ne_nil_of_mem (List.mem_map_of_mem ((hf.mem_uses x _).mpr hk))
  · obtain ⟨u, hu, rfl⟩ := List.mem_map.mp hc
    exact ⟨u.user, hread u hu, (hhome u.user (hread u hu)).1⟩

/-- An instruction that rests under hoisting stands in the best of all blocks that fit. -/
theorem Resting.optimal (hhoist : st.policy = .hoist) (hf : f.Housed)
    (hd : st.analysis.Describes f rank) (hb : f.Reached b) (hx : x ∈ f.listOf b)
    (hloose : Loose f x) (hrest : Resting st f x) (hharmless : Harmless f x)
    (huse : ∃ i, x ∈ f.reads i)
    (hreach : ∀ i, x ∈ f.reads i → ∃ home, i ∈ f.listOf home ∧ f.Reached home)
    (hfits : Fits f x c) : st.depth b ≤ st.depth c ∧ (st.depth c = st.depth b → f.Dom c b) := by
  obtain ⟨blocks, huses, hne, hblocks⟩ := exists_useBlocks hf.consistent hd hloose hreach
  obtain ⟨e, he, heq⟩ := decision_of_reached hf hd hb hx hloose st.depth st.policy
  -- the decision chooses the block that the instruction is in
  obtain ⟨d, hdec, hstays⟩ := hrest
  unfold Setting.decision at hdec
  rw [heq] at hdec
  obtain ⟨uses, huses', hdec⟩ := bind_eq_ok_iff.mp hdec
  obtain rfl := Except.ok.inj (huses.symm.trans huses')
  obtain ⟨best, hbest, hdec⟩ := bind_eq_ok_iff.mp hdec
  obtain rfl : best = b := hstays _ (pure_eq_ok_iff.mp hdec).symm
  have hbest := lift_eq_ok_iff.mp hbest
  rw [hhoist] at hbest
  -- so do all that fit lie between its bounds
  have hdom : ∀ c' ∈ blocks, f.Dom c c' := fun c' hc' => by
    obtain ⟨i, hread, hi⟩ := hblocks c' hc'
    exact hfits.uses hread hi
  have hreached : ∀ c' ∈ blocks, f.Reached c' := fun c' hc' => (hdom c' hc').1
  obtain ⟨first, rest, rfl⟩ := List.exists_cons_of_ne_nil (hne huse)
  obtain ⟨hfirst, hothers⟩ := List.forall_mem_cons.mp hreached
  obtain ⟨hlatest, hmeet⟩ := reached_foldl_meet hd hfirst hothers
  obtain ⟨trap, htrap, -, hleast⟩ := bestBlock_hoist_spec hd hlatest hbest
  obtain ⟨z, hz⟩ := hf.consistent.exists_inst hx
  obtain rfl := Except.ok.inj ((hharmless.mayTrap hz).symm.trans htrap)
  refine hleast c ?_ ((hmeet c).mpr (List.forall_mem_cons.mp hdom))
  exact he.least (hdom first List.mem_cons_self).reaches_left hfits.defs

/-- Whatever is not pinned rests where the function does. -/
theorem Still.resting (h : Still st f) (hf : f.Consistent) (hx : x ∈ f.listOf b)
    (hfloats : (f.op? x).any floats) (hpin : ¬f.Pinned x) : Resting st f x ∧ Loose f x := by
  obtain ⟨is, his, hrest⟩ := h
  have hmem := (schedule_spec hf his).mem_iff.mpr ⟨⟨mem_placed_iff.mpr ⟨b, hx⟩, hfloats⟩, hpin⟩
  exact ⟨hrest x hmem, (loose_of_schedule hf his hmem).2⟩

/-- **At rest, hoisting is locally optimal.** Take a function that was accepted, and on which a
hoisting sweep counts no change. Take a floating instruction in a reachable block that is not
pinned, that has readers, all of them in reachable blocks, and that is no division or remainder,
except by an integer other than zero. Any block in which it could stand, below all its operands and
above all its uses on every path, has a loop depth no less than its own; and if it has the same loop
depth, it dominates the block of the instruction. -/
theorem hoisted_to_least_depth {f : Func} (hbuilt : f.Built) (hdecl : f.isDeclaration = false)
    (hcheck : f.check = .ok ()) {a : Analysis} (ha : Analysis.ofFunc f = .ok a) {q : Progress}
    (hsweep : sweep ⟨a, loopDepths a, .hoist⟩ { func := f } = .ok (q, none))
    (hnone : q.changes = 0) {is order : List InstId} (his : floating f = .ok is)
    (horder : consumersFirst f is = .ok order) {x : InstId} {b : BlockId} (hx : x ∈ f.listOf b)
    (hb : f.Reached b) (hfloats : (f.op? x).any floats) (hpin : x ∉ pinned f order)
    (huse : ∃ i, x ∈ f.reads i)
    (hreach : ∀ i, x ∈ f.reads i → ∃ home, i ∈ f.listOf home ∧ f.Reached home)
    (hharmless : Harmless f x) {c : BlockId} (hfits : Fits f x c) :
    (loopDepths a).getD b.index 0 ≤ (loopDepths a).getD c.index 0 ∧
      ((loopDepths a).getD c.index 0 = (loopDepths a).getD b.index 0 → f.Dom c b) := by
  have h₀ : 0 < f.numBlocks := Nat.zero_lt_of_lt (lt_numBlocks_of_mem hx)
  obtain ⟨rank, hd⟩ := Analysis.describes ha h₀
  have hf := (hbuilt.consistent.valid hdecl h₀ hcheck).housed
  obtain ⟨-, hstill⟩ := still_of_sweep hsweep hnone
  rw [floating_eq hf.consistent] at his
  obtain rfl := Except.ok.inj his
  have hpinned : ¬f.Pinned x := by
    intro hpinned
    refine hpin ((mem_pinned_iff hf.consistent ?_).mpr ⟨⟨mem_placed_iff.mpr ⟨b, hx⟩, hfloats⟩,
      hpinned⟩)
    exact ordered_of_consumersFirst hf.consistent horder
  obtain ⟨hrest, hloose⟩ := hstill.resting hf.consistent hx hfloats hpinned
  exact hrest.optimal rfl hf hd hb hx hloose hharmless huse hreach hfits

/-- A quotient that is needed in a loop, and stands in the block before it. -/
def outerQuotient : Func := .made [.i32, .i1] [
  .block, .block, .block, .block,
  .switch ⟨0⟩, .jump ⟨1⟩,
  .switch ⟨1⟩, .binary .sdiv .i32 (.arg 0) (.lit (.i32 3)), .jump ⟨2⟩,
  .switch ⟨2⟩, .store (.inst ⟨1⟩) (.global 0), .branch (.arg 1) ⟨2⟩ ⟨3⟩,
  .switch ⟨3⟩, .ret none]

/-- The quotient could also stand in the entry, which is no deeper but higher. -/
theorem hoisted_to_least_depth_outerQuotient : ∃ a q,
    Analysis.ofFunc outerQuotient = .ok a ∧
    sweep ⟨a, loopDepths a, .hoist⟩ { func := outerQuotient } = .ok (q, none) ∧ q.changes = 0 ∧
    Fits outerQuotient ⟨1⟩ ⟨0⟩ ∧
    (loopDepths a).getD 1 0 ≤ (loopDepths a).getD 0 0 ∧
    ((loopDepths a).getD 0 0 = (loopDepths a).getD 1 0 → outerQuotient.Dom ⟨0⟩ ⟨1⟩) := by
  obtain ⟨a, ha, h⟩ := exists_ok_of_any (x := Analysis.ofFunc outerQuotient)
    (q := fun a => a.dom.reachable ⟨1⟩ && a.dom.reachable ⟨2⟩ &&
      (sweep ⟨a, loopDepths a, .hoist⟩ { func := outerQuotient }).toOption.any
        fun r : Progress × Option Rejection => r.2 = none && r.1.changes = 0) (by decide +kernel)
  simp only [Bool.and_eq_true] at h
  obtain ⟨⟨hb, hc⟩, h⟩ := h
  obtain ⟨⟨q, r⟩, hq, h⟩ := exists_ok_of_any h
  simp only [Bool.and_eq_true, decide_eq_true_eq] at h
  obtain ⟨rfl, hnone⟩ := h
  obtain ⟨rank, hd⟩ := Analysis.describes ha (by decide +kernel)
  have hb : outerQuotient.Reached ⟨1⟩ := hd.reachable_iff.mp hb
  have hc : outerQuotient.Reached ⟨2⟩ := hd.reachable_iff.mp hc
  have hcon : outerQuotient.Consistent := (built_made _ _).consistent
  have hstore : ⟨3⟩ ∈ outerQuotient.listOf ⟨2⟩ := by decide +kernel
  -- the store is the one reader
  have hreader : ∀ {i}, ⟨1⟩ ∈ outerQuotient.reads i → i = ⟨3⟩ := by
    intro i hread
    obtain ⟨k, hk⟩ := mem_reads_iff.mp hread
    have huses : outerQuotient.usesOf ⟨1⟩ = [⟨⟨3⟩, 0⟩] := by decide +kernel
    have hmem := (hcon.mem_uses ⟨1⟩ ⟨i, k⟩).mpr hk
    rw [huses, List.mem_singleton] at hmem
    exact congrArg Use.user hmem
  have hfits : Fits outerQuotient ⟨1⟩ ⟨0⟩ := by
    constructor
    · intro d home hread
      have hnil : outerQuotient.reads ⟨1⟩ = [] := by decide +kernel
      rw [hnil] at hread
      cases hread
    · intro i home hread hi
      obtain rfl := hreader hread
      obtain rfl := hcon.home_unique hstore hi
      exact .root_dominates hc
  have hharmless : Harmless outerQuotient ⟨1⟩ := fun op _ _ =>
    ⟨.i32 3, 3, by decide +kernel, rfl, by decide⟩
  refine ⟨a, q, ha, hq, hnone, hfits, hoisted_to_least_depth (built_made _ _) (by decide +kernel)
    (by decide +kernel) ha hq hnone (by decide +kernel : floating outerQuotient = .ok [⟨1⟩])
    (by decide +kernel : consumersFirst outerQuotient [⟨1⟩] = .ok [⟨1⟩]) (by decide +kernel) hb
    (by decide +kernel) (by decide +kernel) ⟨⟨3⟩, by decide +kernel⟩ (fun i hread => ?_) hharmless
    hfits⟩
  rw [hreader hread]
  exact ⟨⟨2⟩, hstore, hc⟩

/-- **At rest, hoisted instructions are in as few loops as can be.** Take a function that was
accepted, and on which a hoisting sweep counts no change. Take a floating instruction in a reachable
block, such that no chain of floating readers leads from it to one that reads a phi or is read by
one. Let it have readers, all of them in reachable blocks, and let it be no division or remainder,
except by an integer other than zero. Then no block in which it could stand, below all its operands
and above all its uses on every path, is in fewer loops than its own; and if it is in as many, it
dominates the block of the instruction. -/
theorem hoisted_out_of_loops {f : Func} (hbuilt : f.Built) (hdecl : f.isDeclaration = false)
    (hcheck : f.check = .ok ()) {a : Analysis} (ha : Analysis.ofFunc f = .ok a) {q : Progress}
    (hsweep : sweep ⟨a, loopDepths a, .hoist⟩ { func := f } = .ok (q, none))
    (hnone : q.changes = 0) {x : InstId} {b : BlockId} (hx : x ∈ f.listOf b) (hb : f.Reached b)
    (hfloats : (f.op? x).any floats)
    (hchains : ∀ {y}, Relation.ReflTransGen f.Feeds x y →
      (∀ d ∈ f.reads y, ¬f.isPhi d) ∧ ∀ i, y ∈ f.reads i → ¬f.isPhi i)
    (huse : ∃ i, x ∈ f.reads i)
    (hreach : ∀ i, x ∈ f.reads i → ∃ home, i ∈ f.listOf home ∧ f.Reached home)
    (hharmless : Harmless f x) {c : BlockId} (hfits : Fits f x c) :
    {h | f.InLoop h b}.encard ≤ {h | f.InLoop h c}.encard ∧
      ({h | f.InLoop h c}.encard = {h | f.InLoop h b}.encard → f.Dom c b) := by
  have h₀ : 0 < f.numBlocks := Nat.zero_lt_of_lt (lt_numBlocks_of_mem hx)
  obtain ⟨rank, hd⟩ := Analysis.describes ha h₀
  have hf := (hbuilt.consistent.valid hdecl h₀ hcheck).housed
  obtain ⟨-, hstill⟩ := still_of_sweep hsweep hnone
  obtain ⟨hrest, hloose⟩ :=
    hstill.resting hf.consistent hx hfloats (not_pinned_of_chains hf.consistent hchains)
  have hc : f.Reached c := by
    obtain ⟨i, hread⟩ := huse
    obtain ⟨home, hi, -⟩ := hreach i hread
    exact (hfits.uses hread hi).reaches_left
  have hdepth : ∀ {d}, f.Reached d → {h | f.InLoop h d}.encard = (loopDepths a).getD d.index 0 :=
    fun hr => NaturalLoop.encard_inLoop_eq_depth hd (BlockId.mem_upTo.mpr (hf.lt_numBlocks hr))
  rw [hdepth hb, hdepth hc, Nat.cast_le, Nat.cast_inj]
  exact hrest.optimal rfl hf hd hb hx hloose hharmless huse hreach hfits

end SsaOpt.Motion
