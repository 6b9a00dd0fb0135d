import SsaOpt.Proofs.Descent

/-! Which instructions code motion may move, and where to. What is pinned stays where it is, through
any number of sweeps, and so does the order of all that was not moved. A division leaves the blocks
that its own dominates only if it divides by a known integer other than zero. -/

namespace SsaOpt.Motion

open Func Relation

variable {f g : Func} {a : Analysis} {rank : BlockId → Nat} {x i : InstId} {st : Setting}
  {p q : Progress} {ms : List Move} {m : Move} {b c : BlockId}

/-! ## What every move keeps to -/

/-- The instruction stays below the block that it was in, or does not trap. -/
def Sheltered (f : Func) (m : Move) : Prop := f.Dom m.source m.dest ∨ Harmless f m.inst

/-- The instruction takes no part in the moves. -/
def untouched (ms : List Move) (i : InstId) : Bool := ms.all fun m => m.inst ≠ i

theorem untouched_concat (ms : List Move) (m : Move) (i : InstId) :
    untouched (ms ++ [m]) i = (untouched ms i && decide (i ≠ m.inst)) := by
  simp [untouched, eq_comm]

/-- The moves reported are those made, each of them forward, of an instruction that is not pinned,
and sheltered; all other instructions are in their places. -/
structure Supervised (st : Setting) (f : Func) (p : Progress) : Prop extends Traced st f p where
  unpinned : ∀ m ∈ p.moves, ¬f.Pinned m.inst
  sheltered : ∀ m ∈ p.moves, Sheltered f m
  order : ∀ b, (p.func.listOf b).filter (untouched p.moves) =
    (f.listOf b).filter (untouched p.moves)

theorem Rehomed.harmless_iff (h : Rehomed f g) : Harmless g x ↔ Harmless f x := by
  unfold Harmless slot
  rw [h.op, h.operands]

theorem Supervised.start (hf : f.Housed) : Supervised st f { func := f } :=
  ⟨⟨.refl hf, .start, rfl, by simp [Progress.moves]⟩, by simp [Progress.moves],
    by simp [Progress.moves], fun _ => rfl⟩

theorem Supervised.carryOut {d : Decision} (hd : st.analysis.Describes f rank) (hx : Loose f x)
    (hfree : ¬f.Pinned x) (hp : Supervised st f p) (hdec : st.decision p.func x = .ok d)
    (h : carryOut p x d = .ok q) : Supervised st f q := by
  have htraced := hp.toTraced.carryOut hd hx hdec h
  rcases carryOut_cases h with ⟨-, hfunc, -, hmoves⟩ | ⟨s, rfl, -, hg, -, hmoves⟩
  · exact ⟨htraced, hmoves ▸ hp.unpinned, hmoves ▸ hp.sheltered, hmoves ▸ hfunc ▸ hp.order⟩
  · have hre := hp.rehomed
    have hx' := hre.loose_iff.mpr hx
    obtain ⟨front, t, back, hrel, -⟩ := relocate_spec hre.housed hx'.not_ends_self hg
    have hshelter : Sheltered f ⟨x, s.current, s.chosen⟩ := by
      obtain ⟨-, -, hdom | htrap⟩ :=
        (decision_spec hdec).dest_spec hre.housed (hre.describes hd) fun i => hx'.not_phi
      · exact .inl (hre.dom_eq ▸ hdom)
      · exact .inr (hre.harmless_iff.mp (harmless_of_mayTrap htrap))
    refine ⟨htraced, ?_, ?_, fun b => ?_⟩
    · rw [hmoves]
      exact List.forall_mem_append.mpr ⟨hp.unpinned, List.forall_mem_singleton.mpr hfree⟩
    · rw [hmoves]
      exact List.forall_mem_append.mpr ⟨hp.sheltered, List.forall_mem_singleton.mpr hshelter⟩
    · -- the two filters commute: the one by `x` is kept by the move, the other by the moves before
      simp only [hmoves, funext (untouched_concat _ _), ← List.filter_filter]
      rw [hrel.filter_lists, List.filter_filter, List.filter_filter]
      simp only [Bool.and_comm (untouched _ _), ← List.filter_filter, hp.order b]

theorem Supervised.sweep {r : Option Rejection} (hf : f.Consistent)
    (hd : st.analysis.Describes f rank) (hp : Supervised st f p) (h : sweep st p = .ok (q, r)) :
    Supervised st f q := by
  rw [sweep_eq] at h
  obtain ⟨is, his, h⟩ := bind_eq_ok_iff.mp h
  have hcon := hp.rehomed.housed.consistent
  refine placeAll_keeps (P := Supervised st f) (fun x hx hp' hdec hq => ?_) hp h
  have hloose := hp.rehomed.loose_iff.mp (loose_of_schedule hcon his hx).2
  have hfree := ((schedule_spec hcon his).mem_iff.mp hx).2
  rw [hp.rehomed.pinned_iff hf] at hfree
  exact hp'.carryOut hd hloose hfree hdec hq

theorem run_supervised {settings : Settings} {r : Option Rejection} (hf : f.Housed)
    (hd : a.Describes f rank) (h : run a settings f = .ok (p, r)) :
    Supervised ⟨a, loopDepths a, settings.placement⟩ f p := by
  obtain ⟨n, hn⟩ := exists_run_eq a settings f
  rw [hn] at h
  refine sweeps_keeps (fun {p} hp => ?_) (fun hp hq => hp.sweep hf.consistent hd hq) (n + 1)
    (.start hf) h
  have hmoves : (p.note (.sweepLimit p.func.name (n + 1))).moves = p.moves := by
    simp [Progress.moves_note, Remark.move?]
  exact ⟨⟨hp.rehomed, hmoves ▸ hp.leads, hmoves ▸ hp.count, hmoves ▸ hp.forward⟩,
    hmoves ▸ hp.unpinned, hmoves ▸ hp.sheltered, hmoves ▸ hp.order⟩

/-! ## What is pinned stays -/

theorem Supervised.home_eq (h : Supervised st f p) (hx : f.Pinned x) :
    p.func.homeOf x = f.homeOf x :=
  h.leads.home_eq fun m hm hinst => h.unpinned m hm (hinst ▸ hx)

/-- An instruction that was moved is not in the block it started in. -/
theorem Supervised.untouched_iff (h : Supervised st f p) (hd : st.analysis.Describes f rank)
    (hi : i ∈ p.func.placed) : untouched p.moves i ↔ p.func.homeOf i = f.homeOf i := by
  unfold untouched
  simp only [List.all_eq_true, decide_eq_true_eq]
  refine ⟨h.leads.home_eq, fun hhome m hm hinst => ?_⟩
  obtain ⟨b, hb⟩ := mem_placed_iff.mp hi
  have hb := (h.rehomed.housed.consistent.mem_list b i).mp hb
  subst hinst
  have hlt := h.leads.lt (fun m hm => (h.forward m hm).weight_lt hd) hm (hhome ▸ hb) hb
  exact Nat.lt_irrefl _ hlt

theorem Supervised.filter_home_eq (h : Supervised st f p) (hd : st.analysis.Describes f rank)
    (b : BlockId) : (p.func.listOf b).filter (fun i => p.func.homeOf i = f.homeOf i) =
      (f.listOf b).filter fun i => p.func.homeOf i = f.homeOf i := by
  have huntouched : ∀ i ∈ p.func.placed,
      decide (p.func.homeOf i = f.homeOf i) = untouched p.moves i := by
    intro i hi
    rw [Bool.eq_iff_iff, decide_eq_true_eq, h.untouched_iff hd hi]
  rw [List.filter_congr fun i hi => huntouched i (mem_placed_iff.mpr ⟨b, hi⟩), h.order b]
  refine (List.filter_congr fun i hi => huntouched i ?_).symm
  exact h.rehomed.placed.mpr (mem_placed_iff.mpr ⟨b, hi⟩)

theorem exists_pinned (hf : f.Consistent) (hacyclic : f.Acyclic) :
    ∃ is order, floating f = .ok is ∧ consumersFirst f is = .ok order ∧
      ∀ x, x ∈ pinned f order ↔ f.Floating x ∧ f.Pinned x := by
  obtain ⟨order, horder⟩ :=
    (consumersFirst_spec (hf.placed_nodup.filter _) mem_floating).1 hacyclic
  exact ⟨_, order, floating_eq hf, horder, fun x =>
    mem_pinned_iff hf (ordered_of_consumersFirst hf horder)⟩

/-- **Pins are exact and permanent.** Take a function that was accepted and in which no floating
instructions read each other in a circle. One pass over the floating instructions, consumers first,
pins exactly those from which a chain of floating readers leads to an instruction that reads a phi
or is read by one. However code motion is set, and however many sweeps it makes, none of these
instructions leaves its block, the instructions that are in their old blocks are there in their old
order, and the pins of the new function are those of the old one. -/
theorem pins_exact_and_permanent {f : Func} (hbuilt : f.Built) (hdecl : f.isDeclaration = false)
    (hcheck : f.check = .ok ()) (hacyclic : f.Acyclic) :
    ∃ a is order, Analysis.ofFunc f = .ok a ∧ floating f = .ok is ∧
      consumersFirst f is = .ok order ∧
      (∀ x, x ∈ pinned f order ↔ f.Floating x ∧ ∃ y, ReflTransGen f.Feeds x y ∧
        ((∃ d ∈ f.reads y, f.isPhi d) ∨ ∃ i, y ∈ f.reads i ∧ f.isPhi i)) ∧
      ∀ {settings p r}, run a settings f = .ok (p, r) →
        (∀ x ∈ pinned f order, p.func.homeOf x = f.homeOf x) ∧
        (∀ b, (p.func.listOf b).filter (fun i => p.func.homeOf i = f.homeOf i) =
          (f.listOf b).filter fun i => p.func.homeOf i = f.homeOf i) ∧
        ∃ is' order', floating p.func = .ok is' ∧ consumersFirst p.func is' = .ok order' ∧
          ∀ x, x ∈ pinned p.func order' ↔ x ∈ pinned f order := by
  have hcon := hbuilt.consistent
  obtain ⟨a, ha⟩ := Analysis.exists_ofFunc (targetsExist_of_check hdecl hcheck)
  obtain ⟨is, order, his, horder, hpins⟩ := exists_pinned hcon hacyclic
  refine ⟨a, is, order, ha, his, horder, fun x => ?_, fun {settings p r} hrun => ?_⟩
  · rw [hpins, pinned_iff_chain hcon]
  · by_cases h₀ : 0 < f.numBlocks
    · obtain ⟨rank, hd⟩ := Analysis.describes ha h₀
      have hsup := run_supervised (hcon.valid hdecl h₀ hcheck).housed hd hrun
      have hre := hsup.rehomed
      obtain ⟨is', order', his', horder', hpins'⟩ :=
        exists_pinned hre.housed.consistent (hre.acyclic_iff.mpr hacyclic)
      refine ⟨fun x hx => hsup.home_eq ((hpins x).mp hx).2, hsup.filter_home_eq hd, is', order',
        his', horder', fun x => ?_⟩
      rw [hpins, hpins', hre.floating_iff, hre.pinned_iff hcon]
    · rw [run_of_placed_nil (placed_eq_nil h₀) hrun]
      exact ⟨fun _ _ => rfl, fun _ => rfl, is, order, his, horder, fun _ => .rfl⟩

/-- A sum that is carried round a loop, the product that it adds, and a difference that is the same
in every round. -/
def carriedProduct : Func := .made [.i32, .i1] [
  .block, .block, .block, .block,
  .switch ⟨0⟩, .jump ⟨1⟩,
  .switch ⟨1⟩, .phi .i32, .branch (.arg 1) ⟨2⟩ ⟨3⟩,
  .switch ⟨2⟩, .binary .mul .i32 (.arg 0) (.arg 0), .binary .sub .i32 (.arg 0) (.lit (.i32 1)),
  .store (.inst ⟨4⟩) (.global 0), .binary .add .i32 (.inst ⟨3⟩) (.lit (.i32 1)), .jump ⟨1⟩,
  .switch ⟨3⟩, .ret (some (.inst ⟨1⟩)),
  .incoming ⟨1⟩ (.lit (.i32 0)) ⟨0⟩, .incoming ⟨1⟩ (.inst ⟨6⟩) ⟨2⟩]

/-- The difference leaves the loop. The product could too, but is pinned by the sum. -/
theorem pins_exact_and_permanent_carriedProduct : ∃ a p r is order,
    Analysis.ofFunc carriedProduct = .ok a ∧ run a {} carriedProduct = .ok (p, r) ∧
    p.moves = [⟨⟨4⟩, ⟨2⟩, ⟨0⟩⟩] ∧ floating carriedProduct = .ok is ∧
    consumersFirst carriedProduct is = .ok order ∧ pinned carriedProduct order = [⟨3⟩, ⟨6⟩] ∧
    (∀ x ∈ pinned carriedProduct order, p.func.homeOf x = carriedProduct.homeOf x) ∧
    ∀ b, (p.func.listOf b).filter (fun i => p.func.homeOf i = carriedProduct.homeOf i) =
      (carriedProduct.listOf b).filter fun i => p.func.homeOf i = carriedProduct.homeOf i := by
  obtain ⟨a, ha, h⟩ := exists_ok_of_any (x := Analysis.ofFunc carriedProduct)
    (q := fun a => (run a {} carriedProduct).toOption.any fun r : Progress × Option Rejection =>
      r.1.moves = [⟨⟨4⟩, ⟨2⟩, ⟨0⟩⟩]) (by decide)
  obtain ⟨⟨p, r⟩, hrun, hmoves⟩ := exists_ok_of_any h
  obtain ⟨a', is, order, ha', his, horder, -, hrest⟩ := pins_exact_and_permanent
    (f := carriedProduct) (built_made _ _) (by decide) (by decide)
    (acyclic_of_lt (by decide))
  obtain rfl := Except.ok.inj (ha.symm.trans ha')
  obtain ⟨hhomes, hlists, -⟩ := hrest hrun
  have hpins : (consumersFirst carriedProduct [⟨3⟩, ⟨4⟩, ⟨6⟩]).toOption.any fun order =>
      pinned carriedProduct order = [⟨3⟩, ⟨6⟩] := by decide
  obtain rfl := Except.ok.inj
    (his.symm.trans (by decide : floating carriedProduct = .ok [⟨3⟩, ⟨4⟩, ⟨6⟩]))
  rw [horder] at hpins
  exact ⟨a, p, r, _, order, ha, hrun, of_decide_eq_true hmoves, his, horder,
    of_decide_eq_true hpins, hhomes, hlists⟩

/-! ## Divisions -/

/-- **Code motion speculates no division by zero.** Take a function that was accepted, and let code
motion leave a division or remainder in a block that the one it started in does not dominate. Then
the divisor is an integer literal other than zero. So under any reading of the opcodes in which
exactly division by zero traps, the instruction gives a value whatever its dividend is. -/
theorem run_speculates_known_divisors {f : Func} (hbuilt : f.Built)
    (hdecl : f.isDeclaration = false) (hcheck : f.check = .ok ()) {a : Analysis}
    (ha : Analysis.ofFunc f = .ok a) {settings : Settings} {p : Progress} {r : Option Rejection}
    (hrun : run a settings f = .ok (p, r)) {x : InstId} {op : BinaryOp} {b c : BlockId}
    (hop : p.func.op? x = some (.binary op)) (hdiv : op ∈ [.sdiv, .udiv, .srem, .urem])
    (hb : x ∈ f.listOf b) (hc : x ∈ p.func.listOf c) (hne : b ≠ c) (hdom : ¬f.Dom b c) :
    (∃ l n, p.func.slot ⟨x, 1⟩ = some (.lit l) ∧ l.toInt? = some n ∧ n ≠ 0) ∧
      ∀ {I : Interpretation} {isZero : I.Value → Prop}, I.TrapsOnZero isZero →
        ∀ args regs {z : Instruction}, p.func.bare? x = some z →
          ∃ v, I.compute z.op z.ty (I.inputs args regs z) = some v := by
  have h₀ : 0 < f.numBlocks := Nat.zero_lt_of_lt (lt_numBlocks_of_mem hb)
  obtain ⟨rank, hd⟩ := Analysis.describes ha h₀
  have hsup := run_supervised (hbuilt.consistent.valid hdecl h₀ hcheck).housed hd hrun
  have hharmless : Harmless p.func x := by
    rw [hsup.rehomed.harmless_iff]
    -- if it could trap, each of its moves would have gone down the dominator tree
    by_contra htrap
    have hstep : ∀ m ∈ p.moves, m.inst = x → m.source = m.dest ∨ f.Dom m.source m.dest := by
      intro m hm hinst
      exact .inr ((hsup.sheltered m hm).resolve_right (hinst ▸ htrap))
    have hbelow := hsup.leads.related (R := fun b c => b = c ∨ f.Dom b c) (fun _ => .inl rfl)
      ?_ hstep ((hbuilt.consistent.mem_list b x).mp hb)
      ((hsup.rehomed.housed.consistent.mem_list c x).mp hc)
    · exact hbelow.elim hne hdom
    · intro b c d hbc hcd
      rcases hbc with rfl | hbc
      · exact hcd
      · rcases hcd with rfl | hcd
        · exact .inr hbc
        · exact .inr (hbc.trans hcd)
  refine ⟨hharmless op hop ?_, fun hI args regs z hz => hharmless.calm hI hz ?_ regs⟩
  · simp only [List.mem_cons, List.not_mem_nil, or_false] at hdiv
    rcases hdiv with rfl | rfl | rfl | rfl <;> rfl
  · rw [op?, hz] at hop
    rw [Option.some.inj hop]
    rfl

/-- A quotient that is computed in a loop, which may be left before. -/
def dividingLoop (l : Literal) : Func := .made [.i32, .i1] [
  .block, .block, .block, .block,
  .switch ⟨0⟩, .jump ⟨1⟩,
  .switch ⟨1⟩, .branch (.arg 1) ⟨2⟩ ⟨3⟩,
  .switch ⟨2⟩, .binary .sdiv .i32 (.arg 0) (.lit l), .store (.inst ⟨2⟩) (.global 0), .jump ⟨1⟩,
  .switch ⟨3⟩, .ret none]

/-- Two and minus one are both taken for divisors that do not trap. -/
theorem exists_run_dividingLoop {l : Literal} (hl : l ∈ [.i32 2, .i32 (-1)]) :
    (dividingLoop l).isDeclaration = false ∧ (dividingLoop l).check = .ok () ∧
      ⟨2⟩ ∈ (dividingLoop l).listOf ⟨2⟩ ∧
      ∃ a p r, Analysis.ofFunc (dividingLoop l) = .ok a ∧ run a {} (dividingLoop l) = .ok (p, r) ∧
        ¬(dividingLoop l).Dom ⟨2⟩ ⟨0⟩ ∧ ⟨2⟩ ∈ p.func.listOf ⟨0⟩ ∧
        p.func.op? ⟨2⟩ = some (.binary .sdiv) ∧ p.func.slot ⟨⟨2⟩, 1⟩ = some (.lit l) := by
  have hfacts : ∀ l ∈ [Literal.i32 2, .i32 (-1)], (dividingLoop l).isDeclaration = false ∧
      (dividingLoop l).check = .ok () ∧ ⟨2⟩ ∈ (dividingLoop l).listOf ⟨2⟩ ∧
      (Analysis.ofFunc (dividingLoop l)).toOption.any fun a => !a.dom.dominates ⟨2⟩ ⟨0⟩ &&
        (run a {} (dividingLoop l)).toOption.any fun r : Progress × Option Rejection =>
          decide (⟨2⟩ ∈ r.1.func.listOf ⟨0⟩ ∧ r.1.func.op? ⟨2⟩ = some (.binary .sdiv) ∧
            r.1.func.slot ⟨⟨2⟩, 1⟩ = some (.lit l)) := by
    decide
  obtain ⟨hdecl, hcheck, hmem, h⟩ := hfacts l hl
  obtain ⟨a, ha, h⟩ := exists_ok_of_any h
  obtain ⟨hdom, h⟩ := Bool.and_eq_true_iff.mp h
  obtain ⟨⟨p, r⟩, hrun, h⟩ := exists_ok_of_any h
  obtain ⟨rank, hd⟩ := Analysis.describes ha (Nat.zero_lt_of_lt (lt_numBlocks_of_mem hmem))
  refine ⟨hdecl, hcheck, hmem, a, p, r, ha, hrun, fun hDom => ?_, of_decide_eq_true h⟩
  rw [hd.dominates_iff.mpr hDom] at hdom
  cases hdom

/-- A quotient by two is taken past the branch. -/
theorem run_speculates_known_divisors_halves : ∃ a p r,
    Analysis.ofFunc (dividingLoop (.i32 2)) = .ok a ∧
    run a {} (dividingLoop (.i32 2)) = .ok (p, r) ∧
    ⟨2⟩ ∈ (dividingLoop (.i32 2)).listOf ⟨2⟩ ∧ ⟨2⟩ ∈ p.func.listOf ⟨0⟩ ∧
    ¬(dividingLoop (.i32 2)).Dom ⟨2⟩ ⟨0⟩ ∧
    ∃ l n, p.func.slot ⟨⟨2⟩, 1⟩ = some (.lit l) ∧ l.toInt? = some n ∧ n ≠ 0 := by
  obtain ⟨hdecl, hcheck, hb, a, p, r, ha, hrun, hdom, hc, hop, -⟩ :=
    exists_run_dividingLoop (l := .i32 2) (by decide)
  exact ⟨a, p, r, ha, hrun, hb, hc, hdom, (run_speculates_known_divisors (built_made _ _) hdecl
    hcheck ha hrun hop (by decide) hb hc (by decide) hdom).1⟩

/-- So is a quotient by minus one, which overflows for the least dividend. -/
theorem dividingLoop_speculates_overflow :
    (dividingLoop (.i32 (-1))).Built ∧ (dividingLoop (.i32 (-1))).isDeclaration = false ∧
    (dividingLoop (.i32 (-1))).check = .ok () ∧ ⟨2⟩ ∈ (dividingLoop (.i32 (-1))).listOf ⟨2⟩ ∧
    ∃ a p r, Analysis.ofFunc (dividingLoop (.i32 (-1))) = .ok a ∧
      run a {} (dividingLoop (.i32 (-1))) = .ok (p, r) ∧
      ¬(dividingLoop (.i32 (-1))).Dom ⟨2⟩ ⟨0⟩ ∧ ⟨2⟩ ∈ p.func.listOf ⟨0⟩ ∧
      p.func.op? ⟨2⟩ = some (.binary .sdiv) ∧
      p.func.slot ⟨⟨2⟩, 1⟩ = some (.lit (.i32 (-1))) :=
  ⟨built_made _ _, exists_run_dividingLoop (by decide)⟩

end SsaOpt.Motion
