import SsaOpt.Proofs.Pipeline
import SsaOpt.Proofs.Schedule

/-! The optimiser comes to an end. A function that was accepted can make it fail in one way only:
floating instructions read each other in a circle, where control never comes to. -/

namespace SsaOpt

namespace Motion

open Func

variable {f : Func} {a : Analysis} {rank : BlockId → Nat} {x : InstId}
  {depth : BlockId → Nat} {policy : Placement}

/-! ## Decisions -/

theorem exists_reachableSites {α : Type} (d : Dominators) (site : α → Except Halt BlockId)
    {xs : List α} (h : ∀ x ∈ xs, ∃ b, site x = .ok b ∧ b.index < d.links.size) :
    ∃ r, reachableSites d site xs = .ok r := by
  induction xs with
  | nil => exact ⟨_, rfl⟩
  | cons x xs ih =>
    obtain ⟨b, hb, hlt⟩ := h x List.mem_cons_self
    obtain ⟨r, hr⟩ := ih fun y hy => h y (List.mem_cons_of_mem _ hy)
    refine exists_ok_bind hb (exists_ok_bind (lift_eq_ok_iff.mpr (if_pos hlt)) ?_)
    split
    · exact exists_ok_bind hr ⟨_, rfl⟩
    · exact ⟨_, rfl⟩

theorem definingBlock_of_mem {d : InstId} {b : BlockId} (hf : f.Consistent)
    (hd : d ∈ f.listOf b) : f.definingBlock x d = .ok b := by
  obtain ⟨z, hz⟩ := hf.exists_inst hd
  have hhome : z.home = some b := by rw [← homeOf_of_inst hz, (hf.mem_list b d).mp hd]
  unfold definingBlock
  refine bind_eq_ok_iff.mpr ⟨z, lift_eq_ok_iff.mpr hz, ?_⟩
  rw [hhome]
  rfl

theorem useBlock_of_mem {u : Use} {b : BlockId} (hf : f.Consistent) (hu : u.user ∈ f.listOf b)
    (hphi : ¬f.isPhi u.user) : f.useBlock x u = .ok b := by
  obtain ⟨z, hz⟩ := hf.exists_inst hu
  have hhome : z.home = some b := by rw [← homeOf_of_inst hz, (hf.mem_list b _).mp hu]
  rw [isPhi_eq, op?_of_inst hz] at hphi
  unfold useBlock
  refine bind_eq_ok_iff.mpr ⟨z, lift_eq_ok_iff.mpr hz, ?_⟩
  rw [incoming?_eq_none_iff.mpr hphi, hhome]
  rfl

/-- A division has a divisor. -/
theorem exists_mayTrap {z : Instruction} (hz : f.inst x = .ok z)
    (htakes : z.op.takes z.operands.length) : ∃ t, mayTrap f x = .ok t := by
  unfold mayTrap
  refine exists_ok_bind hz ?_
  cases hop : z.op with
  | binary op =>
    rw [hop] at htakes
    have hlen : z.operands.length = 2 := of_decide_eq_true htakes
    dsimp only
    split
    · refine exists_ok_bind (a := z.operands[1]) (bind_eq_ok_iff.mpr ⟨z, hz, ?_⟩) ⟨_, rfl⟩
      exact ofOption_eq_ok_iff.mpr (List.getElem?_eq_getElem (by omega))
    · exact ⟨_, rfl⟩
  | _ => exact ⟨_, rfl⟩

theorem exists_bestBlock {z : Instruction} {earliest latest current : BlockId}
    (hz : f.inst x = .ok z) (htakes : z.op.takes z.operands.length) :
    ∃ b, bestBlock a depth policy f x earliest latest current = .ok b := by
  cases policy with
  | late => exact ⟨_, rfl⟩
  | hoist =>
    obtain ⟨t, ht⟩ := exists_mayTrap hz htakes
    exact exists_ok_bind ht ⟨_, rfl⟩

/-- Where control comes to, all operands are placed. -/
theorem exists_definingBlock {current : BlockId} {d : InstId} (hf : f.Orderly)
    (hreached : f.Reached current) (hx : x ∈ f.listOf current) (hread : d ∈ f.reads x) :
    ∃ b, f.definingBlock x d = .ok b ∧ b.index < f.numBlocks := by
  obtain ⟨b, hb⟩ := hf.tied.placed hreached hx hread
  exact ⟨b, definingBlock_of_mem hf.valid.consistent hb, lt_numBlocks_of_mem hb⟩

/-- Where everything is placed, all users are. -/
theorem exists_useBlock {current : BlockId} {u : Use} (hf : f.Orderly) (hsettled : f.Settled)
    (hmove : Movable f x) (hx : x ∈ f.listOf current) (hu : u ∈ f.usesOf x) :
    ∃ b, f.useBlock x u = .ok b ∧ b.index < f.numBlocks := by
  have hcon := hf.valid.consistent
  have hread : x ∈ f.reads u.user := mem_reads_iff.mpr ⟨u.index, (hcon.mem_uses x u).mp hu⟩
  obtain ⟨y, hy, hlive⟩ := live_iff.mp ((hf.tied.linked hx).readers _ hread)
  obtain ⟨b, hb⟩ := Option.isSome_iff_exists.mp (hsettled hy hlive)
  have hmem : u.user ∈ f.listOf b := (hcon.mem_list b _).mpr (by rw [homeOf, hy]; exact hb)
  exact ⟨b, useBlock_of_mem hcon hmem (hmove.not_phi hread), lt_numBlocks_of_mem hmem⟩

/-- The latest block dominates the uses that it was computed from. -/
theorem find?_not_dominated {current : BlockId} {blocks : List BlockId} (hd : a.Describes f rank)
    (hreached : f.Reached current) (hblocks : ∀ b ∈ blocks, f.Reached b) :
    blocks.find? (fun b => !a.dom.dominates (latestBlock a.dom current blocks) b) = none := by
  rw [List.find?_eq_none]
  intro b hb
  have hdom := (latestBlock_spec hd hreached hblocks).2.2 b hb
  simpa using hd.dominates_iff.mpr hdom

/-- A decision on a movable instruction is always made. -/
theorem exists_decision {z : Instruction} (hd : a.Describes f rank) (hf : f.Orderly)
    (hsettled : f.Settled) (hmove : Movable f x) (hz : f.inst x = .ok z) :
    ∃ d, decision a depth policy f x = .ok d := by
  have hsize : a.dom.links.size = f.numBlocks := by rw [hd.dom.exact.sound.size, hd.graph.size]
  unfold decision
  refine exists_ok_bind (lift_eq_ok_iff.mpr hz) ?_
  split
  · next current entry hcurrent hentry =>
    have hx : x ∈ f.listOf current := (hf.valid.consistent.mem_list current x).mpr (by
      rw [homeOf_of_inst hz, hcurrent])
    split
    · exact ⟨_, rfl⟩
    · next hreach =>
      have hreached : f.Reached current := hd.reachable_iff.mp (by simpa using hreach)
      obtain ⟨defs, hdefs⟩ := exists_reachableSites a.dom (f.definingBlock x)
        fun d hd => hsize ▸ exists_definingBlock hf hreached hx hd
      rw [reads_eq, operandsOf_of_inst hz] at hdefs
      refine exists_ok_bind hdefs ?_
      cases defs with
      | none => exact ⟨_, rfl⟩
      | some defs =>
        obtain ⟨blocks, hblocks⟩ := exists_reachableSites a.dom (f.useBlock x)
          fun u hu => hsize ▸ exists_useBlock hf hsettled hmove hx hu
        rw [usesOf_of_inst hz] at hblocks
        refine exists_ok_bind hblocks ?_
        cases blocks with
        | none => exact ⟨_, rfl⟩
        | some blocks =>
          have hall : ∀ b ∈ blocks, f.Reached b := by
            intro b hb
            obtain ⟨u, -, -, hb⟩ := exists_partner (reachableSites_spec hblocks).flip hb
            exact hd.reachable_iff.mp hb
          have htakes := hf.laidOut (bare?_of_inst hz) (hf.valid.live hx (bare?_of_inst hz))
          obtain ⟨best, hbest⟩ : ∃ best, bestBlock a depth policy f x (deepest a.dom entry defs)
              (latestBlock a.dom current blocks) current = .ok best :=
            exists_bestBlock hz htakes
          simp only [find?_not_dominated hd hreached hall]
          refine exists_ok_bind (lift_eq_ok_iff.mpr hbest) ?_
          split
          · exact ⟨_, rfl⟩
          · exact ⟨_, rfl⟩
  · exact ⟨_, rfl⟩

theorem exists_carryOut {p : Progress} {d : Decision} {z : Instruction} (hf : p.func.Housed)
    (hd : a.Describes p.func rank) (hloose : Loose p.func x) (hz : p.func.inst x = .ok z)
    (hdec : decision a depth policy p.func x = .ok d) : ∃ q, carryOut p x d = .ok q := by
  cases d with
  | leave => exact ⟨_, rfl⟩
  | noLegalBlock current => exact ⟨_, rfl⟩
  | site s =>
    have hc := decision_spec hdec
    unfold carryOut
    dsimp only
    split
    · exact ⟨_, rfl⟩
    · obtain ⟨hreach, -, -⟩ := hc.latest_spec hf hd fun i => hloose.not_phi
      have hbest := (bestBlock_spec hd hreach hc.best).1.reaches_left
      obtain ⟨defs, -, hlegal⟩ := hc.defs
      have hchosen : p.func.Reached s.chosen := (legalBlock?_spec hd hbest hlegal).1 ▸ hbest
      obtain ⟨g, hg⟩ := exists_relocate hf (hc.mem_current hf) hloose.not_ends_self
        (hf.lt_numBlocks hchosen)
      have hline : (p.note (.sited x s)).func.renderInst x = .ok (z.render x) :=
        bind_eq_ok_iff.mpr ⟨z, hz, rfl⟩
      exact exists_ok_bind hline (exists_ok_bind hg ⟨_, rfl⟩)

/-! ## Sweeps -/

theorem exists_placeAll {st : Setting} (hd : st.analysis.Describes f rank) (hf : f.Orderly)
    (hsettled : f.Settled) {is : List InstId} : ∀ {p : Progress}, Moved f p.func →
    (∀ i ∈ is, Movable f i ∧ (f.op? i).isSome) → ∃ q, placeAll st is p = .ok (q, none) := by
  induction is with
  | nil => exact fun {p} _ _ => ⟨p, rfl⟩
  | cons i is ih =>
    intro p hp his
    obtain ⟨hmove, hknown⟩ := his i List.mem_cons_self
    have hd' := hd.congr hp.edge hp.size
    have hmove' := hmove.moved hp
    obtain ⟨z, hz⟩ : ∃ z, p.func.inst i = .ok z := by
      rw [← hp.op, Option.isSome_iff_exists] at hknown
      obtain ⟨op, hop⟩ := hknown
      obtain ⟨z, hz, -⟩ := op?_eq_some_iff.mp hop
      exact ⟨z, hz⟩
    obtain ⟨d, hdec⟩ : ∃ d, st.decision p.func i = .ok d :=
      exists_decision hd' (hp.amended.orderly hf) (hp.amended.settled hsettled) hmove' hz
    obtain ⟨q, hq⟩ := exists_carryOut hp.valid.housed hd' hmove'.toLoose hz hdec
    obtain ⟨r, hr⟩ := ih (hp.trans (carryOut_moved hp.valid hd' hmove' hdec hq)) fun j hj =>
      his j (List.mem_cons_of_mem _ hj)
    exact ⟨r, (placeAll_cons_of_ok hdec hq is).trans hr⟩

theorem exists_sweep {st : Setting} {p : Progress} (hd : st.analysis.Describes p.func rank)
    (hf : p.func.Orderly) (hsettled : p.func.Settled) (hacyclic : p.func.Acyclic) :
    ∃ q, sweep st p = .ok (q, none) := by
  have hcon := hf.valid.consistent
  obtain ⟨is, his⟩ := (exists_schedule_iff hcon).mpr hacyclic
  have hmovable : ∀ i ∈ is, Movable p.func i ∧ (p.func.op? i).isSome := by
    intro i hi
    obtain ⟨b, hb⟩ := mem_placed_iff.mp (loose_of_schedule hcon his hi).1
    obtain ⟨z, hz⟩ := hcon.exists_inst hb
    exact ⟨movable_of_schedule hcon hf.unread his hi, by rw [op?_of_inst hz]; rfl⟩
  obtain ⟨q, hq⟩ := exists_placeAll hd hf hsettled (.refl hf.valid) hmovable
  rw [sweep_eq]
  exact ⟨q, bind_eq_ok_iff.mpr ⟨is, his, hq⟩⟩

/-- A circle stops a sweep before it moves anything. -/
theorem sweep_of_circle {p : Progress} (hf : p.func.Consistent) (hcircle : ¬p.func.Acyclic)
    (st : Setting) : sweep st p = .error .floatingCycle := by
  rw [sweep_eq, schedule_of_circle hf hcircle]
  rfl

theorem exists_sweeps {st : Setting} {limit : Nat} (hd : st.analysis.Describes f rank)
    (hf : f.Orderly) (hsettled : f.Settled) (hacyclic : f.Acyclic) (n : Nat) :
    ∀ {p : Progress}, Moved f p.func → ∃ q, sweeps st limit n p = .ok (q, none) := by
  induction n with
  | zero => exact fun {p} _ => ⟨_, rfl⟩
  | succ n ih =>
    intro p hp
    have hd' := hd.congr hp.edge hp.size
    have hf' := hp.amended.orderly hf
    obtain ⟨q, hq⟩ := exists_sweep hd' hf' (hp.amended.settled hsettled)
      ((hp.amended.acyclic_iff hf).mpr hacyclic)
    obtain ⟨r, hr⟩ := ih (hp.trans (sweep_moved hd' hp.valid hf'.unread hq))
    by_cases hdone : (none : Option Rejection).isSome || q.changes = p.changes
    · exact ⟨q, bind_eq_ok_iff.mpr ⟨_, hq, if_pos hdone⟩⟩
    · exact ⟨r, bind_eq_ok_iff.mpr ⟨_, hq, (if_neg hdone).trans hr⟩⟩

theorem exists_run (hd : a.Describes f rank) (hf : f.Orderly) (hsettled : f.Settled)
    (hacyclic : f.Acyclic) (settings : Settings) : ∃ p, run a settings f = .ok (p, none) :=
  exists_sweeps hd hf hsettled hacyclic _ (.refl hf.valid)

theorem run_of_circle (hf : f.Consistent) (hcircle : ¬f.Acyclic) (settings : Settings) :
    run a settings f = .error .floatingCycle := by
  obtain ⟨n, hn⟩ := exists_run_eq a settings f
  rw [hn, sweeps, sweep_of_circle hf hcircle]
  rfl

end Motion

/-! ## The passes in sequence -/

namespace Pipeline

open Func

variable {f : Func} {a : Analysis} {settings : Settings} {stats : Stats} {remarks : Array Remark}

theorem recheck_of_orderly (hf : f.Orderly) : recheck settings f = .ok none := by
  unfold recheck
  split
  · rw [hf.check]
  · rfl

theorem exists_runPass {pass : Pass} (hf : f.Orderly) (hsettled : f.Settled)
    (ha : Analysis.ofFunc f = .ok a) (hmotion : pass = .motion → f.Acyclic)
    (settings : Settings) : ∃ p, runPass settings a f pass = .ok (p, none) := by
  obtain ⟨rank, hd⟩ := Analysis.describes ha hf.valid.entry_lt
  cases pass with
  | loads =>
    obtain ⟨p, seen, table, hp, -⟩ := Loads.exists_run hd hf.valid hf.tied hf.laidOut
    exact ⟨p, bind_eq_ok_iff.mpr ⟨p, hp, rfl⟩⟩
  | values =>
    obtain ⟨p, hp, -⟩ := Values.exists_run hd hf.valid hf.laidOut settings.visibility
    exact ⟨p, bind_eq_ok_iff.mpr ⟨p, hp, rfl⟩⟩
  | motion => exact Motion.exists_run hd hf hsettled (hmotion rfl) settings

/-- After a pass that left an orderly function the next one runs. -/
theorem runPasses_cons {pass : Pass} {p : Progress} (hp : p.func.Orderly)
    (hpass : runPass settings a f pass = .ok (p, none)) (rest : List Pass) :
    ∃ stats' remarks', runPasses settings a (pass :: rest) f stats remarks =
      runPasses settings a rest p.func stats' remarks' := by
  simp only [runPasses, hpass, func_noted, recheck_of_orderly hp, bind, Except.bind]
  exact ⟨_, _, rfl⟩

theorem exists_runPasses {passes : List Pass} (hf : f.Orderly) (hsettled : f.Settled)
    (ha : Analysis.ofFunc f = .ok a) (hmotion : .motion ∈ passes → f.Acyclic) :
    ∃ r total, runPasses settings a passes f stats remarks = .ok r ∧ r.result = .ok total := by
  induction passes generalizing f stats remarks with
  | nil => exact ⟨_, _, rfl, rfl⟩
  | cons pass rest ih =>
    obtain ⟨p, hp⟩ := exists_runPass hf hsettled ha
      (fun hpass => hmotion (hpass ▸ List.mem_cons_self)) settings
    have hamended := runPass_amended hf ha hp
    obtain ⟨stats', remarks', heq⟩ := runPasses_cons (hamended.orderly hf) hp rest
    rw [heq]
    exact ih (hamended.orderly hf) (hamended.settled hsettled) (hamended.analysis hf.valid ha)
      fun h => (hamended.acyclic_iff hf).mpr (hmotion (List.mem_cons_of_mem _ h))

theorem runPasses_of_circle {passes : List Pass} (hf : f.Orderly) (hsettled : f.Settled)
    (ha : Analysis.ofFunc f = .ok a) (hmotion : .motion ∈ passes) (hcircle : ¬f.Acyclic) :
    runPasses settings a passes f stats remarks = .error .floatingCycle := by
  induction passes generalizing f stats remarks with
  | nil => cases hmotion
  | cons pass rest ih =>
    by_cases hpass : pass = .motion
    · subst hpass
      simp only [runPasses, runPass, Motion.run_of_circle hf.valid.consistent hcircle, bind,
        Except.bind]
    · obtain ⟨p, hp⟩ := exists_runPass hf hsettled ha (fun h => absurd h hpass) settings
      have hamended := runPass_amended hf ha hp
      obtain ⟨stats', remarks', heq⟩ := runPasses_cons (hamended.orderly hf) hp rest
      have hrest : Pass.motion ∈ rest := (List.mem_cons.mp hmotion).resolve_left (Ne.symm hpass)
      rw [heq]
      exact ih (hamended.orderly hf) (hamended.settled hsettled) (hamended.analysis hf.valid ha) hrest
        fun h => hcircle ((hamended.acyclic_iff hf).mp h)

theorem motion_mem_iff : .motion ∈ Pass.all.filter settings.enabled ↔ settings.runMotion := by
  simp [Pass.all, Settings.enabled]

theorem runFunc_eq (hdecl : f.isDeclaration = false) (h₀ : 0 < f.numBlocks)
    (ha : Analysis.ofFunc f = .ok a) : runFunc settings f =
      runPasses settings a (Pass.all.filter settings.enabled) f {} #[] := by
  have hcond : ¬(f.isDeclaration || decide (f.numBlocks = 0)) = true := by
    simp only [hdecl, Bool.false_or, decide_eq_true_eq]
    omega
  unfold runFunc
  rw [if_neg hcond, ha]
  rfl

/-- **An accepted function makes the optimiser fail in one way only.** Take a function that was
accepted, all of whose instructions are placed and have the operands that they are built with, and
in which no placed instruction reads a terminator. Unless code motion is on and floating
instructions read each other in a circle, the optimiser comes to an end, without a fault and
without a rejection. With code motion on, a circle always is a fault. Every circle is in blocks that
control never comes to. -/
theorem runFunc_ok_unless_circle {f : Func} (hbuilt : f.Built) (hdecl : f.isDeclaration = false)
    (hcheck : f.check = .ok ()) (hlayout : f.LaidOut) (hsettled : f.Settled)
    (hterm : ∀ b, ∀ i ∈ f.listOf b, ∀ d ∈ f.reads i, ¬f.ends d) (settings : Settings) :
    ((settings.runMotion → f.Acyclic) →
      ∃ r stats, runFunc settings f = .ok r ∧ r.result = .ok stats) ∧
    (settings.runMotion → ¬f.Acyclic → runFunc settings f = .error .floatingCycle) ∧
    ∀ i, Relation.TransGen f.Feeds i i → f.Stranded i := by
  by_cases h₀ : 0 < f.numBlocks
  · have hf := hbuilt.orderly hdecl hcheck h₀ hlayout hterm
    obtain ⟨a, ha⟩ := Analysis.exists_ofFunc (targetsExist_of_check hdecl hcheck)
    rw [runFunc_eq hdecl h₀ ha]
    refine ⟨fun hmotion => ?_, fun hmotion => ?_, fun i => hf.valid.stranded_of_circle⟩
    · exact exists_runPasses hf hsettled ha fun h => hmotion (motion_mem_iff.mp h)
    · exact runPasses_of_circle hf hsettled ha (motion_mem_iff.mpr hmotion)
  · -- nothing is placed in a function without blocks
    have hnone : ∀ i, ¬Relation.TransGen f.Feeds i i := by
      intro i hi
      obtain ⟨c, -, hlast⟩ := Relation.TransGen.tail'_iff.mp hi
      obtain ⟨b, hb⟩ := mem_placed_iff.mp hlast.target.1
      have := lt_numBlocks_of_mem hb
      omega
    refine ⟨fun _ => ⟨{ func := f }, {}, ?_, rfl⟩, fun _ h => absurd hnone h, fun i hi =>
      absurd hi (hnone i)⟩
    unfold runFunc
    rw [if_pos (by simp only [hdecl, Bool.false_or, decide_eq_true_eq]; omega)]
    rfl

/-- The passes all run on the loop, with a check after each of them. -/
theorem runFunc_ok_unless_circle_scalingLoop : scalingLoop.Acyclic ∧
    ∃ r stats, runFunc { checked := true } scalingLoop = .ok r ∧ r.result = .ok stats := by
  have hacyclic : scalingLoop.Acyclic := acyclic_of_lt (by decide +kernel)
  have hterm : ∀ b, ∀ i ∈ scalingLoop.listOf b, ∀ d ∈ scalingLoop.reads i,
      ¬scalingLoop.ends d := forall_placed (by decide +kernel)
  have hrun := runFunc_ok_unless_circle (f := scalingLoop) (built_made _ _) (by decide +kernel)
    (by decide +kernel) (by decide +kernel) (by decide +kernel) hterm { checked := true }
  exact ⟨hacyclic, hrun.1 fun _ => hacyclic⟩

/-- A loop with a sum that reads the jump into the loop. -/
def jumpReader : Func := .made [.i1] [
  .block, .block, .block,
  .switch ⟨0⟩, .jump ⟨1⟩,
  .switch ⟨1⟩, .binary .add .i32 (.inst ⟨0⟩) (.lit (.i32 1)), .store (.inst ⟨1⟩) (.global 0),
  .branch (.arg 0) ⟨1⟩ ⟨2⟩,
  .switch ⟨2⟩, .ret none]

-- where terminators are read, code motion may put a reader before the terminator
example : jumpReader.check = .ok () ∧ jumpReader.LaidOut ∧ jumpReader.Settled ∧
    (runFunc { checked := true } jumpReader).toOption.any
      fun r => r.result.toOption = none := by decide +kernel

/-- A sum that reads itself, in a block that nothing leads to. -/
def strandedSum : Func := .made [] [
  .block, .block,
  .switch ⟨0⟩, .ret none,
  .switch ⟨1⟩, .binary .add .i32 (.inst ⟨1⟩) (.lit (.i32 1)), .ret none]

/-- The sum is accepted, and code motion does not get past it. -/
theorem strandedSum_accepted_and_fails : strandedSum.Built ∧ strandedSum.isDeclaration = false ∧
    strandedSum.check = .ok () ∧ strandedSum.LaidOut ∧ strandedSum.Settled ∧
    runFunc {} strandedSum = .error .floatingCycle := by
  have hbuilt : strandedSum.Built := built_made _ _
  have hdecl : strandedSum.isDeclaration = false := by decide +kernel
  have hcheck : strandedSum.check = .ok () := by decide +kernel
  have hlayout : strandedSum.LaidOut := by decide +kernel
  have hsettled : strandedSum.Settled := by decide +kernel
  have hcircle : ¬strandedSum.Acyclic := by
    have hfloating : strandedSum.Floating ⟨1⟩ := ⟨by decide +kernel, by decide +kernel⟩
    exact fun h => h ⟨1⟩ (.single ⟨hfloating, hfloating, by decide +kernel⟩)
  have h₀ : 0 < strandedSum.numBlocks := by decide +kernel
  have hf := hbuilt.orderly hdecl hcheck h₀ hlayout (forall_placed (by decide +kernel))
  obtain ⟨a, ha⟩ := Analysis.exists_ofFunc (targetsExist_of_check hdecl hcheck)
  refine ⟨hbuilt, hdecl, hcheck, hlayout, hsettled, ?_⟩
  rw [runFunc_eq hdecl h₀ ha]
  exact runPasses_of_circle hf hsettled ha (by decide) hcircle

end Pipeline

end SsaOpt
