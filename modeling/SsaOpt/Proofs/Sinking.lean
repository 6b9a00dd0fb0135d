import SsaOpt.Proofs.Optimality

/-! Under the late placement one sweep is enough. It can always be made, it takes every instruction
that is not pinned down to the nearest common dominator of its readers, and a further sweep finds
nothing to move. -/

namespace SsaOpt.Motion

open Func

variable {f : Func} {a : Analysis} {rank : BlockId → Nat} {x : InstId} {b : BlockId}
  {st : Setting} {p q : Progress}

/-- The block is the lowest common dominator of the blocks in which the readers of `x` stand. -/
structure Lowest (f : Func) (x : InstId) (b : BlockId) : Prop where
  dominates : ∀ {i c}, x ∈ f.reads i → i ∈ f.listOf c → f.Dom b c
  least : ∀ {d}, (∀ {i c}, x ∈ f.reads i → i ∈ f.listOf c → f.Dom d c) → f.Dom d b

/-! ## Late sweeps can be made -/

/-- Whatever reads a placed instruction is placed. -/
def ReadersPlaced (f : Func) : Prop :=
  ∀ x ∈ f.placed, ∀ i, x ∈ f.reads i → i ∈ f.placed

theorem readersPlaced_of_tied (hf : f.Consistent) (htied : f.Tied) (hsettled : f.Settled) :
    ReadersPlaced f := by
  intro x hx i hread
  obtain ⟨b, hb⟩ := mem_placed_iff.mp hx
  obtain ⟨z, hz, hlive⟩ := live_iff.mp ((htied.linked hb).readers i hread)
  obtain ⟨c, hc⟩ := Option.isSome_iff_exists.mp (hsettled hz hlive)
  refine mem_placed_iff.mpr ⟨c, (hf.mem_list c i).mpr ?_⟩
  rw [homeOf, hz]
  exact hc

theorem ReadersPlaced.rehomed {g : Func} (h : ReadersPlaced f) (hg : Rehomed f g) :
    ReadersPlaced g := by
  intro x hx i hread
  rw [hg.reads] at hread
  exact hg.placed.mpr (h x (hg.placed.mp hx) i hread)

/-- A late decision needs to know nothing but where the readers are. -/
theorem exists_late_decision (hlate : st.policy = .late) (hf : f.Housed)
    (hd : st.analysis.Describes f rank) (hreaders : ReadersPlaced f) (hx : x ∈ f.placed)
    (hloose : Loose f x) : ∃ d, st.decision f x = .ok d := by
  obtain ⟨b, hb⟩ := mem_placed_iff.mp hx
  have hsize : st.analysis.dom.links.size = f.numBlocks := by
    rw [hd.dom.exact.sound.size, hd.graph.size]
  unfold Setting.decision
  rw [hlate]
  by_cases hreached : f.Reached b
  · obtain ⟨e, -, heq⟩ := decision_of_reached hf hd hreached hb hloose st.depth .late
    obtain ⟨uses, huses⟩ : ∃ uses, reachableSites st.analysis.dom (f.useBlock x) (f.usesOf x) =
        .ok uses := by
      refine exists_reachableSites _ _ fun u hu => ?_
      have hread : x ∈ f.reads u.user :=
        mem_reads_iff.mpr ⟨u.index, (hf.consistent.mem_uses x u).mp hu⟩
      obtain ⟨c, hc⟩ := mem_placed_iff.mp (hreaders x hx u.user hread)
      refine ⟨c, useBlock_of_mem hf.consistent hc (hloose.not_phi hread), ?_⟩
      rw [hsize]
      exact lt_numBlocks_of_mem hc
    rw [heq, huses]
    cases uses with
    | none => exact ⟨_, rfl⟩
    | some blocks => exact ⟨_, rfl⟩
  · exact ⟨_, decision_of_not_reached hf.consistent hd hb hreached⟩

theorem exists_late_placeAll (hlate : st.policy = .late) (hd : st.analysis.Describes f rank)
    (hreaders : ReadersPlaced f) {is : List InstId} : ∀ {p : Progress}, Rehomed f p.func →
    (∀ x ∈ is, x ∈ f.placed ∧ Loose f x) → ∃ q, placeAll st is p = .ok (q, none) := by
  induction is with
  | nil => exact fun {p} _ _ => ⟨p, rfl⟩
  | cons x is ih =>
    intro p hp his
    obtain ⟨⟨hx, hloose⟩, his⟩ := List.forall_mem_cons.mp his
    have hd' := hp.describes hd
    have hx' := hp.placed.mpr hx
    have hloose' := hp.loose_iff.mpr hloose
    obtain ⟨d, hdec⟩ := exists_late_decision hlate hp.housed hd' (hreaders.rehomed hp) hx' hloose'
    obtain ⟨b, hb⟩ := mem_placed_iff.mp hx'
    obtain ⟨z, hz⟩ := hp.housed.consistent.exists_inst hb
    obtain ⟨p', hp'⟩ := exists_carryOut hp.housed hd' hloose' hz hdec
    obtain ⟨q, hq⟩ := ih (hp.trans (carryOut_rehomed hp.housed hd' hloose' hdec hp')) his
    exact ⟨q, (placeAll_cons_of_ok hdec hp' is).trans hq⟩

theorem exists_late_sweep (hlate : st.policy = .late) (hd : st.analysis.Describes p.func rank)
    (hf : p.func.Housed) (hreaders : ReadersPlaced p.func) (hacyclic : p.func.Acyclic) :
    ∃ q, sweep st p = .ok (q, none) := by
  obtain ⟨is, his⟩ := (exists_schedule_iff hf.consistent).mpr hacyclic
  obtain ⟨q, hq⟩ := exists_late_placeAll hlate hd hreaders (.refl hf) fun x =>
    loose_of_schedule hf.consistent his
  rw [sweep_eq]
  exact ⟨q, bind_eq_ok_iff.mpr ⟨is, his, hq⟩⟩

/-! ## Where a late sweep leaves an instruction -/

/-- If control comes to all readers, the meet of their blocks is their lowest common dominator. -/
theorem Sunk.lowest (hf : f.Housed) (hd : a.Describes f rank) (hb : f.Reached b)
    (hx : x ∈ f.listOf b) (hloose : Loose f x) (h : Sunk a f x b) (huse : ∃ i, x ∈ f.reads i)
    (hreach : ∀ i, x ∈ f.reads i → ∃ home, i ∈ f.listOf home ∧ f.Reached home) :
    Lowest f x b := by
  obtain ⟨blocks, hblocks, hne, hreader⟩ := exists_useBlocks hf.consistent hd hloose hreach
  obtain ⟨uses, huses, hmeet⟩ := h hb
  obtain rfl := Except.ok.inj (hblocks.symm.trans huses)
  have hreached : ∀ {i c}, x ∈ f.reads i → i ∈ f.listOf c → f.Reached c := by
    intro i c hread hi
    obtain ⟨home, hhome, hr⟩ := hreach i hread
    exact hf.consistent.home_unique hhome hi ▸ hr
  refine ⟨fun hread hi => ?_, fun {d} hall => ?_⟩
  · exact dom_of_reads hf hx hi (hreached hread hi) (hloose.not_phi hread) hread
  · obtain ⟨first, rest, rfl⟩ := List.exists_cons_of_ne_nil (hne huse)
    have hdom : ∀ c ∈ first :: rest, f.Dom d c := by
      intro c hc
      obtain ⟨i, hread, hi⟩ := hreader c hc
      exact hall hread hi
    obtain ⟨hfirst, hrest⟩ := List.forall_mem_cons.mp fun c hc => (hdom c hc).1
    rw [← hmeet _ rfl]
    exact ((reached_foldl_meet hd hfirst hrest).2 d).mpr (List.forall_mem_cons.mp hdom)

theorem Still.lowest (hlate : st.policy = .late) (hf : f.Housed)
    (hd : st.analysis.Describes f rank) (h : Still st f) (hb : f.Reached b) (hx : x ∈ f.listOf b)
    (hfloats : (f.op? x).any floats) (hpin : ¬f.Pinned x) (huse : ∃ i, x ∈ f.reads i)
    (hreach : ∀ i, x ∈ f.reads i → ∃ home, i ∈ f.listOf home ∧ f.Reached home) :
    Lowest f x b := by
  obtain ⟨hrest, hloose⟩ := h.resting hf.consistent hx hfloats hpin
  exact ((resting_iff_sunk hf hd hlate hx hloose).mp hrest).lowest hf hd hb hx hloose huse hreach

/-- After one sweep that leaves the function at rest, a run does no more than that sweep. -/
theorem run_of_still_sweep {settings : Settings}
    (h : sweep ⟨a, loopDepths a, settings.placement⟩ { func := f } = .ok (q, none))
    (hstill : Still ⟨a, loopDepths a, settings.placement⟩ q.func) :
    ∃ p, run a settings f = .ok (p, none) ∧ p.func = q.func ∧ p.changes = q.changes := by
  obtain ⟨n, hn⟩ := exists_run_eq a settings f
  rw [hn, sweeps]
  by_cases hdone : (none : Option Rejection).isSome || q.changes = 0
  · exact ⟨q, bind_eq_ok_iff.mpr ⟨_, h, if_pos hdone⟩, rfl, rfl⟩
  · obtain ⟨p, hp, hsame⟩ : ∃ p, sweeps _ (n + 1) n q = .ok (p, none) ∧ _ :=
      sweeps_of_still hstill n
    exact ⟨p, bind_eq_ok_iff.mpr ⟨_, h, (if_neg hdone).trans hp⟩, hsame⟩

/-- The first late sweep is made, keeps the analysis and leaves the function at rest. -/
theorem exists_late_sweep_still (hcon : f.Consistent) (hdecl : f.isDeclaration = false)
    (hcheck : f.check = .ok ()) (hsettled : f.Settled) (hacyclic : f.Acyclic)
    (ha : Analysis.ofFunc f = .ok a) :
    ∃ q, sweep ⟨a, loopDepths a, .late⟩ { func := f } = .ok (q, none) ∧
      Analysis.ofFunc q.func = .ok a ∧ Still ⟨a, loopDepths a, .late⟩ q.func ∧
      (0 < q.func.numBlocks → Rehomed f q.func ∧ ∃ rank, a.Describes q.func rank) := by
  by_cases h₀ : 0 < f.numBlocks
  · obtain ⟨rank, hd⟩ := Analysis.describes ha h₀
    have hf := (hcon.valid hdecl h₀ hcheck).housed
    have hreaders := readersPlaced_of_tied hcon (hcon.tied hdecl hcheck) hsettled
    obtain ⟨q, hq⟩ : ∃ q, sweep ⟨a, loopDepths a, .late⟩ { func := f } = .ok (q, none) :=
      exists_late_sweep rfl hd hf hreaders hacyclic
    have hre := sweep_rehomed hd hf hq
    exact ⟨q, hq, hre.analysis ha, still_of_late_sweep rfl hf hd hq, fun _ =>
      ⟨hre, rank, hre.describes hd⟩⟩
  · have hnil := placed_eq_nil h₀
    exact ⟨_, sweep_of_placed_nil hnil, ha, still_of_placed_nil hnil, fun h => absurd h h₀⟩

/-- **Under the late placement one sweep is a fixpoint.** Take a function that was accepted, all of
whose instructions are placed, and no floating instructions of which read each other in a circle.
The first late sweep is made without a fault and without a rejection. After it, each floating
instruction that is not pinned, stands in a reachable block and has readers, all of them in
reachable blocks, stands in the lowest common dominator of the blocks of its readers. The sweep
keeps the analysis, a further one moves nothing, and a run leaves what the first sweep leaves,
whatever the limit on its sweeps. -/
theorem late_sweep_settles {f : Func} (hbuilt : f.Built) (hdecl : f.isDeclaration = false)
    (hcheck : f.check = .ok ()) (hsettled : f.Settled) (hacyclic : f.Acyclic) :
    ∃ a is order q, Analysis.ofFunc f = .ok a ∧ floating f = .ok is ∧
      consumersFirst f is = .ok order ∧
      sweep ⟨a, loopDepths a, .late⟩ { func := f } = .ok (q, none) ∧
      Analysis.ofFunc q.func = .ok a ∧
      (∀ {x b}, q.func.Reached b → x ∈ q.func.listOf b → (q.func.op? x).any floats →
        x ∉ pinned f order → (∃ i, x ∈ q.func.reads i) →
        (∀ i, x ∈ q.func.reads i → ∃ home, i ∈ q.func.listOf home ∧ q.func.Reached home) →
        Lowest q.func x b) ∧
      (∃ r, sweep ⟨a, loopDepths a, .late⟩ q = .ok (r, none) ∧ r.func = q.func ∧
        r.changes = q.changes) ∧
      ∀ settings : Settings, settings.placement = .late → ∃ p,
        run a settings f = .ok (p, none) ∧ p.func = q.func ∧ p.changes = q.changes := by
  have hcon := hbuilt.consistent
  obtain ⟨a, ha⟩ := Analysis.exists_ofFunc (targetsExist_of_check hdecl hcheck)
  obtain ⟨js, hjs⟩ := (exists_schedule_iff hcon).mpr hacyclic
  obtain ⟨order, horder, -⟩ := (schedule_eq_ok_iff hcon).mp hjs
  obtain ⟨q, hq, ha', hstill, hblocks⟩ :=
    exists_late_sweep_still hcon hdecl hcheck hsettled hacyclic ha
  refine ⟨a, _, order, q, ha, floating_eq hcon, horder, hq, ha', ?_, sweep_of_still hstill, ?_⟩
  · intro x b hb hx hfloats hpin huse hreach
    obtain ⟨hre, rank, hd⟩ := hblocks (Nat.zero_lt_of_lt (lt_numBlocks_of_mem hx))
    refine hstill.lowest rfl hre.housed hd hb hx hfloats (fun hpinned => hpin ?_) huse hreach
    rw [mem_pinned_iff hcon (ordered_of_consumersFirst hcon horder), ← hre.floating_iff]
    exact ⟨⟨mem_placed_iff.mpr ⟨b, hx⟩, hfloats⟩, (hre.pinned_iff hcon).mp hpinned⟩
  · intro settings hlate
    exact run_of_still_sweep (by rw [hlate]; exact hq) (by rw [hlate]; exact hstill)

/-- Two sums before nested branches; both sides of the inner branch need the second sum, and the
other side of the outer one needs neither. -/
def nestedUses : Func := .made [.i32, .i1] [
  .block, .block, .block, .block, .block,
  .switch ⟨0⟩, .binary .add .i32 (.arg 0) (.lit (.i32 1)),
  .binary .add .i32 (.inst ⟨0⟩) (.inst ⟨0⟩), .branch (.arg 1) ⟨1⟩ ⟨4⟩,
  .switch ⟨1⟩, .branch (.arg 1) ⟨2⟩ ⟨3⟩,
  .switch ⟨2⟩, .store (.inst ⟨1⟩) (.global 0), .jump ⟨4⟩,
  .switch ⟨3⟩, .store (.inst ⟨1⟩) (.global 1), .jump ⟨4⟩,
  .switch ⟨4⟩, .ret none]

/-- One sweep takes both sums to the inner branch. -/
theorem late_sweep_settles_nestedUses : ∃ a q r, Analysis.ofFunc nestedUses = .ok a ∧
    sweep ⟨a, loopDepths a, .late⟩ { func := nestedUses } = .ok (q, none) ∧ q.changes = 2 ∧
    (Lowest q.func ⟨0⟩ ⟨1⟩ ∧ Lowest q.func ⟨1⟩ ⟨1⟩) ∧
    sweep ⟨a, loopDepths a, .late⟩ q = .ok (r, none) ∧ r.func = q.func ∧ r.changes = 2 := by
  have hcheck : nestedUses.check = .ok () := by decide +kernel
  have hcon : nestedUses.Consistent := (built_made _ _).consistent
  obtain ⟨a, is, order, q, ha, his, horder, hq, -, hlowest, ⟨r, hr, hsame, hchanges⟩, -⟩ :=
    late_sweep_settles (f := nestedUses) (built_made _ _) (by decide +kernel) hcheck
      (by decide +kernel) (acyclic_of_lt (by decide +kernel))
  obtain ⟨a', ha', h⟩ := exists_ok_of_any (x := Analysis.ofFunc nestedUses)
    (q := fun a => a.dom.reachable ⟨1⟩ && a.dom.reachable ⟨2⟩ && a.dom.reachable ⟨3⟩ &&
      (sweep ⟨a, loopDepths a, .late⟩ { func := nestedUses }).toOption.any
        fun r : Progress × Option Rejection => r.1.changes = 2 &&
          r.1.func.listOf ⟨1⟩ = [⟨0⟩, ⟨1⟩, ⟨3⟩] && r.1.func.listOf ⟨2⟩ = [⟨4⟩, ⟨5⟩] &&
          r.1.func.listOf ⟨3⟩ = [⟨6⟩, ⟨7⟩]) (by decide +kernel)
  obtain rfl := Except.ok.inj (ha.symm.trans ha')
  simp only [Bool.and_eq_true] at h
  obtain ⟨⟨⟨hr₁, hr₂⟩, hr₃⟩, h⟩ := h
  obtain ⟨⟨q', r'⟩, hq', h⟩ := exists_ok_of_any h
  obtain ⟨rfl, rfl⟩ := Prod.mk.inj (Except.ok.inj (hq.symm.trans hq'))
  simp only [Bool.and_eq_true, decide_eq_true_eq] at h
  obtain ⟨⟨⟨hmoved, hlist₁⟩, hlist₂⟩, hlist₃⟩ := h
  obtain ⟨rank, hd⟩ := Analysis.describes ha (by decide +kernel)
  have hre : Rehomed nestedUses q.func :=
    sweep_rehomed hd (hcon.valid (by decide +kernel) (by decide +kernel) hcheck).housed hq
  have hreached : ∀ {b}, a.dom.reachable b = true → q.func.Reached b := fun h =>
    (hre.describes hd).reachable_iff.mp h
  -- the sums are the only floating instructions, and neither is pinned
  have hpin : pinned nestedUses order = [] := by
    have hfloating : floating nestedUses = .ok [⟨0⟩, ⟨1⟩] := by decide +kernel
    obtain rfl := Except.ok.inj (his.symm.trans hfloating)
    have hfirst : consumersFirst nestedUses [⟨0⟩, ⟨1⟩] = .ok [⟨1⟩, ⟨0⟩] := by decide +kernel
    obtain rfl := Except.ok.inj (horder.symm.trans hfirst)
    decide +kernel
  have huse : ∀ {x i}, x ∈ q.func.reads i → ∃ k, ⟨i, k⟩ ∈ nestedUses.usesOf x := by
    intro x i hread
    rw [hre.reads] at hread
    obtain ⟨k, hk⟩ := mem_reads_iff.mp hread
    exact ⟨k, (hcon.mem_uses x ⟨i, k⟩).mpr hk⟩
  have huses₀ : nestedUses.usesOf ⟨0⟩ = [⟨⟨1⟩, 0⟩, ⟨⟨1⟩, 1⟩] := by decide +kernel
  have huses₁ : nestedUses.usesOf ⟨1⟩ = [⟨⟨4⟩, 0⟩, ⟨⟨6⟩, 0⟩] := by decide +kernel
  refine ⟨a, q, r, ha, hq, hmoved, ⟨?_, ?_⟩, hr, hsame, hchanges.trans hmoved⟩
  · refine hlowest (hreached hr₁) (by simp [hlist₁]) (by rw [hre.op]; decide +kernel)
      (by simp [hpin]) ⟨⟨1⟩, by rw [hre.reads]; decide +kernel⟩ fun i hread => ?_
    obtain ⟨k, hk⟩ := huse hread
    simp only [huses₀, List.mem_cons, Use.mk.injEq, List.not_mem_nil, or_false] at hk
    obtain ⟨rfl, -⟩ | ⟨rfl, -⟩ := hk <;> exact ⟨⟨1⟩, by simp [hlist₁], hreached hr₁⟩
  · refine hlowest (hreached hr₁) (by simp [hlist₁]) (by rw [hre.op]; decide +kernel)
      (by simp [hpin]) ⟨⟨4⟩, by rw [hre.reads]; decide +kernel⟩ fun i hread => ?_
    obtain ⟨k, hk⟩ := huse hread
    simp only [huses₁, List.mem_cons, Use.mk.injEq, List.not_mem_nil, or_false] at hk
    obtain ⟨rfl, -⟩ | ⟨rfl, -⟩ := hk
    · exact ⟨⟨2⟩, by simp [hlist₂], hreached hr₂⟩
    · exact ⟨⟨3⟩, by simp [hlist₃], hreached hr₃⟩

/-- **A late run takes instructions down to their readers.** Take a function that was accepted, all
of whose instructions are placed, and no floating instructions of which read each other in a circle.
A run with the late placement is made without a fault and without a rejection, whatever the limit on
its sweeps. Take a floating instruction such that no chain of floating readers leads from it to one
that reads a phi or is read by one. If it stands in a reachable block afterwards and has readers, all
of them in reachable blocks, it stands in the lowest common dominator of the blocks of its
readers. -/
theorem late_run_sinks {f : Func} (hbuilt : f.Built) (hdecl : f.isDeclaration = false)
    (hcheck : f.check = .ok ()) (hsettled : f.Settled) (hacyclic : f.Acyclic) {settings : Settings}
    (hlate : settings.placement = .late) :
    ∃ a p, Analysis.ofFunc f = .ok a ∧ run a settings f = .ok (p, none) ∧
      ∀ {x b}, p.func.Reached b → x ∈ p.func.listOf b → (f.op? x).any floats →
        (∀ {y}, Relation.ReflTransGen f.Feeds x y →
          (∀ d ∈ f.reads y, ¬f.isPhi d) ∧ ∀ i, y ∈ f.reads i → ¬f.isPhi i) →
        (∃ i, x ∈ p.func.reads i) →
        (∀ i, x ∈ p.func.reads i → ∃ home, i ∈ p.func.listOf home ∧ p.func.Reached home) →
        Lowest p.func x b := by
  have hcon := hbuilt.consistent
  obtain ⟨a, ha⟩ := Analysis.exists_ofFunc (targetsExist_of_check hdecl hcheck)
  obtain ⟨q, hq, -, hstill, hblocks⟩ :=
    exists_late_sweep_still hcon hdecl hcheck hsettled hacyclic ha
  obtain ⟨p, hp, hfunc, -⟩ : ∃ p, run a settings f = .ok (p, none) ∧ p.func = q.func ∧
      p.changes = q.changes :=
    run_of_still_sweep (by rw [hlate]; exact hq) (by rw [hlate]; exact hstill)
  rw [← hfunc] at hstill hblocks
  refine ⟨a, p, ha, hp, fun {x b} hb hx hfloats hchains huse hreach => ?_⟩
  obtain ⟨hre, rank, hd⟩ := hblocks (Nat.zero_lt_of_lt (lt_numBlocks_of_mem hx))
  have hpin : ¬p.func.Pinned x := by
    rw [hre.pinned_iff hcon]
    exact not_pinned_of_chains hcon hchains
  exact hstill.lowest rfl hre.housed hd hb hx (by rw [hre.op]; exact hfloats) hpin huse hreach

end SsaOpt.Motion
