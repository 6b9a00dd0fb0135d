import SsaOpt.Proofs.Rehoming

/-! When code motion is done. An instruction rests if the decision on it leaves it where it is, and
a function rests if all do that a sweep would place. A sweep that moves nothing has found the
function at rest, and leaves it so; under the late placement every sweep leaves the function at
rest. -/

namespace SsaOpt.Motion

open Func

variable {f g : Func} {a : Analysis} {rank : BlockId → Nat} {x : InstId} {st : Setting}
  {p q : Progress}

/-- The decision on the instruction is made and leaves it where it is. -/
def Resting (st : Setting) (f : Func) (x : InstId) : Prop :=
  ∃ d, st.decision f x = .ok d ∧ d.Stays

/-- The instructions that a sweep would place can be put in order, and all of them rest. -/
def Still (st : Setting) (f : Func) : Prop :=
  ∃ is, schedule f = .ok is ∧ ∀ x ∈ is, Resting st f x

/-! ## Sweeps that move nothing -/

theorem exists_carryOut_of_stays {d : Decision} (p : Progress) (x : InstId) (hd : d.Stays) :
    ∃ q, carryOut p x d = .ok q ∧ q.func = p.func ∧ q.changes = p.changes := by
  cases d with
  | leave => exact ⟨_, rfl, rfl, rfl⟩
  | noLegalBlock current => exact ⟨_, rfl, rfl, rfl⟩
  | site s => exact ⟨_, if_pos (hd s rfl), rfl, rfl⟩

theorem placeAll_of_resting {is : List InstId} : ∀ {p : Progress},
    (∀ x ∈ is, Resting st p.func x) →
      ∃ q, placeAll st is p = .ok (q, none) ∧ q.func = p.func ∧ q.changes = p.changes := by
  induction is with
  | nil => exact fun {p} _ => ⟨p, rfl, rfl, rfl⟩
  | cons x is ih =>
    intro p h
    obtain ⟨d, hd, hstays⟩ := h x List.mem_cons_self
    obtain ⟨p', hp', hfunc, hchanges⟩ := exists_carryOut_of_stays p x hstays
    obtain ⟨q, hq, hqfunc, hqchanges⟩ := ih (p := p') fun y hy =>
      hfunc.symm ▸ h y (List.mem_cons_of_mem _ hy)
    exact ⟨q, (placeAll_cons_of_ok hd hp' is).trans hq, hqfunc.trans hfunc,
      hqchanges.trans hchanges⟩

theorem changes_le_of_placeAll {is : List InstId} {r : Option Rejection}
    (h : placeAll st is p = .ok (q, r)) : p.changes ≤ q.changes := by
  refine placeAll_keeps (P := fun q => p.changes ≤ q.changes) (fun x _ hle _ hq => ?_)
    (Nat.le_refl _) h
  rcases carryOut_cases hq with ⟨-, -, hchanges, -⟩ | ⟨s, -, -, -, hchanges, -⟩ <;> omega

theorem resting_of_placeAll {is : List InstId} : ∀ {p : Progress},
    placeAll st is p = .ok (q, none) → q.changes = p.changes →
      q.func = p.func ∧ ∀ x ∈ is, Resting st p.func x := by
  induction is with
  | nil =>
    intro p h _
    obtain ⟨rfl, -⟩ := Prod.mk.inj (pure_eq_ok_iff.mp h)
    exact ⟨rfl, by simp⟩
  | cons x is ih =>
    intro p h hsame
    rcases placeAll_cons h with ⟨-, e, he⟩ | ⟨d, p', hd, hp', h⟩
    · cases he
    · have hle := changes_le_of_placeAll h
      rcases carryOut_cases hp' with ⟨hstays, hfunc, hchanges, -⟩ | ⟨s, -, -, -, hchanges, -⟩
      · obtain ⟨hq, hrest⟩ := ih h (hsame.trans hchanges.symm)
        rw [hfunc] at hq hrest
        exact ⟨hq, List.forall_mem_cons.mpr ⟨⟨d, hd, hstays⟩, hrest⟩⟩
      · omega

theorem sweep_of_still (h : Still st p.func) :
    ∃ q, sweep st p = .ok (q, none) ∧ q.func = p.func ∧ q.changes = p.changes := by
  obtain ⟨is, his, hrest⟩ := h
  obtain ⟨q, hq, hsame⟩ := placeAll_of_resting hrest
  rw [sweep_eq]
  exact ⟨q, bind_eq_ok_iff.mpr ⟨is, his, hq⟩, hsame⟩

theorem still_of_sweep (h : sweep st p = .ok (q, none)) (hsame : q.changes = p.changes) :
    q.func = p.func ∧ Still st p.func := by
  rw [sweep_eq] at h
  obtain ⟨is, his, h⟩ := bind_eq_ok_iff.mp h
  obtain ⟨hfunc, hrest⟩ := resting_of_placeAll h hsame
  exact ⟨hfunc, is, his, hrest⟩

theorem sweeps_of_still {limit : Nat} (h : Still st p.func) (n : Nat) :
    ∃ q, sweeps st limit n p = .ok (q, none) ∧ q.func = p.func ∧ q.changes = p.changes := by
  cases n with
  | zero => exact ⟨_, rfl, rfl, rfl⟩
  | succ n =>
    obtain ⟨q, hq, hfunc, hchanges⟩ := sweep_of_still h
    exact ⟨q, bind_eq_ok_iff.mpr ⟨_, hq, if_pos (by simpa using hchanges)⟩, hfunc, hchanges⟩

theorem run_of_still {settings : Settings}
    (h : Still ⟨a, loopDepths a, settings.placement⟩ f) :
    ∃ q, run a settings f = .ok (q, none) ∧ q.changes = 0 ∧ q.func = f := by
  obtain ⟨q, hq, hfunc, hchanges⟩ := sweeps_of_still (p := { func := f }) h _
  exact ⟨q, hq, hchanges, hfunc⟩

theorem still_of_placed_nil (h : f.placed = []) : Still st f :=
  ⟨[], schedule_of_placed_nil h, by simp⟩

/-! ## The late placement -/

/-- The instruction stands in the nearest common dominator of its uses, unless control never comes
to it or to one of them. -/
def Sunk (a : Analysis) (f : Func) (x : InstId) (b : BlockId) : Prop :=
  f.Reached b → ∃ uses, reachableSites a.dom (f.useBlock x) (f.usesOf x) = .ok uses ∧
    ∀ blocks, uses = some blocks → latestBlock a.dom b blocks = b

theorem decision_of_not_reached {depth : BlockId → Nat} {policy : Placement} {b : BlockId}
    (hf : f.Consistent) (hd : a.Describes f rank) (hx : x ∈ f.listOf b) (hb : ¬f.Reached b) :
    decision a depth policy f x = .ok .leave := by
  obtain ⟨z, hz⟩ := hf.exists_inst hx
  have hhome : z.home = some b := by rw [← homeOf_of_inst hz, (hf.mem_list b x).mp hx]
  have hreach : a.dom.reachable b = false := by
    rw [Bool.eq_false_iff]
    exact fun h => hb (hd.reachable_iff.mp h)
  unfold decision
  simp only [lift_eq_ok_iff.mpr hz, hhome, head?_rpo hd, hreach, bind, Except.bind]
  rfl

theorem resting_iff_sunk {b : BlockId} (hf : f.Housed) (hd : st.analysis.Describes f rank)
    (hlate : st.policy = .late) (hx : x ∈ f.listOf b) (hloose : Loose f x) :
    Resting st f x ↔ Sunk st.analysis f x b := by
  unfold Resting Setting.decision Sunk
  rw [hlate]
  by_cases hb : f.Reached b
  · obtain ⟨e, -, heq⟩ := decision_of_reached hf hd hb hx hloose st.depth .late
    rw [heq]
    simp only [hb, forall_const]
    constructor
    · rintro ⟨d, hdec, hstays⟩
      obtain ⟨uses, huses, hdec⟩ := bind_eq_ok_iff.mp hdec
      refine ⟨uses, huses, ?_⟩
      rintro blocks rfl
      exact hstays _ (pure_eq_ok_iff.mp hdec).symm
    · rintro ⟨uses, huses, hmeet⟩
      rw [huses]
      cases uses with
      | none => exact ⟨.leave, rfl, by simp [Decision.Stays]⟩
      | some blocks => exact ⟨_, rfl, by simpa [Decision.Stays] using hmeet blocks rfl⟩
  · rw [decision_of_not_reached hf.consistent hd hx hb]
    simp [hb, Decision.Stays]

theorem reachableSites_mono {α : Type} {d : Dominators} {site site' : α → Except Halt BlockId}
    {xs : List α} {r : Option (List BlockId)} (h : ∀ x ∈ xs, ∀ b, site x = .ok b → site' x = .ok b)
    (hr : reachableSites d site xs = .ok r) : reachableSites d site' xs = .ok r := by
  induction xs generalizing r with
  | nil => exact hr
  | cons x xs ih =>
    obtain ⟨b, hb, hr⟩ := bind_eq_ok_iff.mp hr
    obtain ⟨u, hu, hr⟩ := bind_eq_ok_iff.mp hr
    refine bind_eq_ok_iff.mpr ⟨b, h x List.mem_cons_self b hb, bind_eq_ok_iff.mpr ⟨u, hu, ?_⟩⟩
    split at hr
    · next hreach =>
      obtain ⟨rest, hrest, hr⟩ := bind_eq_ok_iff.mp hr
      rw [if_pos hreach]
      exact bind_eq_ok_iff.mpr
        ⟨rest, ih (fun y hy => h y (List.mem_cons_of_mem _ hy)) hrest, hr⟩
    · next hreach =>
      rw [if_neg hreach]
      exact hr

/-- The uses are found in the same blocks if no reader moves. -/
theorem useBlocks_of_rehomed {uses : Option (List BlockId)} (hf : f.Consistent)
    (hg : Rehomed f g) (hloose : Loose f x)
    (hreaders : ∀ i, x ∈ f.reads i → g.homeOf i = f.homeOf i)
    (h : reachableSites a.dom (f.useBlock x) (f.usesOf x) = .ok uses) :
    reachableSites a.dom (g.useBlock x) (g.usesOf x) = .ok uses := by
  rw [hg.uses]
  refine reachableSites_mono (fun u hu b huse => ?_) h
  have hread : x ∈ f.reads u.user := mem_reads_iff.mpr ⟨u.index, (hf.mem_uses x u).mp hu⟩
  have hphi := hloose.not_phi hread
  refine useBlock_of_mem hg.housed.consistent ?_ (by rwa [hg.isPhi_eq])
  rw [hg.housed.consistent.mem_list, hreaders _ hread]
  exact useBlock_spec hphi huse

/-- A decision that is carried out brings the instruction to rest, and does not disturb those that
the instruction does not read. -/
theorem carryOut_rests {d : Decision} (hlate : st.policy = .late) (hf : p.func.Housed)
    (hd : st.analysis.Describes p.func rank) (hx : Loose p.func x) (hself : x ∉ p.func.reads x)
    (hdec : st.decision p.func x = .ok d) (h : carryOut p x d = .ok q) :
    Resting st q.func x ∧ ∀ y, Loose p.func y → y ∈ p.func.placed → y ≠ x →
      y ∉ p.func.reads x → Resting st p.func y → Resting st q.func y := by
  rcases carryOut_cases h with ⟨hstays, heq, -⟩ | ⟨s, rfl, hne, hg, -⟩
  · rw [heq]
    exact ⟨⟨d, hdec, hstays⟩, fun y _ _ _ _ hy => hy⟩
  · obtain ⟨hre, -, hhomes⟩ := relocate_rehomed hf hd hx hdec hg
    have hs := sited_of_decision hf hd hx hdec
    have hreaders : ∀ {y}, y ∉ p.func.reads x → ∀ i, y ∈ p.func.reads i →
        q.func.homeOf i = p.func.homeOf i := by
      intro y hy i hi
      rw [hhomes, if_neg]
      rintro rfl
      exact hy hi
    constructor
    · obtain ⟨blocks, huses, hlatest⟩ := hs.uses
      have hchosen : s.chosen = latestBlock st.analysis.dom s.current blocks := by
        have hbest := hs.chosen
        rw [hlate] at hbest
        rw [← hlatest, pure_eq_ok_iff.mp hbest]
      have hnew := (hre.housed.consistent.mem_list _ _).mpr ((hhomes x).trans (if_pos rfl))
      rw [resting_iff_sunk hre.housed (hre.describes hd) hlate hnew (hre.loose_iff.mpr hx)]
      refine fun _ => ⟨_, useBlocks_of_rehomed hf.consistent hre hx (hreaders hself) huses, ?_⟩
      intro blocks' hblocks
      obtain rfl := Option.some.inj hblocks
      rw [hchosen]
      -- without uses it would not have moved
      cases blocks with
      | nil => exact absurd hchosen hne
      | cons b rest => rfl
    · intro y hy hplaced hyx hread hrest
      obtain ⟨b, hb⟩ := mem_placed_iff.mp hplaced
      have hb' : y ∈ q.func.listOf b := by
        rw [hre.housed.consistent.mem_list, hhomes, if_neg hyx.symm]
        exact (hf.consistent.mem_list b y).mp hb
      rw [resting_iff_sunk hre.housed (hre.describes hd) hlate hb' (hre.loose_iff.mpr hy)]
      intro hr
      obtain ⟨uses, huses, hmeet⟩ := (resting_iff_sunk hf hd hlate hb hy).mp hrest
        (hre.reached_eq ▸ hr)
      exact ⟨uses, useBlocks_of_rehomed hf.consistent hre hy (hreaders hread) huses, hmeet⟩

/-- What was placed before an instruction, or is the instruction, is not read by it. -/
theorem Scheduled.not_feeds {is done rest : List InstId} {y : InstId} (h : Scheduled f is)
    (hsplit : is = done ++ x :: rest) (hy : y ∈ done ++ [x]) : ¬f.Feeds y x := by
  intro hfeeds
  obtain ⟨pre, post, hsplit'⟩ := List.append_of_mem hy
  have hpre := h.readersFirst (by rw [hsplit, List.append_cons, hsplit']; simp :
    is = pre ++ y :: (post ++ rest)) hfeeds
  have hpost : x ∈ y :: post := by
    have hlast : (pre ++ y :: post).getLast? = some x := by
      rw [← hsplit']
      simp
    exact List.mem_of_getLast? (by simpa [List.getLast?_append] using hlast)
  have hnodup := h.nodup
  rw [hsplit, List.append_cons, hsplit'] at hnodup
  exact List.disjoint_of_nodup_append (List.nodup_append.mp hnodup).1 hpre hpost

/-- Consumers come first, so nothing that was brought to rest is disturbed later in the sweep. -/
theorem resting_of_late_placeAll {is : List InstId} (hlate : st.policy = .late) (hf : f.Consistent)
    (hd : st.analysis.Describes f rank) (his : schedule f = .ok is) (rest : List InstId) :
    ∀ (done : List InstId) {p : Progress}, is = done ++ rest → Rehomed f p.func →
      (∀ x ∈ done, Resting st p.func x) → placeAll st rest p = .ok (q, none) →
      ∀ x ∈ is, Resting st q.func x := by
  have hsched := schedule_spec hf his
  induction rest with
  | nil =>
    intro done p hsplit _ hdone h
    obtain ⟨rfl, -⟩ := Prod.mk.inj (pure_eq_ok_iff.mp h)
    rw [hsplit, List.append_nil]
    exact hdone
  | cons x rest ih =>
    intro done p hsplit hp hdone h
    rcases placeAll_cons h with ⟨-, e, he⟩ | ⟨d, p', hdec, hp', h⟩
    · cases he
    · have hloose : ∀ {y}, y ∈ is → y ∈ f.placed ∧ Loose f y := fun hy =>
        loose_of_schedule hf his hy
      have hmem : x ∈ is := by simp [hsplit]
      have hfloat : ∀ {y}, y ∈ is → f.Floating y := fun hy => (hsched.mem_iff.mp hy).1
      have hreads : ∀ y ∈ done ++ [x], y ∉ p.func.reads x := by
        intro y hy hread
        have hyis : y ∈ is := by
          rw [hsplit, List.append_cons]
          exact List.mem_append_left _ hy
        exact hsched.not_feeds hsplit hy ⟨hfloat hyis, hfloat hmem, hp.reads x ▸ hread⟩
      have hx := hp.loose_iff.mpr (hloose hmem).2
      obtain ⟨hrest, hothers⟩ := carryOut_rests hlate hp.housed (hp.describes hd) hx
        (hreads x (by simp)) hdec hp'
      refine ih (done ++ [x]) (by rw [hsplit, List.append_cons])
        (hp.trans (carryOut_rehomed hp.housed (hp.describes hd) hx hdec hp')) ?_ h
      intro y hy
      by_cases hyx : y = x
      · exact hyx ▸ hrest
      · have hydone : y ∈ done := by simpa [hyx] using hy
        have hyis : y ∈ is := by simp [hsplit, hydone]
        obtain ⟨hplaced, hy'⟩ := hloose hyis
        exact hothers y (hp.loose_iff.mpr hy') (hp.placed.mpr hplaced) hyx (hreads y hy)
          (hdone y hydone)

/-- One sweep under the late placement leaves the function at rest. -/
theorem still_of_late_sweep (hlate : st.policy = .late) (hf : p.func.Housed)
    (hd : st.analysis.Describes p.func rank) (h : sweep st p = .ok (q, none)) :
    Still st q.func := by
  have hre := sweep_rehomed hd hf h
  rw [sweep_eq] at h
  obtain ⟨is, his, h⟩ := bind_eq_ok_iff.mp h
  have hrest := resting_of_late_placeAll hlate hf.consistent hd his is [] rfl (.refl hf) (by simp) h
  -- the next sweep takes the same instructions, perhaps in another order
  obtain ⟨js, hjs⟩ := (exists_schedule_iff hre.housed.consistent).mpr
    (hre.acyclic_iff.mpr ((exists_schedule_iff hf.consistent).mp ⟨is, his⟩))
  refine ⟨js, hjs, fun x hx => hrest x ?_⟩
  rw [(schedule_spec hre.housed.consistent hjs).mem_iff, hre.floating_iff,
    hre.pinned_iff hf.consistent] at hx
  exact (schedule_spec hf.consistent his).mem_iff.mpr hx

/-! ## Runs -/

/-- Repeated sweeps leave the function at rest, except where the limit on their number ends them
and the placement is not the late one. -/
theorem still_of_sweeps {limit : Nat} (hd : st.analysis.Describes f rank) (n : Nat) :
    ∀ {p : Progress}, Rehomed f p.func → (n = 0 → st.policy = .late → Still st p.func) →
      sweeps st limit n p = .ok (q, none) →
      (st.policy = .late ∨ ∀ name k, Remark.sweepLimit name k ∉ q.remarks) → Still st q.func := by
  induction n with
  | zero =>
    intro p _ hstart h hend
    obtain ⟨rfl, -⟩ := Prod.mk.inj (pure_eq_ok_iff.mp h)
    rcases hend with hlate | hnone
    · exact hstart rfl hlate
    · exact absurd (by simp [Progress.note]) (hnone p.func.name limit)
  | succ n ih =>
    intro p hp _ h hend
    obtain ⟨⟨q', r⟩, hq', h⟩ := bind_eq_ok_iff.mp h
    simp only at h
    split at h
    · next hdone =>
      obtain ⟨rfl, rfl⟩ := Prod.mk.inj (pure_eq_ok_iff.mp h)
      obtain ⟨hfunc, hstill⟩ := still_of_sweep hq' (by simpa using hdone)
      rwa [hfunc]
    · next hmore =>
      obtain rfl : r = none := by
        cases r with
        | none => rfl
        | some e => simp at hmore
      refine ih (hp.trans (sweep_rehomed (hp.describes hd) hp.housed hq')) ?_ h hend
      exact fun _ hlate => still_of_late_sweep hlate hp.housed (hp.describes hd) hq'

/-- **A second run of code motion moves nothing**, unless the first was cut short. Take a function
that was accepted, and a run of code motion that ends without a rejection. If the placement is the
late one, or if the run did not come to the limit on its sweeps, the function that it leaves has the
analysis that the run started with, and another run with the same settings ends without a rejection,
counts no change and leaves the function as it is. -/
theorem run_again_moves_nothing {f : Func} (hbuilt : f.Built) (hdecl : f.isDeclaration = false)
    (hcheck : f.check = .ok ()) {a : Analysis} (ha : Analysis.ofFunc f = .ok a)
    {settings : Settings} {p : Progress} (hrun : run a settings f = .ok (p, none))
    (hend : settings.placement = .late ∨ ∀ name n, Remark.sweepLimit name n ∉ p.remarks) :
    Analysis.ofFunc p.func = .ok a ∧
      ∃ q, run a settings p.func = .ok (q, none) ∧ q.changes = 0 ∧ q.func = p.func := by
  by_cases h₀ : 0 < f.numBlocks
  · obtain ⟨rank, hd⟩ := Analysis.describes ha h₀
    have hf := (hbuilt.consistent.valid hdecl h₀ hcheck).housed
    have hstart : max 1 settings.maxSweeps ≠ 0 := by omega
    refine ⟨(sweeps_rehomed hd (.refl hf) hrun).analysis ha, run_of_still ?_⟩
    exact still_of_sweeps hd _ (.refl hf) (fun h => absurd h hstart) hrun hend
  · rw [run_of_placed_nil (placed_eq_nil h₀) hrun]
    exact ⟨ha, run_of_still (still_of_placed_nil (placed_eq_nil h₀))⟩

/-- Nine sums in a loop, each of which adds to the one before; none of them depends on the loop. -/
def addChain : Func := .made [.i32, .i1] ([
  .block, .block, .block, .switch ⟨0⟩, .jump ⟨1⟩,
  .switch ⟨1⟩, .binary .add .i32 (.arg 0) (.lit (.i32 1))] ++
  [1, 2, 3, 4, 5, 6, 7, 8].map (fun n => .binary .add .i32 (.inst ⟨n⟩) (.lit (.i32 1))) ++ [
  .store (.inst ⟨9⟩) (.global 0), .branch (.arg 1) ⟨1⟩ ⟨2⟩, .switch ⟨2⟩, .ret none])

/-- Two sums before a branch, which only one side of it needs. -/
def earlySums : Func := .made [.i32, .i1] [
  .block, .block, .block,
  .switch ⟨0⟩, .binary .add .i32 (.arg 0) (.lit (.i32 1)),
  .binary .add .i32 (.inst ⟨0⟩) (.inst ⟨0⟩), .branch (.arg 1) ⟨1⟩ ⟨2⟩,
  .switch ⟨1⟩, .store (.inst ⟨1⟩) (.global 0), .jump ⟨2⟩, .switch ⟨2⟩, .ret none]

/-- With ten sweeps the whole chain leaves the loop; one late sweep takes both sums to their use,
although it is also the limit. -/
theorem run_again_moves_nothing_chains :
    (∃ a p q, Analysis.ofFunc addChain = .ok a ∧
      run a { maxSweeps := 10 } addChain = .ok (p, none) ∧ p.changes = 9 ∧
      run a { maxSweeps := 10 } p.func = .ok (q, none) ∧ q.changes = 0 ∧ q.func = p.func) ∧
    ∃ a p q, Analysis.ofFunc earlySums = .ok a ∧
      run a { placement := .late, maxSweeps := 1 } earlySums = .ok (p, none) ∧ p.changes = 2 ∧
      run a { placement := .late, maxSweeps := 1 } p.func = .ok (q, none) ∧ q.changes = 0 ∧
      q.func = p.func := by
  constructor
  · obtain ⟨a, ha, h⟩ := exists_ok_of_any (x := Analysis.ofFunc addChain)
      (q := fun a => (run a { maxSweeps := 10 } addChain).toOption.any
        fun r : Progress × Option Rejection => r.2 = none && r.1.changes = 9 &&
          r.1.remarks.toList.all (·.level ≠ .warn)) (by decide +kernel)
    obtain ⟨⟨p, r⟩, hrun, h⟩ := exists_ok_of_any h
    simp only [Bool.and_eq_true, decide_eq_true_eq, List.all_eq_true] at h
    obtain ⟨⟨rfl, hchanges⟩, hquiet⟩ := h
    have hend : ∀ name n, Remark.sweepLimit name n ∉ p.remarks := by
      intro name n hmem
      exact hquiet _ (Array.mem_toList_iff.mpr hmem) rfl
    obtain ⟨-, q, hagain⟩ := run_again_moves_nothing (built_made _ _) (by decide +kernel)
      (by decide +kernel) ha hrun (.inr hend)
    exact ⟨a, p, q, ha, hrun, hchanges, hagain⟩
  · obtain ⟨a, ha, h⟩ := exists_ok_of_any (x := Analysis.ofFunc earlySums)
      (q := fun a => (run a { placement := .late, maxSweeps := 1 } earlySums).toOption.any
        fun r : Progress × Option Rejection => r.2 = none && r.1.changes = 2) (by decide +kernel)
    obtain ⟨⟨p, r⟩, hrun, h⟩ := exists_ok_of_any h
    simp only [Bool.and_eq_true, decide_eq_true_eq] at h
    obtain ⟨rfl, hchanges⟩ := h
    obtain ⟨-, q, hagain⟩ := run_again_moves_nothing (built_made _ _) (by decide +kernel)
      (by decide +kernel) ha hrun (.inl rfl)
    exact ⟨a, p, q, ha, hrun, hchanges, hagain⟩

/-- Eight sweeps, the default limit, take eight of the nine sums out of the loop. A second run takes
the ninth. -/
theorem addChain_moves_again : ∃ a p q, addChain.Built ∧ addChain.isDeclaration = false ∧
    addChain.check = .ok () ∧ addChain.LaidOut ∧ addChain.Settled ∧
    Analysis.ofFunc addChain = .ok a ∧ run a {} addChain = .ok (p, none) ∧ p.changes = 8 ∧
    Analysis.ofFunc p.func = .ok a ∧ run a {} p.func = .ok (q, none) ∧ q.changes = 1 ∧
    q.func ≠ p.func := by
  obtain ⟨a, ha, h⟩ := exists_ok_of_any (x := Analysis.ofFunc addChain)
    (q := fun a => (run a {} addChain).toOption.any
      fun r : Progress × Option Rejection => r.2 = none && r.1.changes = 8 &&
        Analysis.ofFunc r.1.func = .ok a && (run a {} r.1.func).toOption.any
          fun r' : Progress × Option Rejection => r'.2 = none && r'.1.changes = 1 &&
            r'.1.func.homeOf ⟨9⟩ ≠ r.1.func.homeOf ⟨9⟩) (by decide +kernel)
  obtain ⟨⟨p, r⟩, hrun, h⟩ := exists_ok_of_any h
  simp only [Bool.and_eq_true, decide_eq_true_eq] at h
  obtain ⟨⟨⟨rfl, hchanges⟩, ha'⟩, h⟩ := h
  obtain ⟨⟨q, r⟩, hrun', h⟩ := exists_ok_of_any h
  simp only [Bool.and_eq_true, decide_eq_true_eq] at h
  obtain ⟨⟨rfl, hchanges'⟩, hmoved⟩ := h
  refine ⟨a, p, q, built_made _ _, by decide +kernel, by decide +kernel, by decide +kernel,
    by decide +kernel, ha, hrun, hchanges, ha', hrun', hchanges', fun heq => hmoved ?_⟩
  rw [heq]

end SsaOpt.Motion
