import SsaOpt.Proofs.Rest

/-! Code motion makes progress. Every move of a hoisting sweep goes to a block of lower loop depth,
or to one of the same depth and a higher level in the dominator tree; every move of a late sweep
goes to a block of higher level. So no instruction comes back to a block that it left, the number of
moves is bounded, and sweeps that are repeated without a limit come to one that moves nothing. -/

namespace SsaOpt.Motion

open Func Relation

variable {f g k : Func} {a : Analysis} {rank : BlockId → Nat} {x i : InstId} {st : Setting}
  {p q : Progress} {ms : List Move} {m : Move} {b c : BlockId}

/-! ## Sequences of moves -/

/-- The moves lead from `f` to the other function: each finds its instruction in the block it
starts from. -/
inductive Leads (f : Func) : List Move → Func → Prop
  | start : Leads f [] f
  | step {ms : List Move} {m : Move} {g k : Func} : Leads f ms g →
      g.homeOf m.inst = some m.source →
      (∀ i, k.homeOf i = if m.inst = i then some m.dest else g.homeOf i) → Leads f (ms ++ [m]) k

namespace Leads

variable {w : BlockId → Nat}

/-- What relates the two blocks of every move of an instruction relates its first block to its
last. -/
theorem related {R : BlockId → BlockId → Prop} (hrefl : ∀ b, R b b)
    (htrans : ∀ {b c d}, R b c → R c d → R b d) (h : Leads f ms g)
    (hR : ∀ m ∈ ms, m.inst = i → R m.source m.dest) (hb : f.homeOf i = some b)
    (hc : g.homeOf i = some c) : R b c := by
  induction h generalizing c with
  | start =>
    rw [Option.some.inj (hb.symm.trans hc)]
    exact hrefl c
  | @step ms m g k _ hsource hhomes ih =>
    have hms : ∀ m ∈ ms, m.inst = i → R m.source m.dest := fun m hm =>
      hR m (List.mem_append_left _ hm)
    rw [hhomes] at hc
    split at hc
    · next hi =>
      obtain rfl := Option.some.inj hc
      exact htrans (ih hms (hi ▸ hsource)) (hR m (by simp) hi)
    · exact ih hms hc

theorem home_eq (h : Leads f ms g) (hi : ∀ m ∈ ms, m.inst ≠ i) : g.homeOf i = f.homeOf i := by
  induction h with
  | start => rfl
  | step _ _ hhomes ih =>
    rw [hhomes, if_neg (hi _ (by simp))]
    exact ih fun m hm => hi m (List.mem_append_left _ hm)

/-- What no move raises does not rise from the first function to the last. -/
theorem le (h : Leads f ms g) (hw : ∀ m ∈ ms, w m.dest ≤ w m.source) (hb : f.homeOf i = some b)
    (hc : g.homeOf i = some c) : w c ≤ w b :=
  h.related (R := fun b c => w c ≤ w b) (fun _ => Nat.le_refl _) (fun h h' => h'.trans h)
    (fun m hm _ => hw m hm) hb hc

/-- If every move lowers a weight, an instruction that was moved ends lighter than it started. -/
theorem lt (h : Leads f ms g) (hw : ∀ m ∈ ms, w m.dest < w m.source) (hm : m ∈ ms)
    (hb : f.homeOf m.inst = some b) (hc : g.homeOf m.inst = some c) : w c < w b := by
  induction h generalizing c with
  | start => cases hm
  | @step ms n g k hms hsource hhomes ih =>
    have hms' : ∀ m ∈ ms, w m.dest < w m.source := fun m hm => hw m (List.mem_append_left _ hm)
    rw [hhomes] at hc
    split at hc
    · next hinst =>
      obtain rfl := Option.some.inj hc
      have hle := hms.le (fun m hm => (hms' m hm).le) hb (hinst ▸ hsource)
      exact (hw n (by simp)).trans_le hle
    · next hinst =>
      refine ih hms' ((List.mem_append.mp hm).resolve_right fun hn => hinst ?_) hc
      rw [List.mem_singleton.mp hn]

/-- If every move lowers a weight, an instruction is always lighter than in the blocks that it left,
and does not come back to one of them. -/
theorem no_return (h : Leads f ms g) (hw : ∀ m ∈ ms, w m.dest < w m.source) :
    ms.Pairwise (fun m m' => m.inst = m'.inst → m'.dest ≠ m.source) ∧
      ∀ m ∈ ms, ∀ b, g.homeOf m.inst = some b → w b < w m.source := by
  induction h with
  | start => exact ⟨.nil, by simp⟩
  | @step ms m g k _ hsource hhomes ih =>
    obtain ⟨hpairs, hlight⟩ := ih fun m hm => hw m (List.mem_append_left _ hm)
    have hm := hw m (by simp)
    constructor
    · refine List.pairwise_append.mpr ⟨hpairs, List.pairwise_singleton _ m, fun n hn m' hm' => ?_⟩
      obtain rfl := List.mem_singleton.mp hm'
      intro hinst heq
      have := hlight n hn m'.source (hinst ▸ hsource)
      rw [heq] at hm
      omega
    · intro n hn b hb
      rw [hhomes] at hb
      split at hb
      · next hinst =>
        obtain rfl := Option.some.inj hb
        rcases List.mem_append.mp hn with hn | hn
        · exact hm.trans (hlight n hn m.source (hinst ▸ hsource))
        · rwa [List.mem_singleton.mp hn]
      · next hinst =>
        rcases List.mem_append.mp hn with hn | hn
        · exact hlight n hn b hb
        · exact absurd (congrArg Move.inst (List.mem_singleton.mp hn)).symm hinst

theorem isSome_home (h : Leads f ms g) (hi : (g.homeOf i).isSome) : (f.homeOf i).isSome := by
  induction h with
  | start => exact hi
  | step _ hsource hhomes ih =>
    rw [hhomes] at hi
    split at hi
    · next hinst => exact ih (by rw [← hinst, hsource]; rfl)
    · exact ih hi

end Leads

/-- The weights of the homes of some instructions, taken together. -/
def total (w : BlockId → Nat) (f : Func) : List InstId → Nat
  | [] => 0
  | i :: is => (f.homeOf i).elim 0 w + total w f is

theorem total_lt {w : BlockId → Nat} {is : List InstId} (hsource : g.homeOf m.inst = some m.source)
    (hhomes : ∀ i, k.homeOf i = if m.inst = i then some m.dest else g.homeOf i)
    (hw : w m.dest < w m.source) :
    total w k is ≤ total w g is ∧ (m.inst ∈ is → total w k is < total w g is) := by
  induction is with
  | nil => exact ⟨Nat.le_refl _, by simp⟩
  | cons i is ih =>
    unfold total
    by_cases hi : m.inst = i
    · have hk : (k.homeOf i).elim 0 w = w m.dest := by rw [hhomes, if_pos hi]; rfl
      have hg : (g.homeOf i).elim 0 w = w m.source := by rw [← hi, hsource]; rfl
      have := ih.1
      exact ⟨by omega, fun _ => by omega⟩
    · have hk : (k.homeOf i).elim 0 w = (g.homeOf i).elim 0 w := by rw [hhomes, if_neg hi]
      refine ⟨by have := ih.1; omega, fun hmem => ?_⟩
      have := ih.2 ((List.mem_cons.mp hmem).resolve_left hi)
      omega

/-- The first function bounds the number of moves that all lower a weight. -/
theorem Leads.length_le {w : BlockId → Nat} (h : Leads f ms g) (hf : f.Consistent)
    (hw : ∀ m ∈ ms, w m.dest < w m.source) :
    total w g f.placed + ms.length ≤ total w f f.placed := by
  induction h with
  | start => exact Nat.le_refl _
  | @step ms m g k hms hsource hhomes ih =>
    have hle := ih fun m hm => hw m (List.mem_append_left _ hm)
    have hmem : m.inst ∈ f.placed := by
      obtain ⟨b, hb⟩ := Option.isSome_iff_exists.mp (hms.isSome_home (by rw [hsource]; rfl))
      exact mem_placed_iff.mpr ⟨b, (hf.mem_list b _).mpr hb⟩
    have hlt := (total_lt hsource hhomes (hw m (by simp))).2 hmem
    rw [List.length_append, List.length_singleton]
    omega

/-! ## Every move goes forward -/

/-- A hoisting move lowers the loop depth, or keeps it and goes down the dominator tree; a late move
goes to a block that the old one dominates. -/
def Forward (st : Setting) (f : Func) (m : Move) : Prop :=
  match st.policy with
  | .hoist => st.depth m.dest < st.depth m.source ∨ st.depth m.dest = st.depth m.source ∧
      st.analysis.dom.level m.source < st.analysis.dom.level m.dest
  | .late => f.Dom m.source m.dest ∧ m.source ≠ m.dest

theorem Sited.forward {s : Site} (hf : f.Housed) (hd : st.analysis.Describes f rank)
    (hx : Loose f x) (hs : Sited f st.analysis st.depth st.policy x s)
    (hne : s.chosen ≠ s.current) : Forward st f ⟨x, s.current, s.chosen⟩ := by
  have hbest := hs.chosen
  unfold Forward
  cases hpolicy : st.policy with
  | late =>
    rw [hpolicy] at hbest
    obtain hlatest := pure_eq_ok_iff.mp hbest
    exact ⟨hlatest ▸ hs.dom_latest, hne.symm⟩
  | hoist =>
    rw [hpolicy] at hbest
    obtain ⟨trap, -, -, hleast⟩ := bestBlock_hoist_spec hd hs.dom_latest.1 hbest
    -- the current block is one of those considered
    have hceil : f.Dom (ceiling trap s.earliest s.current) s.current := by
      cases trap with
      | true => exact .refl hs.reached
      | false => exact hs.earliest.dom hf hs.reached hs.mem hx.not_isPhi
    obtain ⟨hle, hlow⟩ := hleast s.current hceil hs.dom_latest
    rcases Nat.lt_or_eq_of_le hle with hlt | heq
    · exact .inl hlt
    · exact .inr ⟨heq, hd.level_lt (hlow heq.symm) hne.symm⟩

/-- What every forward move lowers. -/
def Setting.weight (st : Setting) (b : BlockId) : Nat :=
  let height := st.analysis.dom.links.size - st.analysis.dom.level b
  match st.policy with
  | .hoist => st.depth b * (st.analysis.dom.links.size + 1) + height
  | .late => height

theorem length_climb_le (links : Links) (n : Nat) :
    ∀ b, (Dominators.climb links n b).length ≤ n := by
  induction n with
  | zero => exact fun _ => Nat.le_refl _
  | succ n ih =>
    intro b
    rw [Dominators.climb]
    split
    · split
      · exact Nat.zero_le _
      · exact Nat.succ_le_succ (ih _)
    · exact Nat.zero_le _

theorem level_le_size (hd : a.Describes f rank) (b : BlockId) :
    a.dom.level b ≤ a.dom.links.size := by
  by_cases hb : Reaches a.graph.Edge .entry b
  · rw [hd.dom.level_eq hb]
    exact length_climb_le _ _ b
  · rw [hd.dom.level_of_not_reaches hb]
    exact Nat.zero_le _

theorem Forward.weight_lt (hd : st.analysis.Describes f rank) (h : Forward st f m) :
    st.weight m.dest < st.weight m.source := by
  have hlevel := level_le_size hd m.dest
  unfold Forward at h
  unfold Setting.weight
  cases hpolicy : st.policy with
  | late =>
    simp only [hpolicy] at h ⊢
    have := hd.level_lt h.1 h.2
    omega
  | hoist =>
    simp only [hpolicy] at h ⊢
    rcases h with hlt | ⟨heq, hlt⟩
    · have := Nat.mul_le_mul_right (st.analysis.dom.links.size + 1) (Nat.succ_le_of_lt hlt)
      rw [Nat.succ_mul] at this
      omega
    · rw [heq]
      omega

/-! ## Sweeps -/

/-- Sweep after sweep, each without a rejection. -/
def Swept (st : Setting) : Progress → Progress → Prop :=
  ReflTransGen fun p q => sweep st p = .ok (q, none)

/-- The moves reported are those made, and all of them go forward. -/
structure Traced (st : Setting) (f : Func) (p : Progress) : Prop where
  rehomed : Rehomed f p.func
  leads : Leads f p.moves p.func
  count : p.moves.length = p.changes
  forward : ∀ m ∈ p.moves, Forward st f m

theorem Traced.carryOut {d : Decision} (hd : st.analysis.Describes f rank) (hx : Loose f x)
    (hp : Traced st f p) (hdec : st.decision p.func x = .ok d) (h : carryOut p x d = .ok q) :
    Traced st f q := by
  have hre := hp.rehomed
  rcases carryOut_cases h with ⟨-, hfunc, hchanges, hmoves⟩ | ⟨s, rfl, hne, hg, hchanges, hmoves⟩
  · exact ⟨hfunc ▸ hre, hmoves ▸ hfunc ▸ hp.leads, by rw [hmoves, hchanges, hp.count],
      hmoves ▸ hp.forward⟩
  · obtain ⟨hstep, hsource, hhomes⟩ :=
      relocate_rehomed hre.housed (hre.describes hd) (hre.loose_iff.mpr hx) hdec hg
    have hs := sited_of_decision hre.housed (hre.describes hd) (hre.loose_iff.mpr hx) hdec
    have hforward := hs.forward hre.housed (hre.describes hd) (hre.loose_iff.mpr hx) hne
    refine ⟨hre.trans hstep, hmoves ▸ hp.leads.step hsource hhomes, ?_, ?_⟩
    · rw [hmoves, List.length_append, hp.count, hchanges]
      rfl
    · rw [hmoves]
      intro m hm
      rcases List.mem_append.mp hm with hm | hm
      · exact hp.forward m hm
      · rw [List.mem_singleton.mp hm]
        unfold Forward at hforward ⊢
        rwa [hre.dom_eq] at hforward

theorem Traced.sweep {r : Option Rejection} (hd : st.analysis.Describes f rank)
    (hp : Traced st f p) (h : sweep st p = .ok (q, r)) : Traced st f q := by
  rw [sweep_eq] at h
  obtain ⟨is, his, h⟩ := bind_eq_ok_iff.mp h
  have hloose : ∀ x ∈ is, Loose f x := fun x hx =>
    hp.rehomed.loose_iff.mp (loose_of_schedule hp.rehomed.housed.consistent his hx).2
  exact placeAll_keeps (P := Traced st f) (fun x hx hp hdec hq =>
    hp.carryOut hd (hloose x hx) hdec hq) hp h

/-- What all moves going forward amounts to: no instruction comes back, and hoisting takes none into
a deeper loop. -/
structure Descent (st : Setting) (f : Func) (q : Progress) : Prop where
  leads : Leads f q.moves q.func
  count : q.moves.length = q.changes
  forward : ∀ m ∈ q.moves, Forward st f m
  no_return : q.moves.Pairwise fun m m' => m.inst = m'.inst → m'.dest ≠ m.source
  no_deeper : st.policy = .hoist → ∀ {i b c}, i ∈ f.listOf b → i ∈ q.func.listOf c →
    st.depth c ≤ st.depth b

theorem Traced.descent (hf : f.Consistent) (hd : st.analysis.Describes f rank)
    (h : Traced st f q) : Descent st f q := by
  have hweight : ∀ m ∈ q.moves, st.weight m.dest < st.weight m.source := fun m hm =>
    (h.forward m hm).weight_lt hd
  refine ⟨h.leads, h.count, h.forward, (h.leads.no_return hweight).1, ?_⟩
  intro hpolicy i b c hb hc
  refine h.leads.le (fun m hm => ?_) ((hf.mem_list b i).mp hb)
    ((h.rehomed.housed.consistent.mem_list c i).mp hc)
  have hforward := h.forward m hm
  unfold Forward at hforward
  simp only [hpolicy] at hforward
  omega

theorem Swept.moved_traced (hd : st.analysis.Describes f rank) (hf : f.Orderly)
    (h : Swept st { func := f } q) : Moved f q.func ∧ Traced st f q := by
  induction h with
  | refl => exact ⟨.refl hf.valid, .refl hf.valid.housed, .start, rfl, by simp [Progress.moves]⟩
  | tail _ hsweep ih =>
    obtain ⟨hmoved, htraced⟩ := ih
    have hf' := hmoved.amended.orderly hf
    have hd' := hd.congr hmoved.edge hmoved.size
    exact ⟨hmoved.trans (sweep_moved hd' hf'.valid hf'.unread hsweep), htraced.sweep hd hsweep⟩

theorem Swept.exists_sweep (hd : st.analysis.Describes f rank) (hf : f.Orderly)
    (hsettled : f.Settled) (hacyclic : f.Acyclic) (h : Swept st { func := f } q) :
    ∃ r, sweep st q = .ok (r, none) := by
  obtain ⟨hmoved, -⟩ := h.moved_traced hd hf
  exact Motion.exists_sweep (hd.congr hmoved.edge hmoved.size) (hmoved.amended.orderly hf)
    (hmoved.amended.settled hsettled) ((hmoved.amended.acyclic_iff hf).mpr hacyclic)

/-- Without placed instructions no sweep does anything. -/
theorem Swept.eq_of_placed_nil (hnil : p.func.placed = []) (h : Swept st p q) : q = p := by
  induction h with
  | refl => rfl
  | tail _ hsweep ih =>
    subst ih
    exact (Prod.mk.inj (Except.ok.inj (hsweep.symm.trans (sweep_of_placed_nil hnil)))).1

/-- Sweeps that can always go on come to one that moves nothing, or make any number of moves. -/
theorem exists_swept (hgo : ∀ {q}, Swept st p q → ∃ r, sweep st q = .ok (r, none)) (n : Nat) :
    (∃ q r, Swept st p q ∧ sweep st q = .ok (r, none) ∧ r.changes = q.changes ∧
      r.func = q.func) ∨ ∃ q, Swept st p q ∧ n ≤ q.changes := by
  induction n with
  | zero => exact .inr ⟨p, .refl, Nat.zero_le _⟩
  | succ n ih =>
    rcases ih with hdone | ⟨q, hq, hn⟩
    · exact .inl hdone
    · obtain ⟨r, hr⟩ := hgo hq
      by_cases hsame : r.changes = q.changes
      · exact .inl ⟨q, r, hq, hr, hsame, (still_of_sweep hr hsame).1⟩
      · refine .inr ⟨r, hq.tail hr, ?_⟩
        rw [sweep_eq] at hr
        obtain ⟨is, -, hr⟩ := bind_eq_ok_iff.mp hr
        have := changes_le_of_placeAll hr
        omega

/-- **Code motion makes progress and comes to rest.** Take a function that was accepted, with
operands as they are documented and all its instructions placed, in which no placed instruction
reads a terminator and no floating instructions read each other in a circle. After any number of
sweeps, the moves reported are those made. Each hoisting move lowers the loop depth, or keeps it and
goes to a higher level of the dominator tree; each late move goes to another block that the old one
dominates. No instruction comes back to a block that it left, and under hoisting none ends in a
deeper loop than it started in. A next sweep always succeeds, and some number of sweeps leads to one
that moves nothing. -/
theorem sweeps_descend_to_rest {f : Func} (hbuilt : f.Built) (hdecl : f.isDeclaration = false)
    (hcheck : f.check = .ok ()) (hlayout : f.LaidOut) (hsettled : f.Settled)
    (hacyclic : f.Acyclic) (hterm : ∀ b, ∀ i ∈ f.listOf b, ∀ d ∈ f.reads i, ¬f.ends d)
    {a : Analysis} (ha : Analysis.ofFunc f = .ok a) (policy : Placement) :
    (∀ {q}, Swept ⟨a, loopDepths a, policy⟩ { func := f } q →
      Descent ⟨a, loopDepths a, policy⟩ f q ∧
        ∃ r, sweep ⟨a, loopDepths a, policy⟩ q = .ok (r, none)) ∧
      ∃ q r, Swept ⟨a, loopDepths a, policy⟩ { func := f } q ∧
        sweep ⟨a, loopDepths a, policy⟩ q = .ok (r, none) ∧ r.changes = q.changes ∧
        r.func = q.func := by
  by_cases h₀ : 0 < f.numBlocks
  · obtain ⟨rank, hd⟩ := Analysis.describes ha h₀
    have hf := hbuilt.orderly hdecl hcheck h₀ hlayout hterm
    have hcon := hf.valid.consistent
    have hgo : ∀ {q}, Swept ⟨a, loopDepths a, policy⟩ { func := f } q →
        ∃ r, sweep ⟨a, loopDepths a, policy⟩ q = .ok (r, none) := fun hq =>
      hq.exists_sweep hd hf hsettled hacyclic
    refine ⟨fun hq => ⟨(hq.moved_traced hd hf).2.descent hcon hd, hgo hq⟩, ?_⟩
    rcases exists_swept hgo (total (Setting.weight ⟨a, loopDepths a, policy⟩) f f.placed + 1)
      with hdone | ⟨q, hq, hmany⟩
    · exact hdone
    · -- there are not that many moves to make
      have htraced := (hq.moved_traced hd hf).2
      have hle := htraced.leads.length_le hcon fun m hm => (htraced.forward m hm).weight_lt hd
      rw [htraced.count] at hle
      omega
  · have hnil := placed_eq_nil h₀
    refine ⟨fun hq => ?_, _, _, .refl, sweep_of_placed_nil hnil, rfl, rfl⟩
    obtain rfl := hq.eq_of_placed_nil hnil
    refine ⟨⟨.start, rfl, by simp [Progress.moves], .nil, fun _ {i b c} hb hc => ?_⟩, _,
      sweep_of_placed_nil hnil⟩
    have := mem_placed_iff.mpr ⟨b, hb⟩
    rw [hnil] at this
    cases this

/-- A sum that is needed in a loop only, by a product that does not change in it. -/
def driftingSum : Func := .made [.i32, .i1] [
  .block, .block, .block, .block,
  .switch ⟨0⟩, .binary .add .i32 (.arg 0) (.lit (.i32 1)), .branch (.arg 1) ⟨1⟩ ⟨3⟩,
  .switch ⟨1⟩, .jump ⟨2⟩,
  .switch ⟨2⟩, .binary .mul .i32 (.inst ⟨0⟩) (.inst ⟨0⟩), .store (.inst ⟨3⟩) (.global 0),
  .branch (.arg 1) ⟨2⟩ ⟨3⟩, .switch ⟨3⟩, .ret none]

/-- The product leaves the loop for the block before it, and the sum comes down to it. -/
theorem sweeps_descend_to_rest_driftingSum : ∃ a p q r, Analysis.ofFunc driftingSum = .ok a ∧
    sweep ⟨a, loopDepths a, .hoist⟩ { func := driftingSum } = .ok (p, none) ∧
    p.moves = [⟨⟨3⟩, ⟨2⟩, ⟨1⟩⟩, ⟨⟨0⟩, ⟨0⟩, ⟨1⟩⟩] ∧
    Descent ⟨a, loopDepths a, .hoist⟩ driftingSum p ∧
    Swept ⟨a, loopDepths a, .hoist⟩ { func := driftingSum } q ∧
    sweep ⟨a, loopDepths a, .hoist⟩ q = .ok (r, none) ∧ r.changes = q.changes ∧
    r.func = q.func := by
  obtain ⟨a, ha, h⟩ := exists_ok_of_any (x := Analysis.ofFunc driftingSum)
    (q := fun a => (sweep ⟨a, loopDepths a, .hoist⟩ { func := driftingSum }).toOption.any
      fun r : Progress × Option Rejection => r.2 = none &&
        r.1.moves = [⟨⟨3⟩, ⟨2⟩, ⟨1⟩⟩, ⟨⟨0⟩, ⟨0⟩, ⟨1⟩⟩]) (by decide +kernel)
  obtain ⟨⟨p, r⟩, hp, h⟩ := exists_ok_of_any h
  simp only [Bool.and_eq_true, decide_eq_true_eq] at h
  obtain ⟨rfl, hmoves⟩ := h
  have hacyclic : driftingSum.Acyclic := acyclic_of_lt (by decide +kernel)
  have hterm : ∀ b, ∀ i ∈ driftingSum.listOf b, ∀ d ∈ driftingSum.reads i, ¬driftingSum.ends d :=
    forall_placed (by decide +kernel)
  obtain ⟨hdescent, q, r, hrest⟩ := sweeps_descend_to_rest (built_made _ _) (by decide +kernel)
    (by decide +kernel) (by decide +kernel) (by decide +kernel) hacyclic hterm ha .hoist
  exact ⟨a, p, q, r, ha, hp, hmoves, (hdescent (.single hp)).1, hrest⟩

end SsaOpt.Motion
