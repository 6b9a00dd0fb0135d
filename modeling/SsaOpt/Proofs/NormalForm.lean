import SsaOpt.Proofs.Layers
import SsaOpt.Proofs.Leaders

/-! Value numbering reaches its normal form in one run.

In each block the table binds an expression to its leader. So an instruction that is kept is the
first one with its expression, or the first one stands in another block and depends on a phi.
Deletions further on do not change that, since they change nothing that was seen. And where it holds
of all instructions, nothing can be deleted. -/

namespace SsaOpt.Values

open Func

variable {f g g' : Func} {a : Analysis} {rank : BlockId → Nat} {s s' : State} {x y e i : InstId}
  {b c : BlockId} {done path : List BlockId} {l pre front rest seen : List InstId}
  {k : Expression} {outer : BlockId → Prop} {visibility : Visibility}

/-! ## Normal forms -/

/-- The blocks, other than `b`, whose instructions are seen in `b`. -/
def Outer (visibility : Visibility) (f : Func) (b c : BlockId) : Prop :=
  visibility = .domTree ∧ c ≠ b ∧ f.Dom c b

/-- Where an instruction after `pre` repeats a pure expression of `pre` or of an outer block, an
instruction of an outer block has the expression and depends on a phi. -/
def Irreducible (g : Func) (outer : BlockId → Prop) (pre : List InstId) (y : InstId) : Prop :=
  ∀ x k, k.isPure → keyed g k y → keyed g k x → (x ∈ pre ∨ ∃ c, outer c ∧ x ∈ g.listOf c) →
    ∃ c e, outer c ∧ e ∈ g.listOf c ∧ keyed g k e ∧ g.PhiBelow e

/-- Each instruction of the list is irreducible after those before it. -/
def Reduced (g : Func) (outer : BlockId → Prop) (l : List InstId) : Prop :=
  ∀ pre y post, l = pre ++ y :: post → Irreducible g outer pre y

def Normal (visibility : Visibility) (f : Func) : Prop :=
  ∀ b, f.Reached b → Reduced f (Outer visibility f b) (f.listOf b)

theorem reduced_nil : Reduced g outer [] := by
  intro pre y post h
  simp at h

theorem Reduced.concat (h : Reduced g outer l) (hx : Irreducible g outer l x) :
    Reduced g outer (l ++ [x]) := by
  intro pre y post hsplit
  rcases cut_of_concat_eq hsplit with ⟨rfl, rfl, -⟩ | ⟨post, -, hl⟩
  · exact hx
  · exact h pre y post hl

/-- Reduction depends on the expressions of what was seen and on what that depends on. -/
theorem Reduced.congr (h : Reduced g outer l) (hl : ∀ i ∈ l, i ∈ seen)
    (houter : ∀ c, outer c → g'.listOf c = g.listOf c ∧ ∀ i ∈ g.listOf c, i ∈ seen)
    (hkeys : ∀ i ∈ seen, ∀ k, keyed g' k i = keyed g k i)
    (hphi : ∀ i ∈ seen, g.PhiBelow i → g'.PhiBelow i) : Reduced g' outer l := by
  intro pre y post hsplit x k hpure hy hx hvisible
  have hpre : ∀ i ∈ pre, i ∈ seen := fun i hi => hl i (by simp [hsplit, hi])
  rw [hkeys y (hl y (by simp [hsplit]))] at hy
  have hvisible' : x ∈ seen ∧ (x ∈ pre ∨ ∃ c, outer c ∧ x ∈ g.listOf c) := by
    rcases hvisible with hmem | ⟨c, hc, hmem⟩
    · exact ⟨hpre x hmem, .inl hmem⟩
    · rw [(houter c hc).1] at hmem
      exact ⟨(houter c hc).2 x hmem, .inr ⟨c, hc, hmem⟩⟩
  rw [hkeys x hvisible'.1] at hx
  obtain ⟨c, e, hc, he, hke, hbelow⟩ := h pre y post hsplit x k hpure hy hx hvisible'.2
  have hseen := (houter c hc).2 e he
  refine ⟨c, e, hc, ?_, ?_, hphi e hseen hbelow⟩
  · rwa [(houter c hc).1]
  · rwa [hkeys e hseen]

/-! ## One instruction -/

theorem visitInst_cases (h : visitInst a b s x = .ok s') :
    (∀ k, ¬keyed s.progress.func k x) ∧ s' = s ∨
      ∃ k, keyed s.progress.func k x ∧
        (s.table.find? k = none ∧ s' = { s with table := s.table.insert k x } ∨
          ∃ e, s.table.find? k = some e ∧
            ((e = x ∨ ∀ z, s.progress.func.bare? x = some z → z.op.isPure = false) ∧ s' = s ∨
              e ≠ x ∧ (∀ z, s.progress.func.bare? x = some z → z.op.isPure = true) ∧
                reuse a b s x e = .ok s')) := by
  obtain ⟨k?, hk, h⟩ := bind_eq_ok_iff.mp h
  cases k? with
  | none =>
    refine .inl ⟨fun k hkey => ?_, (Except.ok.inj h).symm⟩
    cases Except.ok.inj (hk.symm.trans (keyed_iff.mp hkey))
  | some k =>
    refine .inr ⟨k, keyed_iff.mpr hk, ?_⟩
    cases he : s.table.find? k with
    | none =>
      simp only [he] at h
      exact .inl ⟨rfl, (Except.ok.inj h).symm⟩
    | some e =>
      simp only [he] at h
      refine .inr ⟨e, rfl, ?_⟩
      obtain ⟨z, hz, h⟩ := bind_eq_ok_iff.mp h
      have hop : ∀ w, s.progress.func.bare? x = some w → w.op = z.op := by
        intro w hw
        rw [bare?_of_inst hz] at hw
        rw [← Option.some.inj hw]
        rfl
      split at h
      · next hcond =>
        refine .inl ⟨?_, (Except.ok.inj h).symm⟩
        refine ((Bool.or_eq_true _ _).mp hcond).imp of_decide_eq_true fun himpure w hw => ?_
        rw [hop w hw]
        simpa using himpure
      · next hcond =>
        rw [Bool.or_eq_true, decide_eq_true_eq, not_or, Bool.not_eq_true',
          Bool.not_eq_false] at hcond
        exact .inr ⟨hcond.1, fun w hw => (hop w hw).symm ▸ hcond.2, h⟩

/-- An instruction is reused in its own block, and in others if it depends on no phi. -/
theorem reuse_cases (hg : s.progress.func.Consistent) (hx : (s.progress.func.bare? x).isSome)
    (hne : e ≠ x) (hhome : e ∈ s.progress.func.listOf c) (hdom : a.dom.dominates c b = true)
    (hmemo : s.memo.Sound s.progress.func) (h : reuse a b s x e = .ok s') :
    s'.table = s.table ∧ s'.memo.Sound s.progress.func ∧
      (∀ i answer, s'.memo.find? i = some answer → i = e ∨ s.memo.find? i = some answer) ∧
      (c ≠ b ∧ s.progress.func.PhiBelow e ∧ s'.progress.func = s.progress.func ∧
          s'.progress.changes = s.progress.changes ∨
        (c = b ∨ ¬s.progress.func.PhiBelow e) ∧ Replaced s.progress.func x e s'.progress.func ∧
          s'.progress.changes = s.progress.changes + 1) := by
  obtain ⟨y, hy⟩ := hg.exists_inst hhome
  have he : (s.progress.func.bare? e).isSome := by simp [bare?_of_inst hy]
  have hyhome : y.home = some c := by
    rw [← homeOf_of_inst hy]
    exact (hg.mem_list c e).mp hhome
  obtain ⟨z, hz⟩ := exists_inst_of_bare hx
  obtain ⟨hanswer, hsound, hnew⟩ := PhiMemo.ask_spec hg hmemo he
  obtain ⟨q, hq, hrep, hchanges, -⟩ := replaceBy_spec
    (p := s.progress.note (.valueReused s.progress.func.name x (z.render x) e)) hg hx he hne
  simp only [reuse, renderInst, hy, hyhome, hz, hq, hdom, bind, Except.bind, pure, Except.pure,
    Bool.not_true, Bool.false_eq_true, if_false] at h
  by_cases hcb : c = b
  · rw [if_pos hcb] at h
    obtain rfl := Except.ok.inj h
    exact ⟨rfl, hmemo, fun i answer hi => .inr hi, .inr ⟨.inl hcb, hrep, hchanges⟩⟩
  · rw [if_neg hcb] at h
    cases hans : (s.memo.ask s.progress.func e).1 with
    | true =>
      rw [hans] at h
      obtain rfl := Except.ok.inj h
      exact ⟨rfl, hsound, hnew, .inl ⟨hcb, hanswer.mp hans, rfl, rfl⟩⟩
    | false =>
      rw [hans] at h
      obtain rfl := Except.ok.inj h
      refine ⟨rfl, hsound, hnew, .inr ⟨.inr fun hbelow => ?_, hrep, hchanges⟩⟩
      rw [hanswer.mpr hbelow] at hans
      cases hans

/-- In the block `b`, whose instructions before `rest` are now `front`. The blocks of `path` are
those that `b` sees. -/
structure Reducing (visibility : Visibility) (f : Func) (done path : List BlockId) (b : BlockId)
    (pre front rest : List InstId) (s : State) : Prop where
  numbering : Numbering f done b pre rest s
  path_iff : ∀ c, c ∈ path ↔ Outer visibility f b c
  closed : ∀ c ∈ done, ∀ d, f.Dom d c → d ∈ done
  split : s.progress.func.listOf b = front ++ rest
  nested : s.table.Nested
  opened : s.table.marks ≠ []
  layers : s.table.layers =
    leader s.progress.func (shown s.progress.func path ++ front) :: leads s.progress.func path
  memo : s.memo.Sound s.progress.func
  asked : ∀ i answer, s.memo.find? i = some answer → i ∈ done.flatMap f.listOf ++ pre
  earlier : ∀ c ∈ done, Reduced s.progress.func (Outer visibility f c) (s.progress.func.listOf c)
  reduced : Reduced s.progress.func (Outer visibility f b) front
  idle : Normal visibility f → s.progress.func = f ∧ s.progress.changes = 0

namespace Reducing

variable (h : Reducing visibility f done path b pre front (x :: rest) s)
include h

theorem find?_eq : s.table.find? = leader s.progress.func (shown s.progress.func path ++ front) :=
  (List.cons.inj h.layers).1

theorem front_seen (hf : f.Valid) : ∀ i ∈ front, i ∈ done.flatMap f.listOf ++ pre := by
  intro i hi
  obtain ⟨front', hfront', hsub⟩ := h.numbering.midway.exists_front hf
  obtain rfl := List.append_cancel_right (h.split.symm.trans hfront')
  exact List.mem_append_right _ (hsub.subset hi)

theorem done_seen (hc : c ∈ done) : ∀ i ∈ s.progress.func.listOf c,
    i ∈ done.flatMap f.listOf ++ pre := by
  intro i hi
  have hi := (h.numbering.midway.pruned.sub c).subset hi
  exact List.mem_append_left _ (List.mem_flatMap.mpr ⟨c, hc, hi⟩)

theorem path_done (hc : c ∈ path) : c ∈ done := by
  obtain ⟨-, hne, hdom⟩ := (h.path_iff c).mp hc
  exact h.numbering.midway.doms c hne hdom

theorem outer_done {d : BlockId} (hc : c ∈ done) (hd : Outer visibility f c d) : d ∈ done :=
  h.closed c hc d hd.2.2

/-- A leader stands in an outer block, or in this one and no outer block has its expression. -/
theorem leader_home (he : s.table.find? k = some e) :
    (∃ c, Outer visibility f b c ∧ e ∈ s.progress.func.listOf c) ∨
      e ∈ front ∧ ∀ c i, Outer visibility f b c → i ∈ s.progress.func.listOf c →
        ¬keyed s.progress.func k i := by
  rw [h.find?_eq, leader, List.find?_append] at he
  cases hout : (shown s.progress.func path).find? (keyed s.progress.func k) with
  | some e' =>
    rw [hout] at he
    obtain rfl := Option.some.inj he
    obtain ⟨c, hc, hmem⟩ := mem_shown.mp (List.mem_of_find?_eq_some hout)
    exact .inl ⟨c, (h.path_iff c).mp hc, hmem⟩
  | none =>
    rw [hout, Option.none_or] at he
    refine .inr ⟨List.mem_of_find?_eq_some he, fun c i hc hi => ?_⟩
    exact List.find?_eq_none.mp hout i (mem_shown.mpr ⟨c, (h.path_iff c).mpr hc, hi⟩)

theorem keyed_leader (he : s.table.find? k = some e) : keyed s.progress.func k e := by
  rw [h.find?_eq] at he
  exact (leader_spec he).2

theorem leader_seen (hf : f.Valid) (he : s.table.find? k = some e) :
    e ∈ done.flatMap f.listOf ++ pre ∧ ∃ c, e ∈ s.progress.func.listOf c ∧ f.Dom c b := by
  rcases h.leader_home he with ⟨c, hc, hhome⟩ | ⟨hfront, -⟩
  · have hdone := h.path_done ((h.path_iff c).mpr hc)
    exact ⟨h.done_seen hdone e hhome, c, hhome, hc.2.2⟩
  · have hhome : e ∈ s.progress.func.listOf b := by simp [h.split, hfront]
    exact ⟨h.front_seen hf e hfront, b, hhome, .refl h.numbering.midway.reached⟩

/-- What is visible was in the list that the leader is taken from. -/
theorem mem_visible (hi : i ∈ front ∨ ∃ c, Outer visibility f b c ∧ i ∈ s.progress.func.listOf c) :
    i ∈ shown s.progress.func path ++ front := by
  rcases hi with hi | ⟨c, hc, hi⟩
  · exact List.mem_append_right _ hi
  · exact List.mem_append_left _ (mem_shown.mpr ⟨c, (h.path_iff c).mpr hc, hi⟩)

/-- The next instruction stays, and its expression has a leader. -/
theorem keep (hnum : Numbering f done b (pre ++ [x]) rest s')
    (hfunc : s'.progress.func = s.progress.func)
    (hchanges : s'.progress.changes = s.progress.changes) (htable : s'.table = s.table)
    (hmemo : s'.memo.Sound s.progress.func)
    (hasked : ∀ i answer, s'.memo.find? i = some answer → i ∈ done.flatMap f.listOf ++ pre)
    (hlead : ∀ k, keyed s.progress.func k x → (s.table.find? k).isSome)
    (hx : Irreducible s.progress.func (Outer visibility f b) front x) :
    Reducing visibility f done path b (pre ++ [x]) (front ++ [x]) rest s' := by
  rw [h.find?_eq] at hlead
  exact {
    numbering := hnum
    path_iff := h.path_iff
    closed := h.closed
    split := by rw [hfunc, h.split, List.append_assoc, List.singleton_append]
    nested := htable ▸ h.nested
    opened := htable ▸ h.opened
    layers := by
      rw [htable, hfunc, h.layers, ← List.append_assoc, leader_concat_of_isSome hlead]
    memo := hfunc ▸ hmemo
    asked := fun i answer hi => by
      rw [← List.append_assoc]
      exact List.mem_append_left _ (hasked i answer hi)
    earlier := hfunc ▸ h.earlier
    reduced := hfunc ▸ h.reduced.concat hx
    idle := fun hnormal => by
      rw [hfunc, hchanges]
      exact h.idle hnormal }

/-- The next instruction becomes the leader of its expression. -/
theorem record (hnum : Numbering f done b (pre ++ [x]) rest { s with table := s.table.insert k x })
    (hkx : keyed s.progress.func k x) (hnone : s.table.find? k = none) :
    Reducing visibility f done path b (pre ++ [x]) (front ++ [x]) rest
      { s with table := s.table.insert k x } := by
  have hlead := hnone
  rw [h.find?_eq] at hlead
  refine {
    numbering := hnum
    path_iff := h.path_iff
    closed := h.closed
    split := by rw [h.split, List.append_assoc, List.singleton_append]
    nested := h.nested.insert k x
    opened := h.opened
    layers := ?_
    memo := h.memo
    asked := fun i answer hi => by
      rw [← List.append_assoc]
      exact List.mem_append_left _ (h.asked i answer hi)
    earlier := h.earlier
    reduced := h.reduced.concat ?_
    idle := h.idle }
  · show (s.table.insert k x).layers = _
    rw [ScopedTable.layers_insert h.nested, h.layers, List.tail_cons, ← List.append_assoc]
    refine congrArg (List.cons · _) (funext fun k' => ?_)
    rw [ScopedTable.find?_insert, leader_concat_of_none hkx hlead, h.find?_eq]
  · intro y k' _ hkx' hky hvisible
    obtain rfl := keyed_unique hkx hkx'
    exact absurd hky (not_keyed_of_leader hlead (h.mem_visible hvisible))

/-- What is deleted was not irreducible. -/
theorem not_irreducible (hlayout : f.LaidOut) (hpure : k.isPure)
    (hkx : keyed s.progress.func k x) (he : s.table.find? k = some e)
    (hhome : e ∈ s.progress.func.listOf c) (hwhy : c = b ∨ ¬s.progress.func.PhiBelow e) :
    ¬Irreducible s.progress.func (Outer visibility f b) front x := by
  intro hirr
  have hpr := h.numbering.midway.pruned
  have hke := h.keyed_leader he
  rcases h.leader_home he with ⟨c', hc', hhome'⟩ | ⟨hfront, hnone⟩
  · obtain rfl := hpr.valid.consistent.home_unique hhome hhome'
    obtain ⟨c', e', -, he', hke', hbelow⟩ := hirr e k hpure hkx hke (.inr ⟨c, hc', hhome⟩)
    refine (hwhy.resolve_left hc'.2.1) ?_
    exact phiBelow_of_keyed hpr.valid (hpr.laidOut hlayout) hpure hhome hke he' hke' hbelow
  · obtain ⟨c', e', hc', he', hke', -⟩ := hirr e k hpure hkx hke (.inl hfront)
    exact hnone c' e' hc' he' hke'

/-- The next instruction is deleted. -/
theorem delete (hf : f.Valid) (hlayout : f.LaidOut)
    (hnum : Numbering f done b (pre ++ [x]) rest s') (hpure : k.isPure)
    (hkx : keyed s.progress.func k x) (he : s.table.find? k = some e)
    (hhome : e ∈ s.progress.func.listOf c) (hwhy : c = b ∨ ¬s.progress.func.PhiBelow e)
    (hg : Replaced s.progress.func x e s'.progress.func) (htable : s'.table = s.table)
    (hmemo : s'.memo.Sound s.progress.func)
    (hasked : ∀ i answer, s'.memo.find? i = some answer → i ∈ done.flatMap f.listOf ++ pre) :
    Reducing visibility f done path b (pre ++ [x]) front rest s' := by
  have hmid := h.numbering.midway
  have hxseen := hmid.fresh hf x List.mem_cons_self
  have hkeys : ∀ i ∈ done.flatMap f.listOf ++ pre, ∀ k,
      keyed s'.progress.func k i = keyed s.progress.func k i := fun i hi =>
    keyed_of_seen hmid.pruned hxseen hg hi
  have hphi : ∀ i ∈ done.flatMap f.listOf ++ pre,
      (s'.progress.func.PhiBelow i ↔ s.progress.func.PhiBelow i) := fun i hi =>
    hmid.pruned.phiBelow_iff hxseen hg hi
  have hlists : ∀ c ∈ done, s'.progress.func.listOf c = s.progress.func.listOf c := fun c hc =>
    listOf_of_not_mem hg fun hx => hxseen (h.done_seen hc x hx)
  have houter : ∀ c ∈ done, s'.progress.func.listOf c = s.progress.func.listOf c ∧
      ∀ i ∈ s.progress.func.listOf c, i ∈ done.flatMap f.listOf ++ pre := fun c hc =>
    ⟨hlists c hc, h.done_seen hc⟩
  refine {
    numbering := hnum
    path_iff := h.path_iff
    closed := h.closed
    split := ?_
    nested := htable ▸ h.nested
    opened := htable ▸ h.opened
    layers := ?_
    memo := fun i answer hi =>
      (hmemo i answer hi).trans (hphi i (hasked i answer hi)).symm
    asked := fun i answer hi => by
      rw [← List.append_assoc]
      exact List.mem_append_left _ (hasked i answer hi)
    earlier := fun c hc => ?_
    reduced := ?_
    idle := fun hnormal => ?_ }
  · exact listOf_of_split hmid.pruned.valid.consistent hg h.split
  · rw [htable, h.layers]
    have hpath : ∀ c ∈ path, s'.progress.func.listOf c = s.progress.func.listOf c := fun c hc =>
      hlists c (h.path_done hc)
    have hshown : ∀ c ∈ path, ∀ i ∈ s.progress.func.listOf c, ∀ k,
        keyed s'.progress.func k i = keyed s.progress.func k i := fun c hc i hi =>
      hkeys i (h.done_seen (h.path_done hc) i hi)
    rw [shown_congr hpath, leads_congr hpath hshown]
    refine congrArg (List.cons · _) (leader_congr fun i hi => (hkeys i ?_ ·)).symm
    rcases List.mem_append.mp hi with hi | hi
    · obtain ⟨c, hc, hi⟩ := mem_shown.mp hi
      exact h.done_seen (h.path_done hc) i hi
    · exact h.front_seen hf i hi
  · rw [hlists c hc]
    exact (h.earlier c hc).congr (h.done_seen hc) (fun d hd => houter d (h.outer_done hc hd)) hkeys
      fun i hi => (hphi i hi).mpr
  · exact h.reduced.congr (h.front_seen hf)
      (fun d hd => houter d (h.path_done ((h.path_iff d).mpr hd))) hkeys fun i hi => (hphi i hi).mpr
  · refine absurd ?_ (h.not_irreducible hlayout hpure hkx he hhome hwhy)
    obtain ⟨hfunc, -⟩ := h.idle hnormal
    rw [hfunc]
    exact hnormal b hmid.reached front x rest (hfunc ▸ h.split)

theorem step (hd : a.Describes f rank) (hf : f.Valid) (hlayout : f.LaidOut) :
    ∃ s', visitInst a b s x = .ok s' ∧
      ∃ front', Reducing visibility f done path b (pre ++ [x]) front' rest s' := by
  obtain ⟨s', hs', hnum, -⟩ := visitInst_spec hd hf hlayout h.numbering
  refine ⟨s', hs', ?_⟩
  have hmid := h.numbering.midway
  have hpr := hmid.pruned
  have hmem : x ∈ s.progress.func.listOf b := hmid.mem_next hf
  have hlaid : s.progress.func.LaidOut := hpr.laidOut hlayout
  rcases visitInst_cases hs' with ⟨hnone, rfl⟩ | ⟨k, hkx, ⟨hnone, rfl⟩ | ⟨e, he, hcase⟩⟩
  · exact ⟨_, h.keep hnum rfl rfl rfl h.memo h.asked (fun k hk => absurd hk (hnone k))
      fun y k _ hk => absurd hk (hnone k)⟩
  · exact ⟨_, h.record hnum hkx hnone⟩
  · have hlead : ∀ k', keyed s.progress.func k' x → (s.table.find? k').isSome := by
      intro k' hk'
      rw [keyed_unique hk' hkx, he]
      rfl
    obtain ⟨hseen, c, hhome, hdom⟩ := h.leader_seen hf he
    rcases hcase with ⟨hwhy, rfl⟩ | ⟨hne, hpure, hreuse⟩
    · refine ⟨_, h.keep hnum rfl rfl rfl h.memo h.asked hlead fun y k' hpure' hkx' => ?_⟩
      have himpure := hwhy.resolve_left fun hex =>
        hmid.fresh hf x List.mem_cons_self (hex ▸ hseen)
      obtain ⟨z, hz, hzpure⟩ := exists_isPure_eq hpr.valid hlaid hmem hkx'
      rw [hzpure, himpure z hz] at hpure'
      cases hpure'
    · obtain ⟨z, hz, hzpure⟩ := exists_isPure_eq hpr.valid hlaid hmem hkx
      obtain ⟨htable, hmemo, hnew, hcase⟩ := reuse_cases hpr.valid.consistent (by simp [hz]) hne
        hhome (hd.dominates_iff.mpr hdom) h.memo hreuse
      have hasked : ∀ i answer, s'.memo.find? i = some answer →
          i ∈ done.flatMap f.listOf ++ pre := by
        intro i answer hi
        rcases hnew i answer hi with rfl | hi
        · exact hseen
        · exact h.asked i answer hi
      rcases hcase with ⟨hcb, hbelow, hfunc, hchanges⟩ | ⟨hwhy, hg, -⟩
      · refine ⟨_, h.keep hnum hfunc hchanges htable hmemo hasked hlead ?_⟩
        intro y k' _ hkx' _ _
        obtain rfl := keyed_unique hkx hkx'
        rcases h.leader_home he with ⟨c', hc', hhome'⟩ | ⟨hfront, -⟩
        · exact ⟨c', e, hc', hhome', h.keyed_leader he, hbelow⟩
        · have hb : e ∈ s.progress.func.listOf b := by simp [h.split, hfront]
          exact absurd (hpr.valid.consistent.home_unique hhome hb) hcb
      · exact ⟨_, h.delete hf hlayout hnum (hzpure.trans (hpure z hz)) hkx he hhome hwhy hg htable
          hmemo hasked⟩

end Reducing

/-! ## The walk -/

/-- Between two visits of the walk. -/
structure Normalizing (visibility : Visibility) (f : Func) (done path : List BlockId)
    (s : State) : Prop where
  numbered : Numbered f done path s
  closed : ∀ c ∈ done, ∀ d, f.Dom d c → d ∈ done
  nested : s.table.Nested
  layers : s.table.layers = leads s.progress.func path
  memo : s.memo.Sound s.progress.func
  asked : ∀ i answer, s.memo.find? i = some answer → i ∈ done.flatMap f.listOf
  earlier : ∀ c ∈ done, Reduced s.progress.func (Outer visibility f c) (s.progress.func.listOf c)
  idle : Normal visibility f → s.progress.func = f ∧ s.progress.changes = 0

theorem normalizing_start (hf : f.Valid) :
    Normalizing visibility f [] [] { progress := { func := f } } where
  numbered := numbered_start hf
  closed := by simp
  nested := ScopedTable.nested_empty
  layers := rfl
  memo _ _ h := by cases h
  asked _ _ h := by cases h
  earlier := by simp
  idle _ := ⟨rfl, rfl⟩

namespace Normalizing

theorem reducing (hf : f.Valid) (hb : f.Reached b) (hnew : b ∉ done)
    (hdoms : ∀ c, c ≠ b → f.Dom c b → c ∈ done)
    (hpath : ∀ c, c ∈ path ↔ Outer visibility f b c) (h : Normalizing visibility f done path s) :
    Reducing visibility f done path b [] [] (f.listOf b) { s with table := s.table.pushScope } := by
  have hnum := numbering_start hb hnew hdoms h.numbered
  obtain ⟨front, hsplit, hfront⟩ := hnum.midway.exists_front hf
  obtain rfl := List.sublist_nil.mp hfront
  exact {
    numbering := hnum
    path_iff := hpath
    closed := h.closed
    split := hsplit
    nested := h.nested.pushScope
    opened := List.cons_ne_nil _ _
    layers := by
      show s.table.pushScope.layers = _
      have htop := h.layers
      rw [leads_eq_cons] at htop
      rw [ScopedTable.layers_pushScope, h.layers, (List.cons.inj htop).1, List.append_nil]
    memo := h.memo
    asked := by simpa using h.asked
    earlier := h.earlier
    reduced := reduced_nil
    idle := h.idle }

/-- At the end of the block. -/
theorem of_reducing (h : Reducing visibility f done path b pre front [] s) :
    Normalizing visibility f (done ++ [b]) (b :: path) s := by
  have hmid := h.numbering.midway
  obtain rfl : f.listOf b = pre := by rw [hmid.split, List.append_nil]
  have hsplit := h.split
  rw [List.append_nil] at hsplit
  have hdoms : ∀ d, f.Dom d b → d ∈ done ++ [b] := by
    intro d hdom
    by_cases hdb : d = b
    · simp [hdb]
    · exact List.mem_append_left _ (hmid.doms d hdb hdom)
  have hlayers : s.table.layers = leads s.progress.func (b :: path) := by
    rw [h.layers, ← hsplit, leads, shown_cons]
  refine {
    numbered := ⟨hmid.leave, h.numbering.runs, by simpa using h.numbering.table,
      h.numbering.trimmed, ?_⟩
    closed := fun c hc d hdom => ?_
    nested := h.nested
    layers := hlayers
    memo := h.memo
    asked := fun i answer hi => by simpa using h.asked i answer hi
    earlier := fun c hc => ?_
    idle := h.idle }
  · have hlength := congrArg List.length hlayers
    simpa [ScopedTable.layers, length_leads] using hlength
  · rcases List.mem_append.mp hc with hc | hc
    · exact List.mem_append_left _ (h.closed c hc d hdom)
    · exact hdoms d (List.mem_singleton.mp hc ▸ hdom)
  · rcases List.mem_append.mp hc with hc | hc
    · exact h.earlier c hc
    · obtain rfl := List.mem_singleton.mp hc
      rw [hsplit]
      exact h.reduced

theorem enter (hd : a.Describes f rank) (hf : f.Valid) (hlayout : f.LaidOut) (hb : f.Reached b)
    (hnew : b ∉ done) (hdoms : ∀ c, c ≠ b → f.Dom c b → c ∈ done)
    (hpath : ∀ c, c ∈ path ↔ Outer visibility f b c) (h : Normalizing visibility f done path s) :
    ∃ s', visit a s (.enter b) = .ok s' ∧
      Normalizing visibility f (done ++ [b]) (b :: path) s' := by
  have hstart := h.reducing hf hb hnew hdoms hpath
  obtain ⟨y, hy, hinsts⟩ := hstart.numbering.midway.block_eq hf
  obtain ⟨s', hs', front, hend⟩ := exists_foldlM
    (P := fun pre rest s' => ∃ front, Reducing visibility f done path b pre front rest s')
    (fun ⟨front, hP⟩ => hP.step hd hf hlayout) ⟨[], hstart⟩
  refine ⟨s', ?_, of_reducing hend⟩
  simp only [visit, hy, bind, Except.bind, hinsts]
  exact hs'

theorem leave (h : Normalizing visibility f done (b :: path) s) :
    ∃ s', visit a s (.leave b) = .ok s' ∧ Normalizing visibility f done path s' := by
  obtain ⟨s', hs', hnum⟩ := visit_leave (a := a) h.numbered
  obtain ⟨t, ht, hs''⟩ := bind_eq_ok_iff.mp hs'
  obtain rfl := Except.ok.inj hs''
  obtain ⟨hlayers, hnested, -⟩ := ScopedTable.layers_popScope h.nested ht
  refine ⟨_, hs', ⟨hnum, h.closed, hnested, ?_, h.memo, h.asked, h.earlier, h.idle⟩⟩
  rw [hlayers, h.layers]
  rfl

end Normalizing

/-- Value numbering ends in a normal form, and leaves one alone. -/
theorem exists_normal_run (hd : a.Describes f rank) (hf : f.Valid) (hlayout : f.LaidOut)
    (visibility : Visibility) : ∃ p seen, run a visibility f = .ok p ∧ Pruned f p.func seen ∧
      Normal visibility p.func ∧ (Normal visibility f → p.func = f ∧ p.changes = 0) := by
  obtain ⟨done, s, hs, hall, hend⟩ : ∃ done s,
      (walk a visibility).foldlM (visit a) { progress := { func := f } } = .ok s ∧
        (∀ b, f.Reached b → b ∈ done) ∧ Normalizing visibility f done [] s := by
    cases visibility with
    | block =>
      obtain ⟨s, hs, hend⟩ := hd.foldlM_rpo (P := Normalizing .block f)
        (fun hb hnew hdoms h => h.enter hd hf hlayout hb hnew hdoms fun c => by simp [Outer])
        Normalizing.leave (normalizing_start hf)
      exact ⟨_, s, hs, fun b => hd.mem_rpo.mpr, hend⟩
    | domTree =>
      obtain ⟨s, hs, hend⟩ := hd.foldlM_tour_open (P := Normalizing .domTree f)
        (fun hb hnew hdoms _ hopen h => h.enter hd hf hlayout hb hnew hdoms fun c => by
          simp [Outer, hopen])
        Normalizing.leave (normalizing_start hf)
      exact ⟨_, s, hs, fun b => hd.mem_entries_tour.mpr, hend⟩
  have hpr := hend.numbered.pruned
  refine ⟨s.progress, _, bind_eq_ok_iff.mpr ⟨s, hs, rfl⟩, hpr, fun b hb => ?_, hend.idle⟩
  have houter : Outer visibility s.progress.func b = Outer visibility f b := by
    unfold Outer
    rw [hpr.dom_eq]
  rw [houter]
  exact hend.earlier b (hall b (hpr.reached_eq ▸ hb))

theorem isPure_of_keyed (hg : g.Valid) (hlayout : g.LaidOut) (hx : x ∈ g.listOf b)
    (hop : (g.op? x).any Opcode.isPure) (hk : keyed g k x) : k.isPure := by
  obtain ⟨z, hz, hpure⟩ := exists_isPure_eq hg hlayout hx hk
  rw [hpure]
  simpa [op?, hz] using hop

/-- In a normal form an expression is repeated only if a dominating block has it too, and then it
depends on a phi. -/
theorem Normal.phiBelow {post : List InstId} (h : Normal visibility g) (hg : g.Valid)
    (hlayout : g.LaidOut) (hb : g.Reached b) (hsplit : g.listOf b = pre ++ y :: post)
    (hx : x ∈ pre ∨ ∃ c, Outer visibility g b c ∧ x ∈ g.listOf c) (hhome : x ∈ g.listOf c)
    (hpure : k.isPure) (hkx : keyed g k x) (hky : keyed g k y) :
    visibility = .domTree ∧ g.PhiBelow x := by
  obtain ⟨c, e, hc, he, hke, hbelow⟩ := h b hb pre y post hsplit x k hpure hky hkx hx
  exact ⟨hc.1, phiBelow_of_keyed hg hlayout hpure hhome hkx he hke hbelow⟩

/-- **Value numbering reaches its normal form in one run.** Take a function that was accepted, whose
instructions have the operands that they are built with. Value numbering comes to an end, and a
second run on what it leaves, with the analysis that still describes it, deletes nothing. If only
the block itself is seen, no reachable block has two pure instructions with one expression. If the
dominating blocks are seen, a pure instruction whose expression is repeated later in its block, or
in a block that it dominates, reads a phi, directly or through other instructions. -/
theorem run_reaches_normal_form {f : Func} (hbuilt : f.Built) (hdecl : f.isDeclaration = false)
    (hcheck : f.check = .ok ()) (hlayout : f.LaidOut) {a : Analysis}
    (ha : Analysis.ofFunc f = .ok a) (visibility : Visibility) :
    ∃ p, run a visibility f = .ok p ∧ Analysis.ofFunc p.func = .ok a ∧
      (∃ q, run a visibility p.func = .ok q ∧ q.func = p.func ∧ q.changes = 0) ∧
      (visibility = .block → ∀ {b x y k}, p.func.Reached b → x ∈ p.func.listOf b →
        y ∈ p.func.listOf b → (p.func.op? x).any Opcode.isPure →
        Expression.ofInst? p.func x = .ok (some k) → Expression.ofInst? p.func y = .ok (some k) →
        x = y) ∧
      (visibility = .domTree → ∀ {b pre y post x k}, p.func.Reached b →
        p.func.listOf b = pre ++ y :: post → p.func.Avail b pre x →
        (p.func.op? x).any Opcode.isPure → Expression.ofInst? p.func x = .ok (some k) →
        Expression.ofInst? p.func y = .ok (some k) →
        ∃ d, Relation.TransGen (fun i d => d ∈ p.func.reads i) x d ∧ p.func.isPhi d) := by
  by_cases h₀ : 0 < f.numBlocks
  · obtain ⟨rank, hd⟩ := Analysis.describes ha h₀
    have hf := hbuilt.consistent.valid hdecl h₀ hcheck
    obtain ⟨p, seen, hp, hpr, hnormal, -⟩ := exists_normal_run hd hf hlayout visibility
    have hlaid : p.func.LaidOut := hpr.laidOut hlayout
    obtain ⟨q, -, hq, -, -, hidle⟩ := exists_normal_run (hd.congr hpr.edge hpr.size) hpr.valid hlaid
      visibility
    refine ⟨p, hp, hpr.amended.analysis hf ha, ⟨q, hq, hidle hnormal⟩, ?_, ?_⟩
    · intro hvisibility b x y k hb hx hy hop hkx hky
      rw [← keyed_iff] at hkx hky
      have hpure := isPure_of_keyed hpr.valid hlaid hx hop hkx
      -- of two instructions the first would repeat an expression of a dominating block
      have hfirst : ∀ {x y pre post}, p.func.listOf b = pre ++ y :: post → keyed p.func k x →
          keyed p.func k y → x ∉ pre := by
        intro x y pre post hsplit hkx hky hx
        have hhome : x ∈ p.func.listOf b := by simp [hsplit, hx]
        have htree := hnormal.phiBelow hpr.valid hlaid hb hsplit (.inl hx) hhome hpure hkx hky
        cases hvisibility.symm.trans htree.1
      obtain ⟨pre, post, hsplit⟩ := List.append_of_mem hy
      rw [hsplit] at hx
      rcases List.mem_append.mp hx with hx | hx
      · exact absurd hx (hfirst hsplit hkx hky)
      · rcases List.mem_cons.mp hx with hx | hx
        · exact hx
        · obtain ⟨mid, post', rfl⟩ := List.append_of_mem hx
          rw [← List.cons_append, ← List.append_assoc] at hsplit
          exact absurd (by simp) (hfirst hsplit hky hkx)
    · intro hvisibility b pre y post x k hb hsplit havail hop hkx hky
      obtain ⟨hx, home, hhome⟩ : (x ∈ pre ∨ ∃ c, Outer visibility p.func b c ∧
          x ∈ p.func.listOf c) ∧ ∃ home, x ∈ p.func.listOf home := by
        rcases havail with hx | ⟨c, hx, hne, hdom⟩
        · exact ⟨.inl hx, b, by simp [hsplit, hx]⟩
        · exact ⟨.inr ⟨c, ⟨hvisibility, hne, hdom⟩, hx⟩, c, hx⟩
      have hnot := Expression.not_isPhi_of_ofInst? hkx
      rw [← keyed_iff] at hkx hky
      have hpure := isPure_of_keyed hpr.valid hlaid hhome hop hkx
      have hbelow := (hnormal.phiBelow hpr.valid hlaid hb hsplit hx hhome hpure hkx hky).2
      exact hbelow.transGen hnot
  · have hrun := run_of_no_blocks ha h₀ visibility
    have hnone : ∀ {b x}, x ∉ f.listOf b := fun hx =>
      h₀ (Nat.zero_lt_of_lt (lt_numBlocks_of_mem hx))
    refine ⟨_, hrun, ha, ⟨_, hrun, rfl, rfl⟩, fun _ {b x y k} _ hx => absurd hx hnone, ?_⟩
    intro _ b pre y post x k _ hsplit
    have hy : y ∈ f.listOf b := by simp [hsplit]
    exact absurd hy hnone

/-- A loop that adds its arguments again in each iteration, and after which the sum of the last
iteration is computed twice more. The first repetition depends on no phi. The others depend on the
phi of the loop, and are kept. -/
def carriedSums : Func := .made [.i32, .i32] [
  .block, .block, .block,
  .switch ⟨0⟩, .binary .add .i32 (.arg 0) (.arg 1), .jump ⟨1⟩,
  .switch ⟨1⟩, .phi .i32, .binary .add .i32 (.arg 1) (.arg 0),
  .binary .add .i32 (.inst ⟨2⟩) (.inst ⟨3⟩), .compare .slt (.inst ⟨4⟩) (.lit (.i32 9)),
  .branch (.inst ⟨5⟩) ⟨1⟩ ⟨2⟩,
  .switch ⟨2⟩, .binary .add .i32 (.inst ⟨3⟩) (.inst ⟨2⟩),
  .binary .add .i32 (.inst ⟨2⟩) (.inst ⟨3⟩), .binary .mul .i32 (.inst ⟨7⟩) (.inst ⟨8⟩),
  .ret (some (.inst ⟨9⟩)),
  .incoming ⟨2⟩ (.lit (.i32 1)) ⟨0⟩, .incoming ⟨2⟩ (.inst ⟨4⟩) ⟨1⟩]

theorem run_reaches_normal_form_carriedSums :
    ∃ a p q, Analysis.ofFunc carriedSums = .ok a ∧ run a .domTree carriedSums = .ok p ∧
      p.changes = 1 ∧ run a .domTree p.func = .ok q ∧ q.changes = 0 ∧
      p.func.listOf ⟨2⟩ = [⟨7⟩, ⟨8⟩, ⟨9⟩, ⟨10⟩] ∧
      Expression.ofInst? p.func ⟨4⟩ = Expression.ofInst? p.func ⟨7⟩ ∧
      ∃ d, Relation.TransGen (fun i d => d ∈ p.func.reads i) ⟨4⟩ d ∧ p.func.isPhi d := by
  obtain ⟨a, ha, h⟩ := exists_ok_of_any (x := Analysis.ofFunc carriedSums)
    (q := fun a => a.dom.dominates ⟨1⟩ ⟨2⟩ && (run a .domTree carriedSums).toOption.any fun p =>
      p.changes = 1 && p.func.listOf ⟨1⟩ = [⟨2⟩, ⟨4⟩, ⟨5⟩, ⟨6⟩] &&
        p.func.listOf ⟨2⟩ = [⟨7⟩, ⟨8⟩, ⟨9⟩, ⟨10⟩] && (p.func.op? ⟨4⟩).any Opcode.isPure &&
        [⟨4⟩, ⟨7⟩].all fun i => Expression.ofInst? p.func i =
          .ok (some (.binary .add .i32 (.inst ⟨0⟩) (.inst ⟨2⟩))))
    (by decide +kernel)
  obtain ⟨hdom, h⟩ := (Bool.and_eq_true _ _).mp h
  obtain ⟨p, hp, h⟩ := exists_ok_of_any h
  simp only [Bool.and_eq_true, decide_eq_true_eq, List.all_cons, List.all_nil, and_true] at h
  obtain ⟨⟨⟨⟨hchanges, hloop⟩, hafter⟩, hop⟩, hk, hk'⟩ := h
  obtain ⟨p', hp', ha', ⟨q, hq, -, hidle⟩, -, htree⟩ := run_reaches_normal_form (f := carriedSums)
    (built_made _ _) (by decide +kernel) (by decide +kernel) (by decide +kernel) ha .domTree
  obtain rfl := Except.ok.inj (hp.symm.trans hp')
  have hsplit : p.func.listOf ⟨2⟩ = [] ++ ⟨7⟩ :: [⟨8⟩, ⟨9⟩, ⟨10⟩] := hafter
  have hlt := lt_numBlocks_of_mem (by simp [hafter] : (⟨7⟩ : InstId) ∈ p.func.listOf ⟨2⟩)
  obtain ⟨rank, hd⟩ := Analysis.describes ha' (Nat.zero_lt_of_lt hlt)
  have hdom : p.func.Dom ⟨1⟩ ⟨2⟩ := hd.dominates_iff.mp hdom
  refine ⟨a, p, q, ha, hp, hchanges, hq, hidle, hafter, hk.trans hk'.symm, ?_⟩
  exact htree rfl hdom.1 hsplit (.inr ⟨⟨1⟩, by simp [hloop], by decide, hdom⟩) hop hk hk'

end SsaOpt.Values
