import SsaOpt.Proofs.Rehoming

/-! What the optimiser leaves alone. Each edit is a counted deletion or the move of one floating
instruction; what holds of one edit holds of every chain of them, so no effect is lost, doubled or
moved past another, and no operand changes but from a deleted instruction to one of its kind. -/

namespace SsaOpt

/-- Neither pure nor a load: stores, calls, allocations, phis and terminators. -/
def Opcode.isEffect (op : Opcode) : Bool := !op.isPure && op ≠ .load

namespace Func

variable {f g k : Func} {x e i : InstId} {b : BlockId} {pre post front back gone more : List InstId}

/-- The instruction is none that code motion places, so it never leaves its block. -/
def anchored (f : Func) (i : InstId) : Bool := !(f.op? i).any Motion.floats

def hasEffect (f : Func) (i : InstId) : Bool := (f.op? i).any Opcode.isEffect

/-- `g` is `f` without the instructions `gone`, apart from where floating instructions stand. No
opcode and no type has changed, nothing else was erased, and each slot reads what it read, or an
instruction of the same opcode where that is gone. -/
structure Edited (f g : Func) (gone : List InstId) : Prop where
  nodup : gone.Nodup
  op : ∀ i, g.op? i = f.op? i
  type : ∀ i, (g.bare? i).map Instruction.ty = (f.bare? i).map Instruction.ty
  live : ∀ i, g.live i ↔ f.live i ∧ i ∉ gone
  erased : ∀ i ∈ gone, f.live i
  lists : ∀ b, (g.listOf b).filter f.anchored =
    (f.listOf b).filter fun i => f.anchored i && i ∉ gone
  slots : ∀ i n, g.live i → g.slot ⟨i, n⟩ = f.slot ⟨i, n⟩ ∨ ∃ x e, x ∈ gone ∧
    f.slot ⟨i, n⟩ = some (.inst x) ∧ g.slot ⟨i, n⟩ = some (.inst e) ∧ g.live e ∧ f.op? e = f.op? x
  unread : ∀ i n x, g.live i → g.slot ⟨i, n⟩ = some (.inst x) → x ∉ gone

namespace Edited

theorem refl (f : Func) : Edited f f [] where
  nodup := .nil
  op _ := rfl
  type _ := rfl
  live i := by simp
  erased i hi := absurd hi List.not_mem_nil
  lists b := by simp
  slots _ _ _ := .inl rfl
  unread _ _ _ _ _ := List.not_mem_nil

theorem anchored_eq (h : Edited f g gone) : g.anchored = f.anchored := by
  funext i
  rw [anchored, anchored, h.op]

theorem trans (h : Edited f g gone) (h' : Edited g k more) : Edited f k (gone ++ more) where
  nodup := by
    refine List.nodup_append'.mpr ⟨h.nodup, h'.nodup, fun i hi hi' => ?_⟩
    exact ((h.live i).mp (h'.erased i hi')).2 hi
  op i := (h'.op i).trans (h.op i)
  type i := (h'.type i).trans (h.type i)
  live i := by
    rw [h'.live, h.live, List.mem_append, not_or, and_assoc]
  erased i hi := by
    rcases List.mem_append.mp hi with hi | hi
    · exact h.erased i hi
    · exact ((h.live i).mp (h'.erased i hi)).1
  lists b := by
    have hnext := h'.lists b
    rw [h.anchored_eq] at hnext
    calc (k.listOf b).filter f.anchored
        = ((g.listOf b).filter f.anchored).filter (· ∉ more) := by
          rw [hnext, List.filter_filter]
          exact List.filter_congr fun i _ => Bool.and_comm _ _
      _ = (f.listOf b).filter fun i => f.anchored i && i ∉ gone ++ more := by
          rw [h.lists, List.filter_filter]
          refine List.filter_congr fun i _ => ?_
          simp only [List.mem_append, not_or, Bool.decide_and]
          rw [Bool.and_comm, Bool.and_assoc]
  slots i n hlive := by
    have hlive' := ((h'.live i).mp hlive).1
    rcases h'.slots i n hlive with hsame | ⟨y, e', hy, hslot, hslot', he', hop⟩
    · rcases h.slots i n hlive' with hsame' | ⟨x, e, hx, hslot, hslot', he, hop⟩
      · exact .inl (hsame.trans hsame')
      · have hstays := h'.unread i n e hlive (hsame.trans hslot')
        exact .inr ⟨x, e, List.mem_append_left _ hx, hslot, hsame.trans hslot',
          (h'.live e).mpr ⟨he, hstays⟩, hop⟩
    · rw [h.op, h.op] at hop
      rcases h.slots i n hlive' with hsame' | ⟨x, e, hx, hslot₀, hslot₁, -, hop'⟩
      · exact .inr ⟨y, e', List.mem_append_right _ hy, hsame'.symm.trans hslot, hslot', he', hop⟩
      · -- what took the place of `x` was replaced in turn
        obtain rfl := Operand.inst.inj (Option.some.inj (hslot₁.symm.trans hslot))
        exact .inr ⟨x, e', List.mem_append_left _ hx, hslot₀, hslot', he', hop.trans hop'⟩
  unread i n x hlive hslot := by
    rw [List.mem_append, not_or]
    refine ⟨?_, h'.unread i n x hlive hslot⟩
    rcases h'.slots i n hlive with hsame | ⟨y, e', -, -, hslot', he', -⟩
    · exact h.unread i n x ((h'.live i).mp hlive).1 (hsame.symm.trans hslot)
    · obtain rfl := Operand.inst.inj (Option.some.inj (hslot'.symm.trans hslot))
      exact ((h.live _).mp ((h'.live _).mp he').1).2

/-- A redundant instruction is deleted in favour of one with the same opcode. -/
theorem of_replaced (hf : f.Valid) (hr : Redundant f x e b pre post) (hop : f.op? e = f.op? x)
    (hg : Replaced f x e g) : Edited f g [x] where
  nodup := List.nodup_singleton x
  op := hg.op?_eq
  type i := by
    rw [hg.bare]
    split <;> rw [Option.map_map] <;> rfl
  live i := by
    rw [hg.live_iff, List.mem_singleton, and_comm]
  erased i hi := by
    rw [List.mem_singleton.mp hi]
    exact live_iff.mpr (hf.exists_live hr.mem)
  lists b := by
    rw [hg.lists, List.filter_filter]
    exact List.filter_congr fun i _ => by simp
  slots i n hlive := by
    have hi := (hg.live_iff.mp hlive).1
    rw [hg.slot_eq hi]
    cases ho : f.slot ⟨i, n⟩ with
    | none => exact .inl rfl
    | some o =>
      by_cases hox : o = .inst x
      · obtain ⟨home, he, -⟩ := hr.exists_home
        have he' : g.live e := hg.live_iff.mpr ⟨hr.ne hf, live_iff.mpr (hf.exists_live he)⟩
        refine .inr ⟨x, e, List.mem_singleton_self x, by rw [hox], ?_, he', hop⟩
        rw [Option.map_some, Operand.subst, if_pos hox]
      · refine .inl ?_
        rw [Option.map_some, Operand.subst, if_neg hox]
  unread i n d hlive hslot := by
    have hi := (hg.live_iff.mp hlive).1
    rw [List.mem_singleton]
    rcases (hg.slot_eq_inst_iff hi).mp hslot with ⟨-, rfl⟩ | ⟨hdx, -⟩
    · exact hr.ne hf
    · exact hdx

/-- A floating instruction is moved. -/
theorem of_relocated (hx : (f.op? x).any Motion.floats) (hg : Relocated f x b front back g) :
    Edited f g [] where
  nodup := .nil
  op := hg.op?_eq
  type i := by
    rw [hg.bare]
    split
    · rw [Option.map_map]
      rfl
    · rfl
  live i := by simp [hg.live_eq]
  erased i hi := absurd hi List.not_mem_nil
  lists c := by
    have hanchored : ∀ l : List InstId, l.filter f.anchored =
        (l.filter (· ≠ x)).filter f.anchored := by
      intro l
      rw [List.filter_filter]
      refine List.filter_congr fun i _ => ?_
      by_cases hi : i = x
      · simp [hi, anchored, hx]
      · simp [hi]
    rw [hanchored (g.listOf c), hg.filter_lists, ← hanchored]
    exact List.filter_congr fun i _ => by simp
  slots i n _ := by
    rw [slot, slot, hg.operandsOf_eq]
    exact .inl rfl
  unread _ _ _ _ _ := List.not_mem_nil

/-- If only loads and pure instructions are gone, the effects of each block are as they were. -/
theorem effects_eq (h : Edited f g gone) (hgone : ∀ i ∈ gone, ¬f.hasEffect i) (b : BlockId) :
    (g.listOf b).filter f.hasEffect = (f.listOf b).filter f.hasEffect := by
  have hfixed : ∀ i, f.hasEffect i → f.anchored i := by
    intro i hi
    unfold hasEffect at hi
    unfold anchored
    cases hop : f.op? i with
    | none => rfl
    | some op =>
      rw [hop] at hi
      cases op <;> first | rfl | cases hi
  have hsplit : ∀ l : List InstId, l.filter f.hasEffect =
      (l.filter f.anchored).filter f.hasEffect := by
    intro l
    rw [List.filter_filter]
    refine List.filter_congr fun i _ => ?_
    cases hi : f.hasEffect i with
    | false => rfl
    | true => rw [hfixed i hi]; rfl
  rw [hsplit (g.listOf b), h.lists, List.filter_filter]
  refine List.filter_congr fun i _ => ?_
  cases hi : f.hasEffect i with
  | false => rfl
  | true =>
    have hkept : i ∉ gone := fun hmem => hgone i hmem hi
    simp [hfixed i hi, hkept]

end Edited

/-! ## Passes that delete -/

/-- Counted deletions are the edits of the instructions deleted. -/
theorem Trimmed.edited {kind : Opcode → Bool} {p q : Progress} (hp : p.func.Valid)
    (h : Trimmed kind p q) : q.func.Valid ∧ ∃ gone, Edited p.func q.func gone ∧
      q.changes = p.changes + gone.length ∧ ∀ i ∈ gone, (p.func.op? i).any kind := by
  induction h with
  | refl => exact ⟨hp, [], .refl _, rfl, by simp⟩
  | tail _ hstep ih =>
    obtain ⟨hq, gone, hedited, hcount, hgone⟩ := ih
    cases hstep with
    | keep hfunc hchanges =>
      rw [hfunc, hchanges]
      exact ⟨hq, gone, hedited, hcount, hgone⟩
    | @delete x _ _ _ _ hkind hr hop hg hchanges =>
      refine ⟨hr.valid hq hg, gone ++ [x], hedited.trans (.of_replaced hq hr hop hg), ?_, ?_⟩
      · rw [hchanges, hcount, List.length_append, List.length_singleton, Nat.add_assoc]
      · intro i hi
        rcases List.mem_append.mp hi with hi | hi
        · exact hgone i hi
        · rw [List.mem_singleton.mp hi, ← hedited.op]
          exact hkind

end Func

/-! ## Code motion -/

namespace Motion

open Func

variable {f : Func} {a : Analysis} {rank : BlockId → Nat} {x : InstId} {st : Setting}
  {p q : Progress} {depth : BlockId → Nat} {policy : Placement}

theorem carryOut_edited {d : Decision} (hf : p.func.Housed) (hx : Loose p.func x)
    (hdec : decision a depth policy p.func x = .ok d) (h : carryOut p x d = .ok q) :
    Edited p.func q.func [] := by
  rcases carryOut_cases h with ⟨-, heq, -⟩ | ⟨s, rfl, -, hg, -⟩
  · rw [heq]
    exact .refl _
  · obtain ⟨front, t, back, hrel, -⟩ := relocate_spec hf hx.not_ends_self hg
    obtain ⟨z, hz⟩ := hf.consistent.exists_inst ((decision_spec hdec).mem_current hf)
    refine .of_relocated ?_ hrel
    rw [op?_of_inst hz]
    exact hx.floats (op?_of_inst hz)

theorem sweeps_edited {limit n : Nat} {r : Option Rejection} (hd : st.analysis.Describes f rank)
    (hf : f.Housed) (h : sweeps st limit n { func := f } = .ok (q, r)) : Edited f q.func [] := by
  refine (sweeps_keeps (P := fun p => Rehomed f p.func ∧ Edited f p.func []) id ?_ n
    ⟨.refl hf, .refl f⟩ h).2
  intro p q r hp hq
  rw [sweep_eq] at hq
  obtain ⟨is, his, hq⟩ := bind_eq_ok_iff.mp hq
  refine placeAll_keeps (P := fun p => Rehomed f p.func ∧ Edited f p.func []) ?_ hp hq
  intro p' q' d x hx hp' hdec hq'
  obtain ⟨hre, hedited⟩ := hp'
  have hloose := hp.1.loose_iff.mp (loose_of_schedule hp.1.housed.consistent his hx).2
  have hloose' := hre.loose_iff.mpr hloose
  exact ⟨hre.trans (carryOut_rehomed hre.housed (hre.describes hd) hloose' hdec hq'),
    hedited.trans (carryOut_edited hre.housed hloose' hdec hq')⟩

end Motion

/-! ## The passes in sequence -/

namespace Pipeline

open Func

variable {f : Func} {a : Analysis} {rank : BlockId → Nat} {settings : Settings} {r : Run}
  {stats total : Stats} {remarks : Array Remark}

/-- Passes that end without a rejection start with one that does. -/
theorem runPasses_cons_ok {pass : Pass} {rest : List Pass}
    (h : runPasses settings a (pass :: rest) f stats remarks = .ok r)
    (hok : r.result = .ok total) : ∃ p remarks', runPass settings a f pass = .ok (p, none) ∧
      runPasses settings a rest p.func (stats.add (.ofPass p.changes pass)) remarks' = .ok r := by
  obtain ⟨⟨p, rejected⟩, hpass, h⟩ := bind_eq_ok_iff.mp h
  cases rejected with
  | some e =>
    rw [← pure_eq_ok_iff.mp h] at hok
    cases hok
  | none =>
    obtain ⟨rejected, -, h⟩ := bind_eq_ok_iff.mp h
    cases rejected with
    | some e =>
      rw [← pure_eq_ok_iff.mp h] at hok
      cases hok
    | none =>
      have hcount : (if settings.timed then p.note (.passDone pass f.name p.changes)
          else p).changes = p.changes := by
        split <;> rfl
      rw [func_noted, hcount] at h
      exact ⟨p, _, hpass, h⟩

/-- Code motion deletes nothing. -/
theorem motion_edited (hd : a.Describes f rank) (hf : f.Housed)
    (h : runPasses settings a ([Pass.motion].filter settings.enabled) f stats remarks = .ok r)
    (hok : r.result = .ok total) :
    total.loads = stats.loads ∧ total.values = stats.values ∧ Edited f r.func [] := by
  rw [List.filter_cons] at h
  split at h
  · obtain ⟨p, remarks', hp, h⟩ := runPasses_cons_ok h hok
    obtain rfl := pure_eq_ok_iff.mp h
    obtain rfl := Except.ok.inj hok
    exact ⟨rfl, rfl, Motion.sweeps_edited hd hf hp⟩
  · obtain rfl := pure_eq_ok_iff.mp h
    obtain rfl := Except.ok.inj hok
    exact ⟨rfl, rfl, .refl f⟩

/-- From value numbering on, the instructions deleted are pure. -/
theorem values_edited (hd : a.Describes f rank) (hf : f.Valid) (hlayout : f.LaidOut)
    (h : runPasses settings a ([Pass.values, .motion].filter settings.enabled) f stats remarks =
      .ok r) (hok : r.result = .ok total) :
    total.loads = stats.loads ∧ ∃ gone, total.values = stats.values + gone.length ∧
      (∀ i ∈ gone, (f.op? i).any Opcode.isPure) ∧ Edited f r.func gone := by
  rw [List.filter_cons] at h
  split at h
  · obtain ⟨p, remarks', hp, h⟩ := runPasses_cons_ok h hok
    obtain ⟨p', hp', hsame⟩ := bind_eq_ok_iff.mp hp
    obtain ⟨rfl, -⟩ := Prod.mk.inj (pure_eq_ok_iff.mp hsame)
    obtain ⟨⟨seen, hpr⟩, htrimmed⟩ := Values.run_trimmed hd hf hlayout hp'
    obtain ⟨-, gone, hedited, hcount, hgone⟩ := htrimmed.edited hf
    obtain ⟨hloads, hvalues, hrest⟩ := motion_edited (hd.congr hpr.edge hpr.size) hpr.valid.housed
      h hok
    refine ⟨hloads, gone, ?_, hgone, List.append_nil gone ▸ hedited.trans hrest⟩
    rw [hvalues]
    show stats.values + p'.changes = _
    rw [hcount, Nat.zero_add]
  · obtain ⟨hloads, hvalues, hrest⟩ := motion_edited hd hf.housed h hok
    exact ⟨hloads, [], hvalues, by simp, hrest⟩

theorem passes_edited (hd : a.Describes f rank) (hf : f.Valid) (htied : f.Tied)
    (hlayout : f.LaidOut)
    (h : runPasses settings a (Pass.all.filter settings.enabled) f stats remarks = .ok r)
    (hok : r.result = .ok total) :
    ∃ loads values, total.loads = stats.loads + loads.length ∧
      total.values = stats.values + values.length ∧
      (∀ i ∈ loads, f.op? i = some .load) ∧ (∀ i ∈ values, (f.op? i).any Opcode.isPure) ∧
      Edited f r.func (loads ++ values) := by
  unfold Pass.all at h
  rw [List.filter_cons] at h
  split at h
  · obtain ⟨p, remarks', hp, h⟩ := runPasses_cons_ok h hok
    obtain ⟨p', hp', hsame⟩ := bind_eq_ok_iff.mp hp
    obtain ⟨rfl, -⟩ := Prod.mk.inj (pure_eq_ok_iff.mp hsame)
    obtain ⟨⟨seen, hpr⟩, htrimmed⟩ := Loads.run_trimmed hd hf htied hlayout hp'
    obtain ⟨-, loads, hedited, hcount, hgone⟩ := htrimmed.edited hf
    obtain ⟨hloads, values, hvalues, hpure, hrest⟩ := values_edited
      (hd.congr hpr.edge hpr.size) hpr.valid (hpr.laidOut hlayout) h hok
    refine ⟨loads, values, ?_, hvalues, fun i hi => ?_, fun i hi => ?_, hedited.trans hrest⟩
    · rw [hloads]
      show stats.loads + p'.changes = _
      rw [hcount, Nat.zero_add]
    · obtain ⟨op, hop, heq⟩ := (Option.any_eq_true _ _).mp (hgone i hi)
      rw [hop, of_decide_eq_true heq]
    · rw [← hedited.op]
      exact hpure i hi
  · obtain ⟨hloads, values, hvalues, hpure, hrest⟩ := values_edited hd hf hlayout h hok
    exact ⟨[], values, hloads, hvalues, by simp, hpure, hrest⟩

/-- **Effects are never lost, doubled or reordered.** Take a function that was accepted, whose
instructions have the operands that they are built with, and settings with which the optimiser comes
to an end without a rejection. What was erased is as many loads as its first count says and as many
pure instructions as its second count says, and nothing else. No opcode and no type has changed. In
each block the stores, calls, allocations, phis and terminators are those that were there, in the
same order; together with the loads, comparisons, casts and selections that are left they are what
was there without what was erased, also in the same order. Each slot of an instruction that is left
reads what it read, or, where that was erased, an instruction of the same opcode that was not. -/
theorem runFunc_keeps_effects {f : Func} (hbuilt : f.Built) (hdecl : f.isDeclaration = false)
    (hcheck : f.check = .ok ()) (hlayout : f.LaidOut) {settings : Settings} {r : Run}
    {stats : Stats} (hrun : runFunc settings f = .ok r) (hok : r.result = .ok stats) :
    ∃ loads values, loads.length = stats.loads ∧ values.length = stats.values ∧
      (∀ i ∈ loads, f.op? i = some .load) ∧ (∀ i ∈ values, (f.op? i).any Opcode.isPure) ∧
      Edited f r.func (loads ++ values) ∧
      ∀ b, (r.func.listOf b).filter f.hasEffect = (f.listOf b).filter f.hasEffect := by
  by_cases h₀ : 0 < f.numBlocks
  · obtain ⟨a, ha⟩ := Analysis.exists_ofFunc (targetsExist_of_check hdecl hcheck)
    rw [runFunc_eq hdecl h₀ ha] at hrun
    obtain ⟨rank, hd⟩ := Analysis.describes ha h₀
    have hcon := hbuilt.consistent
    obtain ⟨loads, values, hloads, hvalues, hload, hpure, hedited⟩ := passes_edited hd
      (hcon.valid hdecl h₀ hcheck) (hcon.tied hdecl hcheck) hlayout hrun hok
    refine ⟨loads, values, by simpa using hloads.symm, by simpa using hvalues.symm, hload, hpure,
      hedited, hedited.effects_eq fun i hi => ?_⟩
    unfold hasEffect
    rcases List.mem_append.mp hi with hi | hi
    · simp [hload i hi, Opcode.isEffect]
    · obtain ⟨op, hop, heq⟩ := (Option.any_eq_true _ _).mp (hpure i hi)
      simp [hop, Opcode.isEffect, heq]
  · unfold runFunc at hrun
    rw [if_pos (by simp only [hdecl, Bool.false_or, decide_eq_true_eq]; omega)] at hrun
    obtain rfl := pure_eq_ok_iff.mp hrun
    obtain rfl := Except.ok.inj hok
    exact ⟨[], [], rfl, rfl, by simp, by simp, .refl f, fun _ => rfl⟩

/-- In the loop one load and one address computation are erased, and two instructions move. -/
theorem runFunc_keeps_effects_scalingLoop : ∃ r load value,
    runFunc { visibility := .domTree } scalingLoop = .ok r ∧ r.result = .ok ⟨1, 1, 2⟩ ∧
    scalingLoop.op? load = some .load ∧ (scalingLoop.op? value).any Opcode.isPure ∧
    Edited scalingLoop r.func [load, value] ∧
    (r.func.listOf ⟨2⟩).filter scalingLoop.hasEffect =
      (scalingLoop.listOf ⟨2⟩).filter scalingLoop.hasEffect := by
  obtain ⟨r, hrun, hresult⟩ := exists_ok_of_any
    (x := runFunc { visibility := .domTree } scalingLoop)
    (q := fun r => r.result = .ok ⟨1, 1, 2⟩) (by decide +kernel)
  have hresult := of_decide_eq_true hresult
  obtain ⟨loads, values, hloads, hvalues, hload, hpure, hedited, heffects⟩ :=
    runFunc_keeps_effects (built_made _ _) (by decide +kernel) (by decide +kernel)
      (by decide +kernel) hrun hresult
  obtain ⟨load, rfl⟩ := List.length_eq_one_iff.mp hloads
  obtain ⟨value, rfl⟩ := List.length_eq_one_iff.mp hvalues
  exact ⟨r, load, value, hrun, hresult, hload load (by simp), hpure value (by simp), hedited,
    heffects ⟨2⟩⟩

end Pipeline

end SsaOpt
