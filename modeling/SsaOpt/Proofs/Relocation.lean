import SsaOpt.Motion.Sweep
import SsaOpt.Proofs.Simulation

/-! Moving one instruction to another block: what the edit does, when the result is well formed,
and when it has the same runs. -/

namespace SsaOpt

/-- In a list without repetition, what stands after `x` is what `x` stands before. -/
theorem mem_back_iff_mem_pre {α : Type} {x i : α} {front back pre post : List α}
    (hnodup : (front ++ x :: back).Nodup) (h : front ++ x :: back = pre ++ i :: post) :
    i ∈ back ↔ x ∈ pre := by
  constructor
  · intro hi
    obtain ⟨l₁, l₂, rfl⟩ := List.append_of_mem hi
    have hsplit : front ++ x :: (l₁ ++ i :: l₂) = (front ++ x :: l₁) ++ i :: l₂ := by simp
    obtain ⟨rfl, -⟩ := split_unique (hsplit ▸ hnodup) (hsplit ▸ h)
    simp
  · intro hx
    obtain ⟨l₁, l₂, rfl⟩ := List.append_of_mem hx
    have hsplit : (l₁ ++ x :: l₂) ++ i :: post = l₁ ++ x :: (l₂ ++ i :: post) := by simp
    obtain ⟨-, rfl⟩ := split_unique hnodup (h.trans hsplit)
    simp

namespace Func

variable {f g : Func} {x i d t : InstId} {b c : BlockId} {front back pre post : List InstId}

/-- `g` is `f` with `x` taken out of its block and put into `b` between two parts of its list. -/
structure Relocated (f : Func) (x : InstId) (b : BlockId) (front back : List InstId) (g : Func) :
    Prop where
  size : g.numBlocks = f.numBlocks
  consistent : g.Consistent
  bare : ∀ j, g.bare? j =
    if x = j then (f.bare? j).map fun z => { z with home := some b } else f.bare? j
  uses : ∀ d, g.usesOf d = f.usesOf d
  split : (f.listOf b).filter (· ≠ x) = front ++ back
  lists : ∀ c, g.listOf c = if b = c then front ++ x :: back else (f.listOf c).filter (· ≠ x)
  signature : g.signature = f.signature

theorem Detached.relocated {m : Func} (hf : f.Consistent) (hd : Detached f x m)
    (hp : Placed m x b front back g) : Relocated f x b front back g where
  size := hp.size.trans hd.size
  consistent := (hf.detached hd).placed hp
  bare j := by
    rw [hp.bare, hd.bare]
    split
    · rw [Option.map_map]; rfl
    · rfl
  uses d := (hp.uses d).trans (hd.uses d)
  split := (hd.lists b).symm.trans hp.split
  lists e := by rw [hp.lists, hd.lists]
  signature := hp.signature.trans hd.signature

theorem mem_users_iff (hf : f.Consistent) : i ∈ Motion.users f x ↔ x ∈ f.reads i := by
  have husers : Motion.users f x = (f.usesOf x).map Use.user := by
    unfold Motion.users usesOf
    cases f.insts[x.index]? <;> rfl
  rw [husers, List.mem_map, mem_reads_iff]
  constructor
  · rintro ⟨⟨_, k⟩, hu, rfl⟩
    exact ⟨k, (hf.mem_uses x _).mp hu⟩
  · intro ⟨k, hk⟩
    exact ⟨⟨i, k⟩, (hf.mem_uses x _).mpr hk, rfl⟩

namespace Relocated

variable (h : Relocated f x b front back g)
include h

theorem filter_lists (c : BlockId) : (g.listOf c).filter (· ≠ x) = (f.listOf c).filter (· ≠ x) := by
  rw [h.lists]
  split
  · next hbc =>
    have hsplit := congrArg (List.filter (· ≠ x)) h.split
    rw [List.filter_filter, List.filter_append] at hsplit
    rw [← hbc, List.filter_append, List.filter_cons_of_neg (by simp), ← hsplit]
    exact List.filter_congr fun i _ => Bool.and_self _
  · rw [List.filter_filter]
    exact List.filter_congr fun i _ => Bool.and_self _

theorem op?_eq (i : InstId) : g.op? i = f.op? i := by
  unfold op?
  rw [h.bare]
  split
  · rw [Option.map_map]; rfl
  · rfl

theorem operandsOf_eq (i : InstId) : g.operandsOf i = f.operandsOf i := by
  unfold operandsOf
  rw [h.bare]
  split
  · cases f.bare? i <;> rfl
  · rfl

theorem reads_eq (i : InstId) : g.reads i = f.reads i := by
  rw [Func.reads_eq, Func.reads_eq, h.operandsOf_eq]

theorem live_eq (i : InstId) : g.live i = f.live i := by
  rw [Func.live, Func.live, h.bare]
  split
  · cases f.bare? i <;> rfl
  · rfl

theorem mem_list_self : x ∈ g.listOf c ↔ b = c := by
  rw [h.lists]
  split
  · next hbc => simp [hbc]
  · next hbc => simp [hbc]

theorem list_dest : g.listOf b = front ++ x :: back := by rw [h.lists, if_pos rfl]

/-- In the block that `x` comes to it stands before what it is to stand before. -/
theorem mem_back_iff (hb : g.listOf b = pre ++ i :: post) : i ∈ back ↔ x ∈ pre := by
  have hnodup := h.consistent.list_nodup b
  rw [h.list_dest] at hnodup hb
  exact mem_back_iff_mem_pre hnodup hb

theorem split_self (hc : g.listOf c = pre ++ x :: post) : b = c ∧ front = pre ∧ back = post := by
  obtain rfl := h.mem_list_self.mp (by rw [hc]; simp : x ∈ g.listOf c)
  have hnodup := h.consistent.list_nodup b
  rw [h.list_dest] at hnodup hc
  exact ⟨rfl, split_unique hnodup hc⟩

/-- Something stands after `x`, so the blocks end as before. -/
theorem agreeOff (hf : f.Housed) (hx : ¬f.ends x) (hback : back ≠ []) : AgreeOff f g x where
  size := h.size
  op := h.op?_eq
  lists := h.filter_lists
  last c := by
    refine getLast?_eq_of_filter_eq hf hx (h.filter_lists c) fun hlast => ?_
    obtain ⟨init, hinit⟩ := List.getLast?_eq_some_iff.mp hlast
    obtain ⟨-, -, hnil⟩ := h.split_self hinit
    exact hback hnil

theorem ends_iff (hf : f.Housed) (hx : ¬f.ends x) (hback : back ≠ [])
    (hc : g.listOf c = pre ++ i :: post) : g.ends i = true ↔ post = [] := by
  have hag := h.agreeOff hf hx hback
  by_cases hi : i = x
  · subst hi
    obtain ⟨-, -, rfl⟩ := h.split_self hc
    rw [hag.ends_eq]
    exact iff_of_false hx hback
  · exact hag.ends_iff hf h.consistent hi hc

/-- Between its definitions and its users an instruction may stand in any block, as long as the
order within blocks does not matter. -/
theorem housed (hf : f.Housed) (hx : ¬f.ends x) (hback : back ≠ [])
    (hdefs : ∀ d ∈ f.reads x, ∃ home, d ∈ f.listOf home ∧ f.Dom home b)
    (husers : ∀ i c, i ∈ f.listOf c → x ∈ f.reads i → f.Dom b c) : g.Housed := by
  have hag := h.agreeOff hf hx hback
  refine ⟨h.consistent, hag.target_lt hf, h.size ▸ hf.entry_lt, hag.list_ne_nil hf,
    h.ends_iff hf hx hback, ?_⟩
  intro c i d hc hi hphi hread
  rw [hag.reached_eq] at hc
  rw [hag.isPhi_eq] at hphi
  rw [h.reads_eq] at hread
  rw [hag.dom_eq]
  by_cases hd : d = x
  · subst hd
    refine ⟨b, h.mem_list_self.mpr rfl, ?_⟩
    by_cases hid : i = d
    · subst hid
      obtain rfl := h.mem_list_self.mp hi
      exact .refl hc
    · exact husers i c ((hag.mem_list_iff hid).mp hi) hread
  · obtain ⟨home, hhome, hdom⟩ : ∃ home, d ∈ f.listOf home ∧ f.Dom home c := by
      by_cases hix : i = x
      · subst hix
        exact h.mem_list_self.mp hi ▸ hdefs d hread
      · exact hf.home_dom hc ((hag.mem_list_iff hix).mp hi) hphi hread
    exact ⟨home, (hag.mem_list_iff hd).mpr hhome, hdom⟩

theorem homeOf_eq (hx : x ∈ f.listOf c) (hf : f.Consistent) (i : InstId) :
    g.homeOf i = if x = i then some b else f.homeOf i := by
  unfold homeOf
  rw [h.bare]
  split
  · next hxi =>
    obtain ⟨z, hz⟩ := hf.bare?_of_mem hx
    rw [← hxi, hz]
    rfl
  · rfl

end Relocated

/-- A pure instruction may move to a block in which its operands are defined before it, and which
dominates all its users; no phi may read it. -/
structure Legal (f : Func) (x : InstId) (source dest : BlockId) (front back : List InstId) :
    Prop where
  mem_source : x ∈ f.listOf source
  source_ne : source ≠ dest
  reached : f.Reached source
  pure : ∀ {op}, f.op? x = some op → op.isPure
  back_ne_nil : back ≠ []
  back_not_phi : ∀ i ∈ back, ¬f.isPhi i
  defs : ∀ d ∈ f.reads x, ∃ home, d ∈ f.listOf home ∧ f.Dom home dest ∧ (home = dest → d ∈ front)
  users : ∀ i c, i ∈ f.listOf c → x ∈ f.reads i →
    ¬f.isPhi i ∧ f.Dom dest c ∧ (c = dest → i ∈ back)

namespace Legal

variable {source dest : BlockId} (hf : f.Valid) (hl : Legal f x source dest front back)
  (h : Relocated f x dest front back g)
include hf hl

theorem not_reads_self : x ∉ f.reads x :=
  hf.not_reads_self hl.reached hl.mem_source (not_isPhi_of_pure hl.pure)

include h

theorem agreeOff : AgreeOff f g x := h.agreeOff hf.housed (not_ends_of_pure hl.pure) hl.back_ne_nil

theorem phis_first (hc : g.listOf c = pre ++ i :: post) (hi : g.isPhi i) :
    ∀ j ∈ pre, g.isPhi j := by
  intro j hj
  have hphi := hi
  rw [(hl.agreeOff hf h).isPhi_eq] at hphi
  have hix : i ≠ x := fun hix => not_isPhi_of_pure hl.pure (hix ▸ hphi)
  by_cases hjx : j = x
  · subst hjx
    obtain rfl := h.mem_list_self.mp (by rw [hc]; simp [hj] : j ∈ g.listOf c)
    exact absurd hphi (hl.back_not_phi i ((h.mem_back_iff hc).mpr hj))
  · exact (hl.agreeOff hf h).phis_first hf hix hc hi hjx hj

theorem ends_iff (hc : g.listOf c = pre ++ i :: post) : g.ends i = true ↔ post = [] :=
  h.ends_iff hf.housed (not_ends_of_pure hl.pure) hl.back_ne_nil hc

theorem reads (hreach : g.Reached c) (hc : g.listOf c = pre ++ i :: post) (hphi : ¬g.isPhi i)
    (hd : d ∈ g.reads i) : g.Avail c pre d := by
  have hag := hl.agreeOff hf h
  rw [hag.reached_eq] at hreach
  rw [hag.isPhi_eq] at hphi
  rw [h.reads_eq] at hd
  by_cases hi : i = x
  · subst hi
    obtain ⟨rfl, rfl, -⟩ := h.split_self hc
    obtain ⟨home, hhome, hdom, hfront⟩ := hl.defs d hd
    have hdi : d ≠ i := fun hdi => hl.not_reads_self hf (hdi ▸ hd)
    by_cases hb : home = dest
    · exact .inl (hfront hb)
    · exact .inr ⟨home, (hag.mem_list_iff hdi).mpr hhome, hb, hag.dom_eq ▸ hdom⟩
  · obtain ⟨pre₀, post₀, hc₀, hpre⟩ := exists_split_of_filter_eq (hag.lists c) hi hc
    by_cases hdx : d = x
    · subst hdx
      obtain ⟨-, hdom, hback⟩ := hl.users i c (by simp [hc₀]) hd
      by_cases hb : c = dest
      · subst hb
        exact .inl ((h.mem_back_iff hc).mp (hback rfl))
      · exact .inr ⟨dest, h.mem_list_self.mpr rfl, fun hb' => hb hb'.symm, hag.dom_eq ▸ hdom⟩
    · exact hag.avail hpre hdx (hf.reads hreach hc₀ hphi hd)

theorem incoming {op : Opcode} {bs : List BlockId} {k : Nat} {p : BlockId}
    (hreach : g.Reached c) (hi : i ∈ g.listOf c) (hop : g.op? i = some op)
    (hbs : op.incoming? = some bs) (hp : bs[k]? = some p) (hd : g.slot ⟨i, k⟩ = some (.inst d))
    (hrp : g.Reached p) : ∃ home, d ∈ g.listOf home ∧ g.Dom home p := by
  have hag := hl.agreeOff hf h
  rw [hag.reached_eq] at hreach hrp
  rw [hag.op] at hop
  rw [slot, h.operandsOf_eq, ← slot] at hd
  have hphi : f.isPhi i := isPhi_of_incoming hop hbs
  have hix : i ≠ x := fun hix => not_isPhi_of_pure hl.pure (hix ▸ hphi)
  have hi₀ := (hag.mem_list_iff hix).mp hi
  have hdx : d ≠ x := by
    intro hdx
    exact (hl.users i c hi₀ (mem_reads_iff.mpr ⟨k, hdx ▸ hd⟩)).1 hphi
  obtain ⟨home, hhome, hdom⟩ := hf.incoming hreach hi₀ hop hbs hp hd hrp
  exact ⟨home, (hag.mem_list_iff hdx).mpr hhome, hag.dom_eq ▸ hdom⟩

theorem live {z : Instruction} (hi : i ∈ g.listOf c) (hz : g.bare? i = some z) :
    z.erased = false := by
  by_cases hix : x = i
  · subst hix
    obtain ⟨w, hw, hwz⟩ : ∃ w, f.bare? x = some w ∧ { w with home := some dest } = z := by
      simpa [h.bare] using hz
    rw [← hwz]
    show w.erased = false
    exact hf.live hl.mem_source hw
  · rw [h.bare, if_neg hix] at hz
    exact hf.live (((hl.agreeOff hf h).mem_list_iff fun hxi => hix hxi.symm).mp hi) hz

/-- A legal move keeps a function well formed. -/
theorem valid : g.Valid where
  consistent := h.consistent
  target_lt := (hl.agreeOff hf h).target_lt hf.housed
  entry_lt := h.size ▸ hf.entry_lt
  list_ne_nil := (hl.agreeOff hf h).list_ne_nil hf.housed
  live := hl.live hf h
  phis_first := hl.phis_first hf h
  ends_iff := hl.ends_iff hf h
  reads := hl.reads hf h
  incoming := hl.incoming hf h

/-! ## Runs -/

open Interpretation in
/-- A legal move keeps every run that does not trap, if `x` cannot trap or does not move above the
block that it was in. -/
theorem rewrites {I : Interpretation} {args : Nat → I.Value}
    (hcalm : (∀ z regs, f.bare? x = some z →
      ∃ v, I.compute z.op z.ty (I.inputs args regs z) = some v) ∨ f.Dom source dest) :
    Rewrites I args (fun e => e.isTrap = false) f g x x := by
  have hsubst : ∀ os : List Operand, os.map (Operand.subst x (.inst x)) = os := by
    intro os
    refine (List.map_congr_left fun o _ => ?_).trans (List.map_id _)
    unfold Operand.subst
    split
    · next ho => exact ho.symm
    · rfl
  have hbare : ∀ {z}, g.bare? x = some z →
      ∃ w, f.bare? x = some w ∧ { w with home := some dest } = z := by
    intro z hz
    simpa [h.bare] using hz
  have hpure : ∀ {w}, f.bare? x = some w → w.op.isPure := fun {w} hw =>
    hl.pure (show f.op? x = some w.op by simp [op?, hw])
  -- the operands of `x` are never `x` itself, so both functions agree on them
  have hinputs : ∀ {c pre pre' s s' w}, Level I args f g x c pre pre' s s' →
      f.bare? x = some w →
      I.inputs args s'.regs { w with home := some dest } = I.inputs args s.regs w := by
    intro c pre pre' s s' w hlev hw
    refine inputs_congr fun d hd => hlev.regs d fun hdx => ?_
    exact hl.not_reads_self hf ((mem_reads_iff_of_bare hw).mpr (hdx ▸ hd))
  refine ⟨hf, hl.valid hf h, hl.agreeOff hf h, ?_, hl.pure, ?_, ?_, ?_⟩
  · intro i z hi hz
    rw [h.bare, if_neg fun hxi => hi hxi.symm, hz, hsubst]
  · intro c pre pre' s s' hlev hx hx'
    obtain ⟨w, hw⟩ := hf.consistent.bare?_of_mem hl.mem_source
    have hw' : g.bare? x = some { w with home := some dest } := by simp [h.bare, hw]
    have heq := hlev.sound x w hx hw (hpure hw)
    have heq' := hlev.sound' x _ hx' hw' (show w.op.isPure from hpure hw)
    rw [hinputs hlev hw] at heq'
    exact Option.some.inj (heq'.symm.trans heq)
  · intro c pre post s z _ _ _ _ hP
    cases hP
  · intro c pre pre' post s s' z hlev hc hz
    obtain ⟨w, hw, rfl⟩ := hbare hz
    rw [hinputs hlev hw]
    rcases hcalm with hnever | hdom
    · exact hnever w _ hw
    · obtain ⟨rfl, -, -⟩ := h.split_self hc
      exact ⟨_, hlev.sound x w (.inr ⟨source, hl.mem_source, hl.source_ne, hdom⟩) hw (hpure hw)⟩

end Legal

end Func

end SsaOpt
