import SsaOpt.Remark
import SsaOpt.Proofs.Simulation

/-! Deleting one instruction in favour of another: what the edit does, when the result is well
formed, and when it has the same runs. -/

namespace SsaOpt

namespace Func

variable {f g : Func} {x e i d : InstId} {b c : BlockId} {pre post : List InstId}

/-- `g` is `f` without `x`, and what read `x` reads `e`. -/
structure Replaced (f : Func) (x e : InstId) (g : Func) : Prop where
  size : g.numBlocks = f.numBlocks
  consistent : g.Consistent
  bare : ∀ j, g.bare? j = if x = j then
      (f.bare? j).map fun z => { z with operands := [], home := none, erased := true }
    else (f.bare? j).map fun z => { z with operands := z.operands.map (Operand.subst x (.inst e)) }
  lists : ∀ c, g.listOf c = (f.listOf c).filter (· ≠ x)
  signature : g.signature = f.signature

theorem Erased.replaced {m : Func} {n : Nat} (hf : f.Consistent) (hne : e ≠ x)
    (hm : f.replaceUses x (.inst e) = .ok (n, m)) (hg : Erased m x g) : Replaced f x e g := by
  obtain ⟨hblocks, hbare, -⟩ := replaceUses_spec hf (by simpa using hne) hm
  refine ⟨?_, (hf.replaceUses hm).erased hg, fun j => ?_, fun c => ?_,
    hg.signature.trans (replaceUses_signature hm)⟩
  · rw [hg.size, numBlocks, hblocks, ← numBlocks]
  · rw [hg.bare, hbare, Option.map_map]
    rfl
  · rw [hg.lists, listOf, hblocks, ← listOf]

/-- An instruction can be deleted in favour of any other. -/
theorem replaceBy_spec {p : Progress} (hp : p.func.Consistent) (hx : (p.func.bare? x).isSome)
    (he : (p.func.bare? e).isSome) (hne : e ≠ x) :
    ∃ q, p.replaceBy x e = .ok q ∧ Replaced p.func x e q.func ∧ q.changes = p.changes + 1 ∧
      q.remarks = p.remarks := by
  obtain ⟨n, m, hm⟩ := exists_replaceUses hp hx (o := .inst e) fun d hd =>
    Operand.inst.inj hd ▸ he
  obtain ⟨-, hbare, huses⟩ := replaceUses_spec hp (by simpa using hne) hm
  obtain ⟨g, hg⟩ := exists_erase (hp.replaceUses hm) (i := x) (by simpa [hbare] using hx)
    (by rw [huses, if_pos rfl])
  refine ⟨{ p with func := g, changes := p.changes + 1 }, ?_, ?_, rfl, rfl⟩
  · exact bind_eq_ok_iff.mpr ⟨(n, m), hm, bind_eq_ok_iff.mpr ⟨g, hg, rfl⟩⟩
  · exact (erase_spec (hp.replaceUses hm) hg).replaced hp hne hm

namespace Replaced

variable (h : Replaced f x e g)
include h

theorem op?_eq (j : InstId) : g.op? j = f.op? j := by
  unfold op?
  rw [h.bare]
  split <;> rw [Option.map_map] <;> rfl

theorem not_mem_list : x ∉ g.listOf c := by simp [h.lists]

theorem filter_lists (c : BlockId) : (g.listOf c).filter (· ≠ x) = (f.listOf c).filter (· ≠ x) := by
  rw [h.lists, List.filter_filter]
  exact List.filter_congr fun i _ => Bool.and_self _

theorem agreeOff (hf : f.Housed) (hx : ¬f.ends x) : AgreeOff f g x where
  size := h.size
  op := h.op?_eq
  lists := h.filter_lists
  last c := getLast?_eq_of_filter_eq hf hx (h.filter_lists c) fun hlast =>
    h.not_mem_list (List.mem_of_getLast? hlast)

theorem bare_of_ne {z : Instruction} (hi : i ≠ x) (hz : f.bare? i = some z) :
    g.bare? i = some { z with operands := z.operands.map (Operand.subst x (.inst e)) } := by
  rw [h.bare, if_neg fun hxi => hi hxi.symm, hz]
  rfl

theorem slot_eq (hi : i ≠ x) (k : Nat) :
    g.slot ⟨i, k⟩ = (f.slot ⟨i, k⟩).map (Operand.subst x (.inst e)) := by
  unfold slot operandsOf
  rw [h.bare, if_neg fun hxi => hi hxi.symm]
  cases f.bare? i <;> simp

theorem slot_eq_inst_iff (hi : i ≠ x) {k : Nat} : g.slot ⟨i, k⟩ = some (.inst d) ↔
    f.slot ⟨i, k⟩ = some (.inst x) ∧ d = e ∨ d ≠ x ∧ f.slot ⟨i, k⟩ = some (.inst d) := by
  rw [h.slot_eq hi, Option.map_eq_some_iff]
  constructor
  · intro ⟨o, ho, hsubst⟩
    rw [ho]
    rcases subst_eq_inst_iff.mp hsubst with ⟨rfl, hed⟩ | ⟨hox, rfl⟩
    · exact .inl ⟨rfl, (Operand.inst.inj hed).symm⟩
    · exact .inr ⟨fun hdx => hox (by rw [hdx]), rfl⟩
  · rintro (⟨ho, rfl⟩ | ⟨hdx, ho⟩)
    · exact ⟨_, ho, subst_eq_inst_iff.mpr (.inl ⟨rfl, rfl⟩)⟩
    · exact ⟨_, ho, subst_eq_inst_iff.mpr (.inr ⟨by simpa using hdx, rfl⟩)⟩

theorem mem_reads_iff (hi : i ≠ x) :
    d ∈ g.reads i ↔ x ∈ f.reads i ∧ d = e ∨ d ≠ x ∧ d ∈ f.reads i := by
  simp only [Func.mem_reads_iff, h.slot_eq_inst_iff hi, exists_or, exists_and_right,
    exists_and_left]

theorem reads_self : g.reads x = [] := by
  rw [Func.reads_eq, operandsOf, h.bare, if_pos rfl]
  cases f.bare? x <;> rfl

theorem length_operandsOf (hi : i ≠ x) : (g.operandsOf i).length = (f.operandsOf i).length := by
  rw [operandsOf, operandsOf, h.bare, if_neg fun hxi => hi hxi.symm]
  cases f.bare? i <;> simp

theorem live_iff : g.live i ↔ i ≠ x ∧ f.live i := by
  rw [Func.live, Func.live, h.bare]
  split
  · next hxi => cases f.bare? i <;> simp [hxi]
  · next hxi =>
    have hix : i ≠ x := fun hix => hxi hix.symm
    cases f.bare? i <;> simp [hix]

theorem live (hf : f.Valid) {z : Instruction} (hi : i ∈ g.listOf c) (hz : g.bare? i = some z) :
    z.erased = false := by
  have hix : x ≠ i := by
    intro hix
    exact h.not_mem_list (hix ▸ hi)
  rw [h.bare, if_neg hix, Option.map_eq_some_iff] at hz
  obtain ⟨w, hw, rfl⟩ := hz
  rw [h.lists] at hi
  show w.erased = false
  exact hf.live (List.mem_filter.mp hi).1 hw

end Replaced

/-- Where `x` stands, after the instructions `pre` of a block, `e` is available. -/
structure Redundant (f : Func) (x e : InstId) (b : BlockId) (pre post : List InstId) : Prop where
  reached : f.Reached b
  split : f.listOf b = pre ++ x :: post
  avail : f.Avail b pre e
  not_end : ¬f.ends x

namespace Redundant

variable (hf : f.Valid) (hr : Redundant f x e b pre post) (h : Replaced f x e g)

include hr in
theorem mem : x ∈ f.listOf b := by simp [hr.split]

include hr in
/-- The instruction kept stands in a block that dominates the one of the instruction deleted. -/
theorem exists_home : ∃ home, e ∈ f.listOf home ∧ f.Dom home b := by
  rcases hr.avail with he | ⟨home, he, -, hdom⟩
  · exact ⟨b, by simp [hr.split, he], .refl hr.reached⟩
  · exact ⟨home, he, hdom⟩

include hf hr

theorem ne : e ≠ x := hr.avail.ne_of_next hf hr.split

/-- Wherever `x` is available `e` is. -/
theorem avail_of_avail {pre' post' : List InstId} (hc : f.listOf c = pre' ++ post')
    (hx : f.Avail c pre' x) : f.Avail c pre' e := by
  rcases hx with hx | ⟨home, hx, hne, hdom⟩
  · obtain ⟨l₁, l₂, rfl⟩ := List.append_of_mem hx
    obtain rfl := hf.consistent.home_unique hr.mem (by simp [hc] : x ∈ f.listOf c)
    have hnodup := hf.consistent.list_nodup b
    rw [hr.split] at hnodup hc
    obtain ⟨rfl, -⟩ := split_unique hnodup (hc.trans (List.append_assoc ..))
    exact hr.avail.mono fun i hi => List.mem_append_left _ hi
  · obtain rfl := hf.consistent.home_unique hr.mem hx
    obtain ⟨home, he, hdom'⟩ := hr.exists_home
    refine .inr ⟨home, he, fun hhome => ?_, hdom'.trans hdom⟩
    exact hne (hdom.antisymm (hhome ▸ hdom'))

include h

theorem agreeOff : AgreeOff f g x := h.agreeOff hf.housed hr.not_end

theorem reads {pre' post' : List InstId} (hreach : g.Reached c)
    (hc : g.listOf c = pre' ++ i :: post') (hphi : ¬g.isPhi i) (hd : d ∈ g.reads i) :
    g.Avail c pre' d := by
  have hag := hr.agreeOff hf h
  rw [hag.reached_eq] at hreach
  rw [hag.isPhi_eq] at hphi
  have hi : i ≠ x := by
    intro hi
    exact h.not_mem_list (by simp [hc, ← hi] : x ∈ g.listOf c)
  obtain ⟨pre₀, post₀, hc₀, hpre⟩ := exists_split_of_filter_eq (hag.lists c) hi hc
  rcases (h.mem_reads_iff hi).mp hd with ⟨hx, rfl⟩ | ⟨hdx, hd⟩
  · exact hag.avail hpre (hr.ne hf) (hr.avail_of_avail hf hc₀ (hf.reads hreach hc₀ hphi hx))
  · exact hag.avail hpre hdx (hf.reads hreach hc₀ hphi hd)

theorem incoming {op : Opcode} {bs : List BlockId} {k : Nat} {p : BlockId}
    (hreach : g.Reached c) (hi : i ∈ g.listOf c) (hop : g.op? i = some op)
    (hbs : op.incoming? = some bs) (hp : bs[k]? = some p) (hd : g.slot ⟨i, k⟩ = some (.inst d))
    (hrp : g.Reached p) : ∃ home, d ∈ g.listOf home ∧ g.Dom home p := by
  have hag := hr.agreeOff hf h
  rw [hag.reached_eq] at hreach hrp
  rw [hag.op] at hop
  have hix : i ≠ x := by
    intro hix
    exact h.not_mem_list (hix ▸ hi)
  have hi₀ := (hag.mem_list_iff hix).mp hi
  rcases (h.slot_eq_inst_iff hix).mp hd with ⟨hx, rfl⟩ | ⟨hdx, hd⟩
  · obtain ⟨home, hhome, hdom⟩ := hf.incoming hreach hi₀ hop hbs hp hx hrp
    obtain rfl := hf.consistent.home_unique hr.mem hhome
    obtain ⟨home, he, hdom'⟩ := hr.exists_home
    exact ⟨home, (hag.mem_list_iff (hr.ne hf)).mpr he, hag.dom_eq ▸ hdom'.trans hdom⟩
  · obtain ⟨home, hhome, hdom⟩ := hf.incoming hreach hi₀ hop hbs hp hd hrp
    exact ⟨home, (hag.mem_list_iff hdx).mpr hhome, hag.dom_eq ▸ hdom⟩

/-- Deleting a redundant instruction keeps a function well formed. -/
theorem valid : g.Valid := by
  have hag := hr.agreeOff hf h
  have hne : ∀ {c pre i post}, g.listOf c = pre ++ i :: post → i ≠ x := by
    intro c pre i post hc hix
    exact h.not_mem_list (by simp [hc, ← hix] : x ∈ g.listOf c)
  exact {
    consistent := h.consistent
    target_lt := hag.target_lt hf.housed
    entry_lt := h.size ▸ hf.entry_lt
    list_ne_nil := hag.list_ne_nil hf.housed
    live := h.live hf
    phis_first := by
      intro c pre i post hc hi j hj
      obtain ⟨l₁, l₂, rfl⟩ := List.append_of_mem hj
      exact hag.phis_first hf (hne hc) hc hi (hne (hc.trans (List.append_assoc ..))) hj
    ends_iff := fun hc => hag.ends_iff hf.housed h.consistent (hne hc) hc
    reads := hr.reads hf h
    incoming := hr.incoming hf h }

open Interpretation in
/-- Deleting an instruction in favour of one that computes the same value keeps every run. -/
theorem rewrites {I : Interpretation} {args : Nat → I.Value} {z w : Instruction}
    (hz : f.bare? x = some z) (hw : f.bare? e = some w) (hpure : z.op.isPure) (hpure' : w.op.isPure)
    (hsame : ∀ regs, I.compute z.op z.ty (I.inputs args regs z) =
      I.compute w.op w.ty (I.inputs args regs w)) :
    Rewrites I args (fun _ => True) f g x e where
  source := hf
  target := hr.valid hf h
  agree := hr.agreeOff hf h
  others := h.bare_of_ne
  pure := by
    intro op hop
    rw [op?, hz] at hop
    exact Option.some.inj hop ▸ hpure
  bridge := by
    intro c pre' pre'' s s' hlev hx _
    obtain ⟨post', hc⟩ := hlev.split
    have hval := hlev.sound x z hx hz hpure
    have hval' := hlev.sound e w (hr.avail_of_avail hf hc hx) hw hpure'
    rw [hlev.regs e (hr.ne hf)]
    exact Option.some.inj ((hval'.symm.trans (hsame _).symm).trans hval)
  calm := by
    intro c pre' post' s y _ hc hsound hy _
    obtain rfl := Option.some.inj (hz.symm.trans hy)
    obtain rfl := hf.consistent.home_unique hr.mem (by simp [hc] : x ∈ f.listOf c)
    have hnodup := hf.consistent.list_nodup b
    rw [hr.split] at hnodup hc
    obtain ⟨rfl, -⟩ := split_unique hnodup hc
    exact ⟨_, (hsame _).trans (hsound e w hr.avail hw hpure')⟩
  calm' := by
    intro c pre' pre'' post' s s' y _ hc
    exact absurd (by simp [hc] : x ∈ g.listOf c) h.not_mem_list

end Redundant

end Func

end SsaOpt
