import SsaOpt.Proofs.Chain
import SsaOpt.Proofs.Schedule

/-! Code motion changes where instructions stand and nothing else. This needs no order within
blocks, so it also holds of functions in which an instruction reads a terminator. -/

namespace SsaOpt.Motion

open Func

variable {f g : Func} {a : Analysis} {rank : BlockId → Nat} {x : InstId} {st : Setting}
  {p q : Progress} {depth : BlockId → Nat} {policy : Placement}

/-! ## What moves keep -/

/-- The functions differ only in where their instructions stand. -/
structure Rehomed (f g : Func) : Prop where
  housed : g.Housed
  size : g.numBlocks = f.numBlocks
  op : ∀ i, g.op? i = f.op? i
  operands : ∀ i, g.operandsOf i = f.operandsOf i
  uses : ∀ d, g.usesOf d = f.usesOf d
  edge : g.Edge = f.Edge
  placed : ∀ {i}, i ∈ g.placed ↔ i ∈ f.placed
  analysis : ∀ {a}, Analysis.ofFunc f = .ok a → Analysis.ofFunc g = .ok a

namespace Rehomed

theorem refl (hf : f.Housed) : Rehomed f f :=
  ⟨hf, rfl, fun _ => rfl, fun _ => rfl, fun _ => rfl, rfl, .rfl, id⟩

theorem trans {k : Func} (hfg : Rehomed f g) (hgk : Rehomed g k) : Rehomed f k where
  housed := hgk.housed
  size := hgk.size.trans hfg.size
  op i := (hgk.op i).trans (hfg.op i)
  operands i := (hgk.operands i).trans (hfg.operands i)
  uses d := (hgk.uses d).trans (hfg.uses d)
  edge := hgk.edge.trans hfg.edge
  placed := hgk.placed.trans hfg.placed
  analysis ha := hgk.analysis (hfg.analysis ha)

variable (h : Rehomed f g)
include h

theorem reads (i : InstId) : g.reads i = f.reads i := by
  rw [reads_eq, reads_eq, h.operands]

theorem describes (hd : a.Describes f rank) : a.Describes g rank := hd.congr h.edge h.size

theorem isPhi_eq (i : InstId) : g.isPhi i = f.isPhi i := by
  rw [Func.isPhi_eq, Func.isPhi_eq, h.op]

theorem reached_eq : g.Reached = f.Reached := by
  funext b
  rw [Reached, Reached, h.edge]

theorem dom_eq : g.Dom = f.Dom := by
  funext b c
  rw [Dom, Dom, h.edge]

theorem loose_iff : Loose g x ↔ Loose f x := by
  constructor
  · intro hx
    refine ⟨fun hop => hx.floats ((h.op x).trans hop), fun {i} hread => ?_⟩
    rw [← h.isPhi_eq]
    exact hx.not_phi ((h.reads i).symm ▸ hread)
  · intro hx
    refine ⟨fun hop => hx.floats ((h.op x).symm.trans hop), fun {i} hread => ?_⟩
    rw [h.isPhi_eq]
    exact hx.not_phi (h.reads i ▸ hread)

theorem floating_iff {i : InstId} : g.Floating i ↔ f.Floating i := by
  rw [Floating, Floating, h.placed, h.op]

theorem feeds_eq : g.Feeds = f.Feeds := by
  funext d i
  rw [eq_iff_iff]
  constructor
  · exact fun hd => ⟨h.floating_iff.mp hd.source, h.floating_iff.mp hd.target, h.reads i ▸ hd.reads⟩
  · intro hd
    exact ⟨h.floating_iff.mpr hd.source, h.floating_iff.mpr hd.target, (h.reads i).symm ▸ hd.reads⟩

theorem acyclic_iff : g.Acyclic ↔ f.Acyclic := by
  rw [Acyclic, Acyclic, h.feeds_eq]

/-- The same instructions are pinned, whatever order they are taken in. -/
theorem pinned_iff (hf : f.Consistent) {i : InstId} : g.Pinned i ↔ f.Pinned i := by
  have htouch : ∀ i, touchesPhi g i ↔ touchesPhi f i := by
    intro i
    simp only [touchesPhi_iff hf, touchesPhi_iff h.housed.consistent, h.reads, h.isPhi_eq]
  simp only [Pinned, h.feeds_eq, htouch]

end Rehomed

/-- A move that a decision asks for changes the home of one instruction. -/
theorem relocate_rehomed {s : Site} (hf : f.Housed) (hd : a.Describes f rank) (hx : Loose f x)
    (hdec : decision a depth policy f x = .ok (.site s)) (h : relocate f x s.chosen = .ok g) :
    Rehomed f g ∧ f.homeOf x = some s.current ∧
      ∀ i, g.homeOf i = if x = i then some s.chosen else f.homeOf i := by
  have hc := decision_spec hdec
  obtain ⟨front, t, back, hrel, -⟩ := relocate_spec hf hx.not_ends_self h
  have hag := hrel.agreeOff hf hx.not_ends_self (by simp)
  obtain ⟨hdefs, husers, -⟩ := hc.dest_spec hf hd fun i => hx.not_phi
  have hmem := hc.mem_current hf
  have hhoused := hrel.housed hf hx.not_ends_self (by simp) hdefs husers
  refine ⟨⟨hhoused, hrel.size, hrel.op?_eq, hrel.operandsOf_eq, hrel.uses, hag.edge_eq, ?_,
    hag.analysis hf⟩, hc.home, hrel.homeOf_eq hmem hf.consistent⟩
  intro i
  simp only [mem_placed_iff]
  by_cases hi : i = x
  · subst hi
    exact iff_of_true ⟨_, hrel.mem_list_self.mpr rfl⟩ ⟨_, hmem⟩
  · simp only [hag.mem_list_iff hi]

theorem carryOut_rehomed {d : Decision} (hf : p.func.Housed) (hd : a.Describes p.func rank)
    (hx : Loose p.func x) (hdec : decision a depth policy p.func x = .ok d)
    (h : carryOut p x d = .ok q) : Rehomed p.func q.func := by
  rcases carryOut_cases h with ⟨-, heq, -⟩ | ⟨s, rfl, -, hg, -⟩
  · rw [heq]
    exact .refl hf
  · exact (relocate_rehomed hf hd hx hdec hg).1

/-! ## Sweeps -/

theorem placeAll_rehomed {is : List InstId} {r : Option Rejection}
    (hd : st.analysis.Describes f rank) (hp : Rehomed f p.func) (his : ∀ x ∈ is, Loose f x)
    (h : placeAll st is p = .ok (q, r)) : Rehomed f q.func := by
  refine placeAll_keeps (P := fun p => Rehomed f p.func) (fun x hx hp hdec hq => ?_) hp h
  have hx := hp.loose_iff.mpr (his x hx)
  exact hp.trans (carryOut_rehomed hp.housed (hp.describes hd) hx hdec hq)

theorem sweep_rehomed {r : Option Rejection} (hd : st.analysis.Describes p.func rank)
    (hp : p.func.Housed) (h : sweep st p = .ok (q, r)) : Rehomed p.func q.func := by
  rw [sweep_eq] at h
  obtain ⟨is, his, h⟩ := bind_eq_ok_iff.mp h
  exact placeAll_rehomed hd (.refl hp) (fun x hx => (loose_of_schedule hp.consistent his hx).2) h

theorem sweeps_rehomed {limit n : Nat} {r : Option Rejection} (hd : st.analysis.Describes f rank)
    (hp : Rehomed f p.func) (h : sweeps st limit n p = .ok (q, r)) : Rehomed f q.func := by
  refine sweeps_keeps (P := fun p => Rehomed f p.func) id (fun hp hq => ?_) n hp h
  exact hp.trans (sweep_rehomed (hp.describes hd) hp.housed hq)

end SsaOpt.Motion
