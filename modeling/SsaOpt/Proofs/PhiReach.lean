import Mathlib.Logic.Relation
import SsaOpt.Proofs.Pruning
import SsaOpt.Proofs.Search
import SsaOpt.Values.Numbering

/-! Whether a value depends on a phi. The search with known answers gives the answer that a search
without them would, and the answers that it keeps stay right while a pass deletes instructions that
it has not seen yet. -/

namespace SsaOpt

namespace Func

variable {f g g' : Func} {x e i : InstId} {seen : List InstId}

/-- The instruction is a phi, or reads one, directly or through other instructions. -/
def PhiBelow (f : Func) (i : InstId) : Prop :=
  ∃ d, Relation.ReflTransGen (fun i d => d ∈ f.reads i) i d ∧ f.isPhi d

theorem phiBelow_of_isPhi (h : f.isPhi i) : f.PhiBelow i := ⟨i, .refl, h⟩

theorem phiBelow_iff_of_not_isPhi (h : ¬f.isPhi i) :
    f.PhiBelow i ↔ ∃ d ∈ f.reads i, f.PhiBelow d := by
  constructor
  · intro h
    obtain ⟨d, hpath, hphi⟩ := h
    rcases Relation.ReflTransGen.cases_head hpath with rfl | ⟨j, hj, hpath⟩
    · exact absurd hphi h
    · exact ⟨j, hj, d, hpath, hphi⟩
  · intro h
    obtain ⟨j, hj, d, hpath, hphi⟩ := h
    exact ⟨d, .head hj hpath, hphi⟩

/-- Below an instruction that is no phi itself, the phi is reached in one step or more. -/
theorem PhiBelow.transGen (h : f.PhiBelow i) (hi : ¬f.isPhi i) :
    ∃ d, Relation.TransGen (fun i d => d ∈ f.reads i) i d ∧ f.isPhi d := by
  obtain ⟨j, hj, d, hpath, hphi⟩ := (phiBelow_iff_of_not_isPhi hi).mp h
  exact ⟨d, .head' hj hpath, hphi⟩

/-- What was seen reads only what was seen, up to phis, so deleting an unseen instruction does not
change what it depends on. -/
theorem Pruned.phiBelow_iff (hpr : Pruned f g seen) (hx : x ∉ seen) (hg : Replaced g x e g')
    (hi : i ∈ seen) : g'.PhiBelow i ↔ g.PhiBelow i := by
  have hphi : ∀ j, g'.isPhi j = g.isPhi j := fun j => by
    rw [Func.isPhi_eq, Func.isPhi_eq, hg.op?_eq]
  have hreads : ∀ {j}, j ∈ seen → ¬g.isPhi j → g'.reads j = g.reads j := by
    intro j hj hnot
    rw [reads_eq, reads_eq, operandsOf, operandsOf,
      hpr.bare_of_seen hx hg hj (hpr.isPhi_eq j ▸ hnot)]
  have hclosed : ∀ {j d}, j ∈ seen → ¬g.isPhi j → d ∈ g.reads j → d ∈ seen := fun hj hnot hd =>
    hpr.closed _ hj (hpr.isPhi_eq _ ▸ hnot) _ hd
  -- along a path the first phi decides, and up to it nothing has changed
  constructor
  · intro h
    obtain ⟨d, hpath, hd⟩ := h
    induction hpath using Relation.ReflTransGen.head_induction_on with
    | refl => exact phiBelow_of_isPhi (hphi d ▸ hd)
    | @head j k hk _ ih =>
      by_cases hj : g.isPhi j
      · exact phiBelow_of_isPhi hj
      · rw [hreads hi hj] at hk
        exact (phiBelow_iff_of_not_isPhi hj).mpr ⟨k, hk, ih (hclosed hi hj hk)⟩
  · intro h
    obtain ⟨d, hpath, hd⟩ := h
    induction hpath using Relation.ReflTransGen.head_induction_on with
    | refl => exact phiBelow_of_isPhi ((hphi d).symm ▸ hd)
    | @head j k hk _ ih =>
      by_cases hj : g.isPhi j
      · exact phiBelow_of_isPhi ((hphi j).symm ▸ hj)
      · have hj' : ¬g'.isPhi j := by rwa [hphi]
        refine (phiBelow_iff_of_not_isPhi hj').mpr ⟨k, ?_, ih (hclosed hi hj hk)⟩
        rwa [hreads hi hj]

/-- Whatever is read exists. -/
theorem Consistent.index_lt_of_reads {d : InstId} (hf : f.Consistent) (hd : d ∈ f.reads i) :
    d.index < f.insts.size := by
  obtain ⟨k, hk⟩ := mem_reads_iff.mp hd
  obtain ⟨z, hz⟩ := exists_inst_of_mem_uses ((hf.mem_uses d ⟨i, k⟩).mpr hk)
  exact (Array.getElem?_eq_some_iff.mp (inst_eq_ok_iff.mp hz)).1

end Func

namespace PhiMemo

open Func

variable {f : Func} {memo : PhiMemo} {root : InstId}

/-- All known answers are right. -/
def Sound (memo : PhiMemo) (f : Func) : Prop :=
  ∀ i answer, memo.find? i = some answer → (answer = true ↔ f.PhiBelow i)

/-- From what depends on a phi, the search comes to a phi or to a known answer. -/
theorem exists_hit {found : List InstId} {i : InstId} (hmemo : memo.Sound f)
    (hnext : ∀ j ∈ found, ∀ d ∈ memo.next f j, d ∈ found) (hi : i ∈ found) (h : f.PhiBelow i) :
    ∃ d ∈ found, memo.hits f d = true := by
  obtain ⟨d, hpath, hphi⟩ := h
  induction hpath using Relation.ReflTransGen.head_induction_on with
  | refl => exact ⟨d, hi, by simp [hits, hphi]⟩
  | @head j k hk hpath ih =>
    cases hknown : memo.find? j with
    | some answer =>
      obtain rfl : answer = true := (hmemo j answer hknown).mpr ⟨d, .head hk hpath, hphi⟩
      exact ⟨j, hi, by simp [hits, hknown]⟩
    | none => exact ih (hnext j hi k (by simpa [next, hknown] using hk))

/-- The search hits something exactly if there is a phi to be found. -/
theorem any_hits_iff (hf : f.Consistent) (hmemo : memo.Sound f)
    (hroot : root.index < f.insts.size) :
    (Search.reach (memo.next f) [] f.insts.size [root]).any (memo.hits f) = true ↔
      f.PhiBelow root := by
  have hnext : ∀ {i d}, d ∈ memo.next f i → d ∈ f.reads i := by
    intro i d hd
    unfold next at hd
    split at hd
    · cases hd
    · exact hd
  rw [List.any_eq_true]
  constructor
  · intro h
    obtain ⟨d, hd, hhit⟩ := h
    have hbelow : f.PhiBelow d := by
      unfold hits at hhit
      rcases (Bool.or_eq_true _ _).mp hhit with hphi | hknown
      · exact phiBelow_of_isPhi hphi
      · exact (hmemo d true (of_decide_eq_true hknown)).mp rfl
    have hpath : Relation.ReflTransGen (fun i d => d ∈ f.reads i) root d := by
      refine Search.forall_mem_reach (fun i hi j hj _ => hi.tail (hnext hj)) (fun i hi _ => ?_) d hd
      rw [List.mem_singleton.mp hi]
    obtain ⟨p, hpath', hphi⟩ := hbelow
    exact ⟨p, hpath.trans hpath', hphi⟩
  · intro h
    have hcov : Search.Covers (memo.next f) [] [root]
        (Search.reach (memo.next f) [] f.insts.size [root]) := by
      have hnode : ∀ {i : InstId}, i.index < f.insts.size →
          i ∈ (List.range f.insts.size).map InstId.mk := fun hi =>
        List.mem_map.mpr ⟨_, List.mem_range.mpr hi, rfl⟩
      refine Search.covers_reach (fun i _ j hj => hnode (hf.index_lt_of_reads (hnext hj)))
        (fun i hi => ?_) (by simp)
      rw [List.mem_singleton.mp hi]
      exact hnode hroot
    refine exists_hit hmemo (fun j hj d hd => ?_) ?_ h
    · exact (hcov.next j hj d hd).resolve_left List.not_mem_nil
    · exact (hcov.start root List.mem_cons_self).resolve_left List.not_mem_nil

/-- The answer is right, and so are the answers known afterwards; the only new one is for the
instruction that was asked about. -/
theorem ask_spec (hf : f.Consistent) (hmemo : memo.Sound f) (hroot : (f.bare? root).isSome) :
    ((memo.ask f root).1 = true ↔ f.PhiBelow root) ∧ (memo.ask f root).2.Sound f ∧
      ∀ i answer, (memo.ask f root).2.find? i = some answer →
        i = root ∨ memo.find? i = some answer := by
  unfold ask
  cases hknown : memo.find? root with
  | some answer => exact ⟨hmemo root answer hknown, hmemo, fun i answer h => .inr h⟩
  | none =>
    obtain ⟨z, hz⟩ := exists_inst_of_bare hroot
    have hlt := (Array.getElem?_eq_some_iff.mp (inst_eq_ok_iff.mp hz)).1
    have hanswer := any_hits_iff hf hmemo hlt
    refine ⟨hanswer, fun i answer h => ?_, fun i answer h => ?_⟩
    · rw [Bindings.find?_insert] at h
      split at h
      · next hi =>
        rw [hi, ← Option.some.inj h]
        exact hanswer
      · exact hmemo i answer h
    · rw [Bindings.find?_insert] at h
      split at h
      · next hi => exact .inl hi
      · exact .inr h

end PhiMemo

end SsaOpt
