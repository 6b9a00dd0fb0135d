import Mathlib.Logic.Relation
import SsaOpt.Proofs.Acceptance
import SsaOpt.Proofs.Relocation
import SsaOpt.Proofs.Replacement

/-! The edits that passes make: a redundant instruction is deleted in favour of an available one, or
an instruction moves to a block where it may stand. What every such edit keeps, every pass keeps. -/

namespace SsaOpt

/-- How many operands an instruction has. -/
def Opcode.takes : Opcode → Nat → Bool
  | .binary _, n | .compare _, n | .store, n => n = 2
  | .cast _, n | .load, n | .branch _ _, n => n = 1
  | .select, n => n = 3
  | .elementPtr, n => 1 ≤ n
  | .call _, _ => true
  | .alloca _, n | .jump _, n => n = 0
  | .phi bs, n | .memPhi bs, n => n = bs.length
  | .ret, n => n ≤ 1

/-- Comparisons give a truth value and address computations an address; other types are free. -/
def Opcode.gives : Opcode → Ty → Bool
  | .compare _, t => t = .i1
  | .elementPtr, t => t = .ptr
  | _, _ => true

namespace Func

variable {f g : Func} {x e i d : InstId} {b c : BlockId} {pre post front back : List InstId}

/-! ## Layout -/

/-- Every instruction that is not erased passes the test. -/
def EachLive (f : Func) (test : Instruction → Bool) : Prop :=
  ∀ {i z}, f.bare? i = some z → z.erased = false → test z

theorem eachLive_iff {test : Instruction → Bool} :
    f.EachLive test ↔ ∀ z ∈ f.insts.toList, z.erased = false → test z.bare := by
  constructor
  · intro h z hz hlive
    obtain ⟨n, hn, rfl⟩ := List.getElem_of_mem hz
    have hn' : f.bare? ⟨n⟩ = some f.insts.toList[n].bare := by
      simp only [Array.length_toList] at hn
      simp [bare?, hn]
    exact h hn' hlive
  · intro h i z hz hlive
    obtain ⟨w, hw, rfl⟩ := Option.map_eq_some_iff.mp hz
    exact h w (Array.mem_toList_iff.mpr (Array.mem_of_getElem? hw)) hlive

instance (test : Instruction → Bool) : Decidable (f.EachLive test) :=
  decidable_of_iff _ eachLive_iff.symm

/-- Every instruction has as many operands as its opcode takes. -/
abbrev LaidOut (f : Func) : Prop := f.EachLive fun z => z.op.takes z.operands.length

/-- Every instruction has a type that its opcode gives. -/
abbrev Typed (f : Func) : Prop := f.EachLive fun z => z.op.gives z.ty

/-- Every instruction stands in a block. -/
abbrev Settled (f : Func) : Prop := f.EachLive fun z => z.home.isSome

/-- A test of opcodes and numbers of operands is passed after a deletion if it was before. -/
theorem Replaced.eachLive {test : Opcode → Nat → Bool} (h : Replaced f x e g)
    (hf : f.EachLive fun z => test z.op z.operands.length) :
    g.EachLive fun z => test z.op z.operands.length := by
  intro i z hz hlive
  rw [h.bare] at hz
  split at hz
  · obtain ⟨w, -, rfl⟩ := Option.map_eq_some_iff.mp hz
    cases hlive
  · obtain ⟨w, hw, rfl⟩ := Option.map_eq_some_iff.mp hz
    simpa using hf hw hlive

theorem Relocated.eachLive {test : Opcode → Nat → Bool} (h : Relocated f x b front back g)
    (hf : f.EachLive fun z => test z.op z.operands.length) :
    g.EachLive fun z => test z.op z.operands.length := by
  intro i z hz hlive
  rw [h.bare] at hz
  split at hz
  · obtain ⟨w, hw, rfl⟩ := Option.map_eq_some_iff.mp hz
    have htest := hf hw hlive
    exact htest
  · exact hf hz hlive

theorem Replaced.settled (h : Replaced f x e g) (hf : f.Settled) : g.Settled := by
  intro i z hz hlive
  rw [h.bare] at hz
  split at hz
  · obtain ⟨w, -, rfl⟩ := Option.map_eq_some_iff.mp hz
    cases hlive
  · obtain ⟨w, hw, rfl⟩ := Option.map_eq_some_iff.mp hz
    have hhome := hf hw hlive
    exact hhome

theorem Relocated.settled (h : Relocated f x b front back g) (hf : f.Settled) : g.Settled := by
  intro i z hz hlive
  rw [h.bare] at hz
  split at hz
  · obtain ⟨w, hw, rfl⟩ := Option.map_eq_some_iff.mp hz
    rfl
  · exact hf hz hlive

/-! ## Edges and phis -/

theorem incomingOf_congr (h : g.op? i = f.op? i) : g.incomingOf i = f.incomingOf i := by
  rw [incomingOf, incomingOf, h]

theorem Joins.congr (h : f.Joins b i) (hop : g.op? i = f.op? i)
    (hlen : (g.operandsOf i).length = (f.operandsOf i).length) (hedge : g.Edge = f.Edge) :
    g.Joins b i where
  length hbs := by
    rw [hlen]
    exact h.length (incomingOf_congr hop ▸ hbs)
  edge hbs hp := by
    rw [hedge]
    exact h.edge (incomingOf_congr hop ▸ hbs) hp

/-- Deleting a redundant instruction leaves no edge to it. -/
theorem Redundant.tied (hf : f.Valid) (htied : f.Tied) (hr : Redundant f x e b pre post)
    (h : Replaced f x e g) : g.Tied := by
  have hag := hr.agreeOff hf h
  have hplaced : ∀ {i c}, i ∈ g.listOf c → i ≠ x ∧ i ∈ f.listOf c := by
    intro i c hi
    rw [h.lists] at hi
    simpa [and_comm] using hi
  obtain ⟨home, he, -⟩ := hr.exists_home
  have he' : e ∈ g.listOf home := (hag.mem_list_iff (hr.ne hf)).mpr he
  refine ⟨fun {c i} hi => ⟨fun d hd => ?_, fun j hj => ?_⟩, fun {c i} hi => ?_, ?_⟩
  · obtain ⟨hix, hi⟩ := hplaced hi
    rcases (h.mem_reads_iff hix).mp hd with ⟨-, rfl⟩ | ⟨hdx, hd⟩
    · exact Func.live_iff.mpr ((hr.valid hf h).exists_live he')
    · exact h.live_iff.mpr ⟨hdx, (htied.linked hi).reads d hd⟩
  · have hjx : j ≠ x := by
      rintro rfl
      rw [h.reads_self] at hj
      cases hj
    refine h.live_iff.mpr ⟨hjx, ?_⟩
    rcases (h.mem_reads_iff hjx).mp hj with ⟨hj, -⟩ | ⟨-, hj⟩
    · exact (htied.linked hr.mem).readers j hj
    · exact (htied.linked (hplaced hi).2).readers j hj
  · obtain ⟨hix, hi⟩ := hplaced hi
    exact (htied.joins hi).congr (hag.op i) (h.length_operandsOf hix) hag.edge_eq
  · intro c i d hreach hi hd
    rw [hag.reached_eq] at hreach
    obtain ⟨hix, hi⟩ := hplaced hi
    rcases (h.mem_reads_iff hix).mp hd with ⟨-, rfl⟩ | ⟨hdx, hd⟩
    · exact ⟨home, he'⟩
    · obtain ⟨home, hd⟩ := htied.placed hreach hi hd
      exact ⟨home, (hag.mem_list_iff hdx).mpr hd⟩

/-- A legal move changes no edge. -/
theorem Legal.tied {source dest : BlockId} (hf : f.Valid) (htied : f.Tied)
    (hl : Legal f x source dest front back) (h : Relocated f x dest front back g) : g.Tied := by
  have hag := hl.agreeOff hf h
  have hplaced : ∀ {i c}, i ∈ g.listOf c → i ∈ f.listOf c ∨ i = x := by
    intro i c hi
    by_cases hix : i = x
    · exact .inr hix
    · exact .inl ((hag.mem_list_iff hix).mp hi)
  have hlinked : ∀ {i c}, i ∈ g.listOf c → f.Linked i := by
    intro i c hi
    rcases hplaced hi with hi | rfl
    · exact htied.linked hi
    · exact htied.linked hl.mem_source
  refine ⟨fun {c i} hi => ⟨fun d hd => ?_, fun j hj => ?_⟩, fun {c i} hi => ?_, ?_⟩
  · rw [h.live_eq]
    exact (hlinked hi).reads d (h.reads_eq i ▸ hd)
  · rw [h.live_eq]
    exact (hlinked hi).readers j (h.reads_eq j ▸ hj)
  · rcases hplaced hi with hi | rfl
    · exact (htied.joins hi).congr (hag.op i) (by rw [h.operandsOf_eq]) hag.edge_eq
    · -- what moves is no phi
      have hnone : ∀ {bs}, g.incomingOf i ≠ some bs := by
        intro bs hbs
        obtain ⟨op, hop, hbs⟩ := Option.bind_eq_some_iff.mp hbs
        rw [hag.op] at hop
        exact not_isPhi_of_pure hl.pure (isPhi_of_incoming hop hbs)
      exact ⟨fun hbs => absurd hbs hnone, fun hbs => absurd hbs hnone⟩
  · intro c i d hreach hi hd
    rw [hag.reached_eq] at hreach
    rw [h.reads_eq] at hd
    obtain ⟨home, hd⟩ : ∃ home, d ∈ f.listOf home := by
      rcases hplaced hi with hi | rfl
      · exact htied.placed hreach hi hd
      · exact htied.placed hl.reached hl.mem_source hd
    by_cases hdx : d = x
    · exact ⟨dest, h.mem_list_self.mpr rfl |> (hdx ▸ ·)⟩
    · exact ⟨home, (hag.mem_list_iff hdx).mpr hd⟩

/-! ## One edit -/

/-- `g` is `f` after one edit: a redundant instruction was deleted in favour of one with the same
opcode, or an instruction was moved to where it may stand. -/
inductive Amends (f g : Func) : Prop
  | delete {x e : InstId} {b : BlockId} {pre post : List InstId}
      (hr : Redundant f x e b pre post) (hop : f.op? e = f.op? x) (hg : Replaced f x e g)
  | move {x : InstId} {source dest : BlockId} {front back : List InstId}
      (hl : Legal f x source dest front back) (hg : Relocated f x dest front back g)

/-- `g` is `f` after some edits. -/
abbrev Amended (f g : Func) : Prop := Relation.ReflTransGen Amends f g

/-- An accepted function whose instructions have the operands that they take, and in which no
placed instruction reads a terminator. -/
structure Orderly (f : Func) : Prop where
  valid : f.Valid
  tied : f.Tied
  laidOut : f.LaidOut
  unread : ∀ b, ∀ i ∈ f.listOf b, ∀ d ∈ f.reads i, ¬f.ends d

namespace Amends

variable (h : Amends f g)
include h

theorem signature : g.signature = f.signature := by
  cases h with
  | delete _ _ hg => exact hg.signature
  | move _ hg => exact hg.signature

theorem valid (hf : f.Valid) : g.Valid := by
  cases h with
  | delete hr _ hg => exact hr.valid hf hg
  | move hl hg => exact hl.valid hf hg

theorem exists_agreeOff (hf : f.Valid) : ∃ x, AgreeOff f g x := by
  cases h with
  | delete hr _ hg => exact ⟨_, hr.agreeOff hf hg⟩
  | move hl hg => exact ⟨_, hl.agreeOff hf hg⟩

theorem unread (hf : f.Valid) (hunread : ∀ b, ∀ i ∈ f.listOf b, ∀ d ∈ f.reads i, ¬f.ends d) :
    ∀ b, ∀ i ∈ g.listOf b, ∀ d ∈ g.reads i, ¬g.ends d := by
  intro b i hi d hd
  cases h with
  | @delete x e _ _ _ hr hop hg =>
    have hag := hr.agreeOff hf hg
    have hix : i ≠ x := fun hix => hg.not_mem_list (hix ▸ hi)
    rw [hag.ends_eq]
    rcases (hg.mem_reads_iff hix).mp hd with ⟨-, rfl⟩ | ⟨-, hd⟩
    · rw [ends, hop, ← ends]
      exact hr.not_end
    · exact hunread b i ((hag.mem_list_iff hix).mp hi) d hd
  | @move x source dest _ _ hl hg =>
    have hag := hl.agreeOff hf hg
    rw [hag.ends_eq]
    rw [hg.reads_eq] at hd
    by_cases hix : i = x
    · exact hunread source i (hix ▸ hl.mem_source) d hd
    · exact hunread b i ((hag.mem_list_iff hix).mp hi) d hd

theorem orderly (hf : f.Orderly) : g.Orderly := by
  refine ⟨h.valid hf.valid, ?_, ?_, h.unread hf.valid hf.unread⟩
  · cases h with
    | delete hr _ hg => exact hr.tied hf.valid hf.tied hg
    | move hl hg => exact hl.tied hf.valid hf.tied hg
  · cases h with
    | delete _ _ hg => exact hg.eachLive hf.laidOut
    | move _ hg => exact hg.eachLive hf.laidOut

theorem settled (hf : f.Settled) : g.Settled := by
  cases h with
  | delete _ _ hg => exact hg.settled hf
  | move _ hg => exact hg.settled hf

theorem analysis {a : Analysis} (hf : f.Valid) (ha : Analysis.ofFunc f = .ok a) :
    Analysis.ofFunc g = .ok a := by
  obtain ⟨x, hag⟩ := h.exists_agreeOff hf
  exact hag.analysis hf.housed ha

end Amends

/-! ## A chain of edits -/

namespace Amended

variable (h : Amended f g)
include h

theorem signature : g.signature = f.signature := by
  induction h with
  | refl => rfl
  | tail _ hstep ih => exact hstep.signature.trans ih

theorem orderly (hf : f.Orderly) : g.Orderly := by
  induction h with
  | refl => exact hf
  | tail _ hstep ih => exact hstep.orderly ih

theorem settled (hf : f.Settled) : g.Settled := by
  induction h with
  | refl => exact hf
  | tail _ hstep ih => exact hstep.settled ih

theorem valid (hf : f.Valid) : g.Valid := by
  induction h with
  | refl => exact hf
  | tail _ hstep ih => exact hstep.valid ih

/-- One analysis serves all passes. -/
theorem analysis {a : Analysis} (hf : f.Valid) (ha : Analysis.ofFunc f = .ok a) :
    Analysis.ofFunc g = .ok a := by
  induction h with
  | refl => exact ha
  | tail hchain hstep ih => exact hstep.analysis (Amended.valid hchain hf) ih

end Amended

/-- A function that the passes can be run on is orderly. -/
theorem Built.orderly (hf : f.Built) (hdecl : f.isDeclaration = false) (hcheck : f.check = .ok ())
    (h₀ : 0 < f.numBlocks) (hlayout : f.LaidOut)
    (hunread : ∀ b, ∀ i ∈ f.listOf b, ∀ d ∈ f.reads i, ¬f.ends d) : f.Orderly :=
  ⟨hf.consistent.valid hdecl h₀ hcheck, hf.consistent.tied hdecl hcheck, hlayout, hunread⟩

theorem Orderly.check (hf : f.Orderly) : f.check = .ok () := hf.valid.check_eq_ok hf.tied

end Func

end SsaOpt
