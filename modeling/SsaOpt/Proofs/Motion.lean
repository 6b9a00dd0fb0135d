import SsaOpt.Proofs.Amendment
import SsaOpt.Proofs.Decision

/-! Code motion keeps the runs of a function. -/

namespace SsaOpt

/-- An instruction was taken from one block to another. -/
structure Move where
  inst : InstId
  source : BlockId
  dest : BlockId
deriving DecidableEq, Repr

/-- The move that a remark reports. -/
def Remark.move? : Remark → Option Move
  | .moved _ inst _ source dest => some { inst, source, dest }
  | _ => none

/-- The moves reported so far. -/
def Progress.moves (p : Progress) : List Move := p.remarks.toList.filterMap Remark.move?

theorem Progress.moves_note (p : Progress) (n : Remark) :
    (p.note n).moves = p.moves ++ n.move?.toList := by
  unfold moves note
  rw [Array.toList_push, List.filterMap_append]
  cases h : n.move? <;> simp [h]

namespace Motion

open Func

/-- The loop depth that decisions go by. -/
def Setting.depth (st : Setting) (b : BlockId) : Nat := st.depths.getD b.index 0

/-- The decision on an instruction during a sweep. -/
def Setting.decision (st : Setting) (f : Func) (x : InstId) : Except Halt Decision :=
  Motion.decision st.analysis st.depth st.policy f x

variable {f : Func} {a : Analysis} {rank : BlockId → Nat} {x : InstId}
  {depth : BlockId → Nat} {policy : Placement} {s : Site}

/-! ## Decisions are legal -/

/-- A definition dominates the block of every instruction that reads it, phis apart. -/
theorem dom_of_reads {i : InstId} {b c : BlockId} (hf : f.Housed) (hx : x ∈ f.listOf b)
    (hi : i ∈ f.listOf c) (hc : f.Reached c) (hphi : ¬f.isPhi i) (hread : x ∈ f.reads i) :
    f.Dom b c := by
  obtain ⟨home, hhome, hdom⟩ := hf.home_dom hc hi hphi hread
  exact hf.consistent.home_unique hhome hx ▸ hdom

/-- The uses of an instruction that no phi reads are in blocks that it dominates. -/
theorem useBlocks_spec {b : BlockId} {blocks : List BlockId} (hf : f.Housed)
    (hd : a.Describes f rank) (hx : x ∈ f.listOf b) (hphi : ∀ i, x ∈ f.reads i → ¬f.isPhi i)
    (h : List.Forall₂ (fun u c => f.useBlock x u = .ok c ∧ a.dom.reachable c) (f.usesOf x) blocks) :
    ∀ c ∈ blocks, f.Reached c ∧ f.Dom b c := by
  intro c hc
  obtain ⟨u, hu, huse, hreach⟩ := exists_partner h.flip hc
  have hr := hd.reachable_iff.mp hreach
  have hread : x ∈ f.reads u.user :=
    mem_reads_iff.mpr ⟨u.index, (hf.consistent.mem_uses x u).mp hu⟩
  have hmem := (hf.consistent.mem_list c _).mpr (useBlock_spec (hphi _ hread) huse)
  exact ⟨hr, dom_of_reads hf hx hmem hr (hphi _ hread) hread⟩

section Chosen

variable (hf : f.Housed) (hd : a.Describes f rank) (hc : Chosen f a depth policy x s)
  (hphi : ∀ i, x ∈ f.reads i → ¬f.isPhi i)
include hf hd hc

omit hd in
theorem Chosen.mem_current : x ∈ f.listOf s.current :=
  (hf.consistent.mem_list s.current x).mpr hc.home

omit hf in
theorem Chosen.reached_current : f.Reached s.current := hd.reachable_iff.mp hc.reachable

include hphi

/-- The latest block can be reached, dominates every user and is dominated by the current one. -/
theorem Chosen.latest_spec : f.Reached s.latest ∧ f.Dom s.current s.latest ∧
    ∀ i c, i ∈ f.listOf c → x ∈ f.reads i → f.Dom s.latest c := by
  obtain ⟨blocks, hblocks, hlatest, hdom⟩ := hc.uses
  have huser := useBlocks_spec hf hd (hc.mem_current hf) hphi hblocks
  obtain ⟨hreach, hall, -⟩ := latestBlock_spec hd (hc.reached_current hd) fun b hb => (huser b hb).1
  rw [← hlatest] at hreach hall
  refine ⟨hreach, hall _ (.refl (hc.reached_current hd)) fun b hb => (huser b hb).2, ?_⟩
  intro i c hi hread
  obtain ⟨k, hk⟩ := mem_reads_iff.mp hread
  obtain ⟨b, hb, huse, -⟩ := exists_partner hblocks ((hf.consistent.mem_uses x _).mpr hk)
  have hhome := useBlock_spec (hphi i hread) huse
  obtain rfl := Option.some.inj (((hf.consistent.mem_list c i).mp hi).symm.trans hhome)
  exact hd.dominates_iff.mp (hdom c hb)

theorem Chosen.dest_spec :
    (∀ d ∈ f.reads x, ∃ home, d ∈ f.listOf home ∧ f.Dom home s.chosen) ∧
      (∀ i c, i ∈ f.listOf c → x ∈ f.reads i → f.Dom s.chosen c) ∧
      (f.Dom s.current s.chosen ∨ mayTrap f x = .ok false) := by
  obtain ⟨hreach, hcurrent, husers⟩ := hc.latest_spec hf hd hphi
  obtain ⟨hbest, hceiling⟩ := bestBlock_spec hd hreach hc.best
  obtain ⟨defs, hdefs, hlegal⟩ := hc.defs
  obtain ⟨hchosen, hdom⟩ := legalBlock?_spec hd hbest.reaches_left hlegal
  rw [hchosen]
  refine ⟨fun d hd' => ?_, fun i c hi hread => hbest.trans (husers i c hi hread),
    hceiling hcurrent⟩
  obtain ⟨b, hb, hdef, -⟩ := exists_partner hdefs hd'
  exact ⟨b, (hf.consistent.mem_list b d).mpr (definingBlock_spec hdef), hdom b hb⟩

end Chosen

/-- The move that a decision asks for is legal. -/
theorem Chosen.legal {front back : List InstId} {t : InstId} {g : Func} (hf : f.Valid)
    (hd : a.Describes f rank) (hc : Chosen f a depth policy x s)
    (hphi : ∀ i, x ∈ f.reads i → ¬f.isPhi i) (hne : s.chosen ≠ s.current)
    (hpure : ∀ {op}, f.op? x = some op → op.isPure)
    (hterm : ∀ d ∈ f.reads x, ¬f.ends d) (hrel : Relocated f x s.chosen front (t :: back) g)
    (ht : ¬f.isPhi t) (hfront : ∀ j ∈ front, f.isPhi j ∨ x ∉ f.reads j)
    (htarget : x ∈ f.reads t ∨ f.ends t) : Legal f x s.current s.chosen front (t :: back) := by
  obtain ⟨hdefs, husers, -⟩ := hc.dest_spec hf.housed hd hphi
  have hmem := hc.mem_current hf.housed
  have hreach := hc.reached_current hd
  have hlist : f.listOf s.chosen = front ++ t :: back := by
    rw [← hrel.split, eq_comm, List.filter_eq_self]
    intro i hi
    have : i ≠ x := by
      rintro rfl
      exact hne (hf.consistent.home_unique hi hmem)
    simpa using this
  have hxphi : ¬f.isPhi x := not_isPhi_of_pure hpure
  refine ⟨hmem, hne.symm, hreach, hpure, by simp, ?_, ?_, ?_⟩
  · -- phis come first, and the target is none
    intro i hi hphi'
    rcases List.mem_cons.mp hi with rfl | hi
    · exact ht hphi'
    · obtain ⟨l₁, l₂, rfl⟩ := List.append_of_mem hi
      have hsplit : f.listOf s.chosen = (front ++ t :: l₁) ++ i :: l₂ := by simp [hlist]
      exact ht (hf.phis_first hsplit hphi' t (by simp))
  · intro d hread
    obtain ⟨home, hhome, hdom⟩ := hdefs d hread
    refine ⟨home, hhome, hdom, ?_⟩
    rintro rfl
    rcases htarget with htarget | htarget
    · -- the blocks of `x` and of its user would dominate each other
      have htlist : t ∈ f.listOf s.chosen := by
        rw [hlist]
        simp
      have hto := dom_of_reads hf.housed hmem htlist hdom.1 ht htarget
      have hfrom := dom_of_reads hf.housed hhome hmem hreach hxphi hread
      exact absurd (hfrom.antisymm hto) hne
    · obtain rfl := (hf.ends_iff hlist).mp htarget
      rw [hlist] at hhome
      rcases List.mem_append.mp hhome with hd' | hd'
      · exact hd'
      · obtain rfl := List.mem_singleton.mp hd'
        exact absurd htarget (hterm d hread)
  · intro i c hi hread
    refine ⟨hphi i hread, husers i c hi hread, ?_⟩
    rintro rfl
    rw [hlist] at hi
    refine (List.mem_append.mp hi).resolve_left fun hi => ?_
    rcases hfront i hi with h | h
    · exact hphi i hread h
    · exact h hread

/-! ## Traps -/

/-- The instruction is no division or remainder, or its divisor is an integer other than zero. -/
def Harmless (f : Func) (x : InstId) : Prop :=
  ∀ op, f.op? x = some (.binary op) → op.canTrap → ∃ l n, f.slot ⟨x, 1⟩ = some (.lit l) ∧
    l.toInt? = some n ∧ n ≠ 0

theorem Harmless.mayTrap {z : Instruction} (hz : f.inst x = .ok z) (h : Harmless f x) :
    mayTrap f x = .ok false := by
  unfold Motion.mayTrap
  refine bind_eq_ok_iff.mpr ⟨z, hz, ?_⟩
  cases hop : z.op with
  | binary op =>
    dsimp only
    split
    · next htrap =>
      obtain ⟨l, n, hslot, hn, hne⟩ := h op (by rw [op?_of_inst hz, hop]) htrap
      rw [slot, operandsOf_of_inst hz] at hslot
      have hdivisor : f.operand x 1 = .ok (.lit l) :=
        bind_eq_ok_iff.mpr ⟨z, hz, ofOption_eq_ok_iff.mpr hslot⟩
      refine bind_eq_ok_iff.mpr ⟨_, hdivisor, ?_⟩
      simp [Operand.lit?, hn, hne, pure, Except.pure]
    · rfl
  | _ => rfl

/-- Only divisions are held back, and of these not the ones by an integer other than zero. -/
theorem harmless_of_mayTrap (h : mayTrap f x = .ok false) : Harmless f x := by
  intro op hop htrap
  obtain ⟨z, hz, hzop⟩ := op?_eq_some_iff.mp hop
  obtain ⟨z', hz', h⟩ := bind_eq_ok_iff.mp h
  obtain rfl := Except.ok.inj (hz.symm.trans hz')
  simp only [hzop, htrap, if_true] at h
  obtain ⟨o, ho, h⟩ := bind_eq_ok_iff.mp h
  obtain ⟨z', hz', ho⟩ := bind_eq_ok_iff.mp ho
  obtain rfl := Except.ok.inj (hz.symm.trans hz')
  have hslot : f.slot ⟨x, 1⟩ = some o := by
    rw [slot, operandsOf_of_inst hz]
    exact ofOption_eq_ok_iff.mp ho
  have hdivisor := pure_eq_ok_iff.mp h
  cases o with
  | lit l =>
    cases hn : l.toInt? with
    | none => simp [Operand.lit?, hn] at hdivisor
    | some n => exact ⟨l, n, hslot, hn, by simpa [Operand.lit?, hn] using hdivisor⟩
  | inst | arg | global => cases hdivisor

open Interpretation in
/-- An instruction that is harmless does not trap. -/
theorem Harmless.calm {I : Interpretation} {isZero : I.Value → Prop} {args : Nat → I.Value}
    {z : Instruction} (hI : I.TrapsOnZero isZero) (h : Harmless f x) (hz : f.bare? x = some z)
    (hpure : z.op.isPure) (regs : InstId → I.Value) :
    ∃ v, I.compute z.op z.ty (I.inputs args regs z) = some v := by
  rw [← Option.ne_none_iff_exists']
  intro hnone
  obtain ⟨op, hop, htrap, v, hv, hzero⟩ := (hI.compute hpure).mp hnone
  obtain ⟨l, n, hslot, hn, hne⟩ := h op (by rw [op?, hz, ← hop]; rfl) htrap
  have hslot : z.operands[1]? = some (.lit l) := by simpa [slot, operandsOf, hz] using hslot
  have hv : v = I.literal l := by
    rw [inputs, List.getElem?_map, hslot] at hv
    exact (Option.some.inj hv).symm
  rw [hv] at hzero
  exact hne ((hI.literal hn).mp hzero)

/-! ## Passes -/

/-- What code motion keeps: everything but the places of instructions, and the runs that do not
trap. -/
structure Moved (f g : Func) : Prop where
  valid : g.Valid
  size : g.numBlocks = f.numBlocks
  op : ∀ i, g.op? i = f.op? i
  reads : ∀ i, g.reads i = f.reads i
  edge : g.Edge = f.Edge
  placed : ∀ {b i}, i ∈ g.listOf b → ∃ c, i ∈ f.listOf c
  amended : Amended f g
  trace : ∀ {I : Interpretation} {isZero : I.Value → Prop}, I.TrapsOnZero isZero →
    ∀ {args memory k}, Interpretation.Quiet (f.trace I args memory k) →
      g.trace I args memory k = f.trace I args memory k

theorem Moved.refl (hf : f.Valid) : Moved f f :=
  ⟨hf, rfl, fun _ => rfl, fun _ => rfl, rfl, fun h => ⟨_, h⟩, .refl, fun _ _ _ _ _ => rfl⟩

theorem Moved.trans {g k : Func} (hfg : Moved f g) (hgk : Moved g k) : Moved f k where
  valid := hgk.valid
  size := hgk.size.trans hfg.size
  op i := (hgk.op i).trans (hfg.op i)
  reads i := (hgk.reads i).trans (hfg.reads i)
  edge := hgk.edge.trans hfg.edge
  placed h := by
    obtain ⟨c, hc⟩ := hgk.placed h
    exact hfg.placed hc
  amended := hfg.amended.trans hgk.amended
  trace {I isZero} hI {args memory n} hquiet := by
    have h := hfg.trace hI hquiet
    exact (hgk.trace hI (h ▸ hquiet)).trans h

/-- A floating instruction that no phi reads. -/
structure Loose (f : Func) (x : InstId) : Prop where
  floats : ∀ {op}, f.op? x = some op → floats op
  not_phi : ∀ {i}, x ∈ f.reads i → ¬f.isPhi i

theorem isPure_of_floats {op : Opcode} (h : floats op) : op.isPure := by
  cases op <;> first | rfl | cases h

namespace Loose

variable (h : Loose f x)
include h

theorem isPure {op : Opcode} (hop : f.op? x = some op) : op.isPure :=
  isPure_of_floats (h.floats hop)

theorem not_isPhi : ¬f.isPhi x := not_isPhi_of_pure h.isPure

theorem not_ends_self : ¬f.ends x := not_ends_of_pure h.isPure

end Loose

/-- A floating instruction that no phi reads and that reads no terminator. -/
structure Movable (f : Func) (x : InstId) : Prop extends Loose f x where
  not_ends : ∀ {d}, d ∈ f.reads x → ¬f.ends d

theorem Movable.moved {g : Func} (h : Movable f x) (hg : Moved f g) : Movable g x where
  floats hop := h.floats (hg.op x ▸ hop)
  not_phi {i} hread := by
    rw [isPhi_eq, hg.op, ← isPhi_eq]
    exact h.not_phi (hg.reads i ▸ hread)
  not_ends {d} hread := by
    rw [ends, hg.op, ← ends]
    exact h.not_ends (hg.reads x ▸ hread)

/-- One move. -/
theorem relocate_moved {g : Func} (hf : f.Valid) (hd : a.Describes f rank)
    (hc : Chosen f a depth policy x s) (hx : Movable f x) (hne : s.chosen ≠ s.current)
    (h : relocate f x s.chosen = .ok g) : Moved f g := by
  obtain ⟨front, t, back, hrel, ht, hfront, htarget⟩ :=
    relocate_spec hf.housed hx.not_ends_self h
  have hl := hc.legal hf hd (fun i => hx.not_phi) hne hx.isPure (fun d => hx.not_ends) hrel ht
    hfront htarget
  have hag := hl.agreeOff hf hrel
  refine ⟨hl.valid hf hrel, hrel.size, hrel.op?_eq, hrel.reads_eq, hag.edge_eq, ?_,
    .single (.move hl hrel), ?_⟩
  · intro b i hi
    by_cases hix : i = x
    · exact ⟨s.current, hix ▸ hl.mem_source⟩
    · exact ⟨b, (hag.mem_list_iff hix).mp hi⟩
  · intro I isZero hI args memory k hquiet
    refine (hl.rewrites hf hrel ?_).trace_eq memory k hquiet
    rcases (hc.dest_spec hf.housed hd fun i => hx.not_phi).2.2 with hdom | htrap
    · exact .inr hdom
    · exact .inl fun z regs hz =>
        (harmless_of_mayTrap htrap).calm hI hz (hx.isPure (by simp [op?, hz])) regs

/-- The decision does not move the instruction. -/
def Decision.Stays (d : Decision) : Prop := ∀ s, d = .site s → s.chosen = s.current

/-- Carrying out a decision either changes nothing, or makes the one move that it asks for and
reports it. -/
theorem carryOut_cases {p q : Progress} {d : Decision} (h : carryOut p x d = .ok q) :
    (d.Stays ∧ q.func = p.func ∧ q.changes = p.changes ∧ q.moves = p.moves) ∨
      ∃ s, d = .site s ∧ s.chosen ≠ s.current ∧ relocate p.func x s.chosen = .ok q.func ∧
        q.changes = p.changes + 1 ∧ q.moves = p.moves ++ [⟨x, s.current, s.chosen⟩] := by
  cases d with
  | leave =>
    obtain rfl := pure_eq_ok_iff.mp h
    exact .inl ⟨by simp [Decision.Stays], rfl, rfl, rfl⟩
  | noLegalBlock current =>
    obtain rfl := pure_eq_ok_iff.mp h
    exact .inl ⟨by simp [Decision.Stays], rfl, rfl, by simp [Progress.moves_note, Remark.move?]⟩
  | site s =>
    unfold carryOut at h
    dsimp only at h
    split at h
    · next heq =>
      obtain rfl := pure_eq_ok_iff.mp h
      exact .inl ⟨by simpa [Decision.Stays] using heq, rfl, rfl,
        by simp [Progress.moves_note, Remark.move?]⟩
    · next hne =>
      obtain ⟨line, -, h⟩ := bind_eq_ok_iff.mp h
      obtain ⟨g, hg, h⟩ := bind_eq_ok_iff.mp h
      obtain rfl := pure_eq_ok_iff.mp h
      refine .inr ⟨s, rfl, hne, hg, rfl, ?_⟩
      show ((p.note (.sited x s)).note (.moved _ x line s.current s.chosen)).moves = _
      simp [Progress.moves_note, Remark.move?]

theorem carryOut_moved {p q : Progress} {d : Decision} (hf : p.func.Valid)
    (hd : a.Describes p.func rank) (hx : Movable p.func x)
    (hdec : decision a depth policy p.func x = .ok d) (h : carryOut p x d = .ok q) :
    Moved p.func q.func := by
  rcases carryOut_cases h with ⟨-, heq, -⟩ | ⟨s, rfl, hne, hg, -⟩
  · rw [heq]
    exact .refl hf
  · exact relocate_moved hf hd (decision_spec hdec) hx hne hg

/-- A list is placed by its first instruction, unless that is rejected, and then by the rest. -/
theorem placeAll_cons {st : Setting} {i : InstId} {is : List InstId} {p q : Progress}
    {r : Option Rejection} (h : placeAll st (i :: is) p = .ok (q, r)) :
    (q = p ∧ ∃ e, r = some e) ∨ ∃ d p', st.decision p.func i = .ok d ∧
      carryOut p i d = .ok p' ∧ placeAll st is p' = .ok (q, r) := by
  rw [placeAll] at h
  split at h
  · exact absurd h not_throw_eq_ok
  · obtain ⟨rfl, rfl⟩ := Prod.mk.inj (pure_eq_ok_iff.mp h)
    exact .inl ⟨rfl, _, rfl⟩
  · next d hdec =>
    obtain ⟨p', hp', h⟩ := bind_eq_ok_iff.mp h
    exact .inr ⟨d, p', hdec, hp', h⟩

theorem placeAll_cons_of_ok {st : Setting} {i : InstId} {p p' : Progress} {d : Decision}
    (hdec : st.decision p.func i = .ok d) (hp' : carryOut p i d = .ok p') (is : List InstId) :
    placeAll st (i :: is) p = placeAll st is p' := by
  unfold Setting.decision Setting.depth at hdec
  rw [placeAll, hdec]
  simp only [hp', bind, Except.bind]

/-- What every decision keeps that is carried out, placing a list keeps. -/
theorem placeAll_keeps {st : Setting} {P : Progress → Prop} {is : List InstId}
    {r : Option Rejection} (hstep : ∀ {p q : Progress} {d : Decision}, ∀ i ∈ is, P p →
      st.decision p.func i = .ok d → carryOut p i d = .ok q → P q) :
    ∀ {p q : Progress}, P p → placeAll st is p = .ok (q, r) → P q := by
  induction is with
  | nil =>
    intro p q hp h
    obtain ⟨rfl, -⟩ := Prod.mk.inj (pure_eq_ok_iff.mp h)
    exact hp
  | cons i is ih =>
    intro p q hp h
    rcases placeAll_cons h with ⟨rfl, -⟩ | ⟨d, p', hdec, hp', h⟩
    · exact hp
    · exact ih (fun j hj => hstep j (List.mem_cons_of_mem _ hj))
        (hstep i List.mem_cons_self hp hdec hp') h

theorem placeAll_moved {st : Setting} {is : List InstId} {r : Option Rejection} {p q : Progress}
    (hd : st.analysis.Describes f rank) (hp : Moved f p.func) (his : ∀ i ∈ is, Movable f i)
    (h : placeAll st is p = .ok (q, r)) : Moved f q.func := by
  refine placeAll_keeps (P := fun p => Moved f p.func) (fun i hi hp hdec hq => ?_) hp h
  exact hp.trans (carryOut_moved hp.valid (hd.congr hp.edge hp.size) ((his i hi).moved hp) hdec hq)

/-! ## Which instructions are placed -/

theorem mem_of_mem_drain {table : List (InstId × List InstId)} (fuel : Nat) :
    ∀ {queue taken : List InstId}, (∀ i ∈ queue, i ∈ table.map Prod.fst) →
      (∀ i ∈ taken, i ∈ table.map Prod.fst) →
      ∀ i ∈ drain table fuel queue taken, i ∈ table.map Prod.fst := by
  induction fuel with
  | zero => exact fun _ htaken => htaken
  | succ fuel ih =>
    intro queue taken hqueue htaken
    cases queue with
    | nil => exact htaken
    | cons i queue =>
      refine ih (fun j hj => ?_) fun j hj => ?_
      · rcases List.mem_append.mp hj with hj | hj
        · exact hqueue j (List.mem_cons_of_mem _ hj)
        · obtain ⟨e, he, rfl⟩ := List.mem_map.mp hj
          exact List.mem_map.mpr ⟨e, (List.mem_filter.mp he).1, rfl⟩
      · rcases List.mem_cons.mp hj with rfl | hj
        · exact hqueue j List.mem_cons_self
        · exact htaken j hj

theorem mem_of_mem_consumersFirst {is order : List InstId}
    (h : consumersFirst f is = .ok order) : ∀ i ∈ order, i ∈ is := by
  simp only [consumersFirst] at h
  split at h
  · obtain rfl := Except.ok.inj h
    have hkeys : (producers f is).map Prod.fst = is := by simp [producers, Function.comp_def]
    intro i hi
    rw [← hkeys]
    refine mem_of_mem_drain _ (fun j hj => ?_) (by simp) i hi
    obtain ⟨e, he, rfl⟩ := List.mem_map.mp hj
    exact List.mem_map.mpr ⟨e, (List.mem_filter.mp he).1, rfl⟩
  · cases h

theorem touchesPhi_iff (hf : f.Consistent) : touchesPhi f x ↔
    (∃ d ∈ f.reads x, f.isPhi d) ∨ ∃ i, x ∈ f.reads i ∧ f.isPhi i := by
  simp only [touchesPhi, Bool.or_eq_true, List.any_eq_true, mem_users_iff hf]

theorem mem_pinned {order : List InstId} (hx : x ∈ order) (h : touchesPhi f x) :
    x ∈ pinned f order := by
  have hkeep : ∀ (l pins : List InstId), x ∈ pins →
      x ∈ l.foldl (fun pins i => if (users f i).any (· ∈ pins) then i :: pins else pins) pins := by
    intro l
    induction l with
    | nil => exact fun _ hx => hx
    | cons i l ih =>
      intro pins hpins
      refine ih _ ?_
      beta_reduce
      split
      · exact List.mem_cons_of_mem _ hpins
      · exact hpins
  exact hkeep order _ (List.mem_filter.mpr ⟨hx, h⟩)

theorem floating_eq (hf : f.Consistent) :
    floating f = .ok (f.placed.filter fun i => (f.op? i).any floats) := by
  unfold floating
  refine filterM_eq_ok fun i hi => ?_
  obtain ⟨b, hb⟩ := mem_placed_iff.mp hi
  obtain ⟨z, hz⟩ := hf.exists_inst hb
  rw [op?_of_inst hz]
  exact bind_eq_ok_iff.mpr ⟨z, hz, rfl⟩

/-- The instructions that a sweep places, in the order in which it does. -/
def schedule (f : Func) : Checked (List InstId) := do
  let order ← consumersFirst f (← floating f)
  pure (order.filter (· ∉ pinned f order))

theorem sweep_eq (st : Setting) (p : Progress) :
    sweep st p = (do placeAll st (← schedule p.func) p) := by
  unfold sweep schedule
  cases floating p.func with
  | error e => rfl
  | ok is =>
    cases is with
    | nil => rfl
    | cons i is =>
      simp only [bind, Except.bind, List.isEmpty_cons]
      cases consumersFirst p.func (i :: is) <;> rfl

theorem schedule_eq_ok_iff {is : List InstId} (hf : f.Consistent) :
    schedule f = .ok is ↔
      ∃ order, consumersFirst f (f.placed.filter fun i => (f.op? i).any floats) = .ok order ∧
        order.filter (· ∉ pinned f order) = is := by
  unfold schedule
  rw [floating_eq hf]
  show (consumersFirst f _ >>= _) = .ok is ↔ _
  simp only [bind_eq_ok_iff, pure_eq_ok_iff]

theorem schedule_of_placed_nil (h : f.placed = []) : schedule f = .ok [] := by
  have hfloating : floating f = .ok [] := by
    rw [floating, h]
    rfl
  rw [schedule, hfloating]
  rfl

theorem sweep_of_placed_nil {st : Setting} {p : Progress} (h : p.func.placed = []) :
    sweep st p = .ok (p, none) := by
  rw [sweep_eq, schedule_of_placed_nil h]
  rfl

/-- What a sweep places stands in a block, and no phi reads it. -/
theorem loose_of_schedule {is : List InstId} (hf : f.Consistent) (his : schedule f = .ok is)
    (hx : x ∈ is) : x ∈ f.placed ∧ Loose f x := by
  obtain ⟨order, horder, rfl⟩ := (schedule_eq_ok_iff hf).mp his
  obtain ⟨hx, hpin⟩ := List.mem_filter.mp hx
  obtain ⟨hplaced, hfloats⟩ := List.mem_filter.mp (mem_of_mem_consumersFirst horder x hx)
  refine ⟨hplaced, fun hop => ?_, fun {i} hread hphi => ?_⟩
  · rwa [hop] at hfloats
  · have htouch := (touchesPhi_iff hf).mpr (.inr ⟨i, hread, hphi⟩)
    simp [mem_pinned hx htouch] at hpin

/-- What a sweep places is movable. -/
theorem movable_of_schedule {is : List InstId} (hf : f.Consistent)
    (hterm : ∀ b, ∀ i ∈ f.listOf b, ∀ d ∈ f.reads i, ¬f.ends d) (his : schedule f = .ok is)
    (hx : x ∈ is) : Movable f x := by
  obtain ⟨hplaced, hloose⟩ := loose_of_schedule hf his hx
  obtain ⟨b, hb⟩ := mem_placed_iff.mp hplaced
  exact ⟨hloose, fun hread => hterm b x hb _ hread⟩

theorem sweep_moved {st : Setting} {p q : Progress} {r : Option Rejection}
    (hd : st.analysis.Describes p.func rank) (hp : p.func.Valid)
    (hterm : ∀ b, ∀ i ∈ p.func.listOf b, ∀ d ∈ p.func.reads i, ¬p.func.ends d)
    (h : sweep st p = .ok (q, r)) : Moved p.func q.func := by
  rw [sweep_eq] at h
  obtain ⟨is, his, h⟩ := bind_eq_ok_iff.mp h
  exact placeAll_moved hd (.refl hp) (fun i => movable_of_schedule hp.consistent hterm his) h

/-- What every sweep keeps, repeated sweeps keep. -/
theorem sweeps_keeps {st : Setting} {limit : Nat} {P : Progress → Prop}
    (hnote : ∀ {p : Progress}, P p → P (p.note (.sweepLimit p.func.name limit)))
    (hsweep : ∀ {p q : Progress} {r : Option Rejection}, P p → sweep st p = .ok (q, r) → P q)
    (n : Nat) : ∀ {p q : Progress} {r : Option Rejection}, P p →
      sweeps st limit n p = .ok (q, r) → P q := by
  induction n with
  | zero =>
    intro p q r hp h
    obtain ⟨rfl, -⟩ := Prod.mk.inj (pure_eq_ok_iff.mp h)
    exact hnote hp
  | succ n ih =>
    intro p q r hp h
    obtain ⟨⟨q', r'⟩, hq', h⟩ := bind_eq_ok_iff.mp h
    simp only at h
    split at h
    · obtain ⟨rfl, -⟩ := Prod.mk.inj (pure_eq_ok_iff.mp h)
      exact hsweep hp hq'
    · exact ih (hsweep hp hq') h

theorem sweeps_moved {st : Setting} {limit : Nat} {p q : Progress} {r : Option Rejection}
    (hd : st.analysis.Describes f rank)
    (hterm : ∀ b, ∀ i ∈ f.listOf b, ∀ d ∈ f.reads i, ¬f.ends d) (n : Nat) (hp : Moved f p.func)
    (h : sweeps st limit n p = .ok (q, r)) : Moved f q.func := by
  refine sweeps_keeps (P := fun p => Moved f p.func) id (fun {p q r} hp hq => ?_) n hp h
  have hterm' : ∀ b, ∀ i ∈ p.func.listOf b, ∀ d ∈ p.func.reads i, ¬p.func.ends d := by
    intro b i hi d hread
    obtain ⟨c, hc⟩ := hp.placed hi
    rw [ends, hp.op, ← ends]
    exact hterm c i hc d (hp.reads i ▸ hread)
  exact hp.trans (sweep_moved (hd.congr hp.edge hp.size) hp.valid hterm' hq)

/-- There is always a first sweep. -/
theorem exists_run_eq (a : Analysis) (settings : Settings) (f : Func) :
    ∃ n, run a settings f =
      sweeps ⟨a, loopDepths a, settings.placement⟩ (n + 1) (n + 1) { func := f } := by
  obtain ⟨n, hn⟩ := Nat.exists_eq_add_of_le (Nat.le_max_left 1 settings.maxSweeps)
  refine ⟨n, ?_⟩
  rw [run, hn, Nat.add_comm]

/-- Without placed instructions the first sweep is the last. -/
theorem run_of_placed_nil {settings : Settings} {p : Progress} {r : Option Rejection}
    (hnil : f.placed = []) (h : run a settings f = .ok (p, r)) : p.func = f := by
  obtain ⟨n, hn⟩ := exists_run_eq a settings f
  rw [hn, sweeps, sweep_of_placed_nil hnil] at h
  obtain ⟨rfl, -⟩ := Prod.mk.inj (pure_eq_ok_iff.mp h)
  rfl

/-- **Code motion preserves meaning.** Take a function that was accepted and in which no placed
instruction reads a terminator. If its first `k` block visits do not trap, under any reading of
the opcodes in which exactly division by zero traps, then the function that code motion leaves
makes the same visits, with the same memory operations and transfers of control, each with the
same operand values, and does not trap either. This holds for every placement and every bound on
the sweeps, whether or not a rejection ended them. -/
theorem run_preserves_quiet_trace {f : Func} (hbuilt : f.Built) (hdecl : f.isDeclaration = false)
    (hcheck : f.check = .ok ()) (hterm : ∀ b, ∀ i ∈ f.listOf b, ∀ d ∈ f.reads i, ¬f.ends d)
    {a : Analysis} (ha : Analysis.ofFunc f = .ok a) {settings : Settings} {p : Progress}
    {r : Option Rejection} (hrun : run a settings f = .ok (p, r)) {I : Interpretation}
    {isZero : I.Value → Prop} (hI : I.TrapsOnZero isZero) (args : Nat → I.Value)
    (memory : I.Memory) (k : Nat) (hquiet : Interpretation.Quiet (f.trace I args memory k)) :
    p.func.trace I args memory k = f.trace I args memory k ∧
      Interpretation.Quiet (p.func.trace I args memory k) := by
  have heq : p.func.trace I args memory k = f.trace I args memory k := by
    by_cases h₀ : 0 < f.numBlocks
    · obtain ⟨rank, hd⟩ := Analysis.describes ha h₀
      have hf := hbuilt.consistent.valid hdecl h₀ hcheck
      exact (sweeps_moved hd hterm _ (.refl hf) hrun).trace hI hquiet
    · have hnil : f.placed = [] := by
        have hblocks : f.blocks = #[] := Array.size_eq_zero_iff.mp (Nat.eq_zero_of_not_pos h₀)
        simp [placed, hblocks]
      rw [run_of_placed_nil hnil hrun]
  exact ⟨heq, heq ▸ hquiet⟩

/-- A loop with a product that does not change in it, and with a division that is guarded by a
test of its divisor. -/
def guardedLoop : Func := .made [.i32, .i32] [
  .block, .block, .block, .block, .block, .block,
  .switch ⟨0⟩, .jump ⟨1⟩,
  .switch ⟨1⟩, .phi .i32, .compare .slt (.inst ⟨1⟩) (.arg 0), .branch (.inst ⟨2⟩) ⟨2⟩ ⟨5⟩,
  .switch ⟨2⟩, .binary .mul .i32 (.arg 0) (.arg 1), .compare .ne (.arg 1) (.lit (.i32 0)),
  .branch (.inst ⟨5⟩) ⟨3⟩ ⟨4⟩,
  .switch ⟨3⟩, .binary .sdiv .i32 (.arg 0) (.arg 1), .store (.inst ⟨7⟩) (.global 0), .jump ⟨4⟩,
  .switch ⟨4⟩, .store (.inst ⟨4⟩) (.global 1),
  .binary .add .i32 (.inst ⟨1⟩) (.lit (.i32 1)), .jump ⟨1⟩,
  .switch ⟨5⟩, .ret none,
  .incoming ⟨1⟩ (.lit (.i32 0)) ⟨0⟩, .incoming ⟨1⟩ (.inst ⟨11⟩) ⟨4⟩]

open Interpretation in
/-- The product is hoisted out of the loop, the division stays behind its guard, and a call with a
zero divisor runs as before. -/
theorem run_preserves_quiet_trace_guardedLoop :
    ∃ a p r, Analysis.ofFunc guardedLoop = .ok a ∧ run a {} guardedLoop = .ok (p, r) ∧
      p.changes = 1 ∧ p.func.homeOf ⟨4⟩ = some ⟨0⟩ ∧
      p.func.trace integers (integerArgs [2, 0]) zeroMemory 9 =
        guardedLoop.trace integers (integerArgs [2, 0]) zeroMemory 9 := by
  obtain ⟨a, ha, h⟩ := exists_ok_of_any (x := Analysis.ofFunc guardedLoop)
    (q := fun a => (run a {} guardedLoop).toOption.any fun r : Progress × Option Rejection =>
      r.1.changes = 1 && r.1.func.homeOf ⟨4⟩ = some ⟨0⟩) (by decide +kernel)
  obtain ⟨⟨p, r⟩, hrun, h⟩ := exists_ok_of_any h
  simp only [Bool.and_eq_true, decide_eq_true_eq] at h
  refine ⟨a, p, r, ha, hrun, h.1, h.2, (run_preserves_quiet_trace (built_made _ _)
    (by decide +kernel) (by decide +kernel) ?_ ha hrun integers_trapsOnZero _ _ 9
    (by decide +kernel)).1⟩
  have hall : ∀ b ∈ guardedLoop.blockIds, ∀ i ∈ guardedLoop.listOf b, ∀ d ∈ guardedLoop.reads i,
      ¬guardedLoop.ends d := by decide +kernel
  exact fun b i hi => hall b (BlockId.mem_upTo.mpr (lt_numBlocks_of_mem hi)) i hi

end Motion

end SsaOpt
