import SsaOpt.Proofs.Reuse

/-! Elimination of loads never reuses a load across a clobber.

Each load in the table belongs to the frame of an open block, and has stayed valid up to the end of
every open block from there on. When a block is entered, what the table holds was valid at the end
of its immediate dominator, and the search for side clobbers covers the way from there. When a block
is left its own loads go, so what remains was valid at the end of the block outside it. -/

namespace SsaOpt.Loads

open Func

variable {f g : Func} {a : Analysis} {rank : BlockId → Nat} {s s' : State} {x e : InstId}
  {b : BlockId} {z : Instruction} {done path clobbers : List BlockId} {pre rest : List InstId}
  {k : Address} {frames : List (List Address)} {eligible : List Address}

theorem find?_foldl_erase (l : List Address) : ∀ {m : Bindings Address InstId},
    (l.foldl Bindings.erase m).find? k = if k ∈ l then none else m.find? k := by
  induction l with
  | nil => exact fun {m} => rfl
  | cons k' l ih =>
    intro m
    rw [List.foldl_cons, ih, Bindings.find?_erase]
    by_cases hk : k = k'
    · simp [hk]
    · simp [hk]

/-- The load belongs to the frame of an open block, and is valid at the end of that block and of
those inside it. -/
def Held (f : Func) : List BlockId → List (List Address) → Address → InstId → Prop
  | b :: path, frame :: frames, k, e =>
    f.Unclobbered e b (f.listOf b) ∧ (k ∈ frame ∨ Held f path frames k e)
  | _, _, _, _ => False

/-- In the block `b`, before the instructions `rest`; `frames` are those of the blocks outside. -/
structure Scanning (f : Func) (done path : List BlockId) (frames : List (List Address))
    (b : BlockId) (pre rest : List InstId) (s : State) : Prop where
  midway : Midway f s.progress.func done b pre rest
  ledger : Ledger f s.progress.func (done.flatMap f.listOf ++ pre) s.progress.reuses
    s.available.table
  held : ∃ frame, s.available.frames = frame :: frames ∧ ∀ {k e},
    s.available.table.find? k = some e →
      f.Unclobbered e b pre ∧ (k ∈ frame ∨ Held f path frames k e)
  trimmed : Trimmed (· = .load) { func := f } s.progress

namespace Scanning

variable (hf : f.Valid) (h : Scanning f done path frames b pre (x :: rest) s)
include hf h

theorem unclobbered_step (hclobbers : ¬f.Clobbers x) (hun : f.Unclobbered e b pre)
    (hk : s.available.table.find? k = some e) : f.Unclobbered e b (pre ++ [x]) := by
  have hnew := h.midway.fresh hf x List.mem_cons_self
  exact hun.step (fun hxe => hnew (hxe ▸ (h.ledger.entries hk).1)) hclobbers

/-- The next instruction stays, and the table forgets what it may have changed. -/
theorem keep (frame' : List Address) (hprogress : s'.progress = s.progress)
    (hframes : s'.available.frames = frame' :: frames)
    (htable : ∀ {k e}, s'.available.table.find? k = some e →
      s.available.table.find? k = some e ∧ ¬f.Clobbers x ∧
        ∀ {frame}, s.available.frames = frame :: frames → k ∈ frame → k ∈ frame') :
    Scanning f done path frames b (pre ++ [x]) rest s' := by
  refine ⟨hprogress ▸ h.midway.keep hf, ?_, ⟨frame', hframes, fun {k e} hk => ?_⟩,
    hprogress ▸ h.trimmed⟩
  · rw [hprogress, ← List.append_assoc]
    exact h.ledger.mono (List.subset_append_left _ _) fun hk => (htable hk).1
  · obtain ⟨hk, hclobbers, hframe⟩ := htable hk
    obtain ⟨frame, heq, hheld⟩ := h.held
    obtain ⟨hun, hplace⟩ := hheld hk
    exact ⟨h.unclobbered_step hf hclobbers hun hk, hplace.imp_left (hframe heq)⟩

theorem pass (hclobbers : ¬f.Clobbers x) : Scanning f done path frames b (pre ++ [x]) rest s := by
  obtain ⟨frame, heq, -⟩ := h.held
  refine h.keep hf frame rfl heq fun hk => ⟨hk, hclobbers, fun heq' hmem => ?_⟩
  rw [heq] at heq'
  rwa [(List.cons.inj heq').1]

/-- The next instruction writes to a known address. -/
theorem invalidate (hclobbers : ¬f.Clobbers x) (address : Address) :
    Scanning f done path frames b (pre ++ [x]) rest
      { s with available := s.available.invalidate address } := by
  obtain ⟨frame, heq, -⟩ := h.held
  refine h.keep hf (frame.filter (· ≠ address)) rfl ?_ fun {k e} hk => ?_
  · simp [AvailableLoads.invalidate, heq, AvailableLoads.onTop]
  · simp only [AvailableLoads.invalidate] at hk
    rw [Bindings.find?_erase] at hk
    split at hk
    · cases hk
    · next hne =>
      refine ⟨hk, hclobbers, fun heq' hmem => ?_⟩
      rw [heq] at heq'
      rw [(List.cons.inj heq').1]
      simp [hmem, hne]

/-- The next instruction may write to any address. -/
theorem clear : Scanning f done path frames b (pre ++ [x]) rest
    { s with available := s.available.clear } := by
  obtain ⟨frame, heq, -⟩ := h.held
  refine h.keep hf [] rfl ?_ fun hk => by cases hk
  simp [AvailableLoads.clear, heq, AvailableLoads.onTop]

/-- The next instruction is a load that is entered in the table. -/
theorem add (hclobbers : ¬f.Clobbers x) {d : InstId} (hload : s.progress.func.LoadsFrom x d) :
    Scanning f done path frames b (pre ++ [x]) rest
      { s with available := s.available.add (s.progress.func.operandsOf d) x } := by
  obtain ⟨frame, heq, hheld⟩ := h.held
  refine ⟨h.midway.keep hf, ?_, ⟨frame ++ [s.progress.func.operandsOf d], ?_, fun {k e} hk => ?_⟩,
    h.trimmed⟩
  · rw [← List.append_assoc]
    exact h.ledger.add (h.midway.mem_next hf) hload
  · simp [AvailableLoads.add, heq, AvailableLoads.onTop]
  · simp only [AvailableLoads.add] at hk
    rw [Bindings.find?_insert] at hk
    split at hk
    · next hkey =>
      obtain rfl := Option.some.inj hk
      exact ⟨.executed, .inl (by simp [hkey])⟩
    · obtain ⟨hun, hplace⟩ := hheld hk
      exact ⟨h.unclobbered_step hf hclobbers hun hk,
        hplace.imp_left fun hmem => List.mem_append_left _ hmem⟩

/-- The next instruction is a load that is deleted in favour of one in the table. -/
theorem delete (hclobbers : ¬f.Clobbers x) {d : InstId} (hload : s.progress.func.LoadsFrom x d)
    (he : s.available.table.find? (s.progress.func.operandsOf d) = some e)
    (hty : (s.progress.func.bare? e).map Instruction.ty =
      (s.progress.func.bare? x).map Instruction.ty)
    (hg : Replaced s.progress.func x e s'.progress.func)
    (hchanges : s'.progress.changes = s.progress.changes + 1)
    (hreuses : s'.progress.reuses = s.progress.reuses ++ [(x, e)])
    (havailable : s'.available = s.available)
    (hunstored : ∀ {c i}, i ∈ f.listOf c → ¬f.StoresTo i (s.progress.func.operandsOf d)) :
    Scanning f done path frames b (pre ++ [x]) rest s' := by
  obtain ⟨frame, heq, hheld⟩ := h.held
  have hpr := h.midway.pruned
  obtain ⟨hseen, ⟨c, hc⟩, d', hload', -⟩ := h.ledger.entries he
  have hun := (hheld he).1
  have hop : f.op? x = some .load := (hpr.op x).symm.trans hload.load
  have hpre : pre ⊆ f.listOf b := by
    rw [h.midway.split]
    exact List.subset_append_left _ _
  obtain ⟨front, hr⟩ := h.midway.redundant hf hseen hc
    (hun.dom hf hpre h.midway.reached ((hpr.sub c).subset hc))
    (by simp [ends, hop, Opcode.isTerminator])
  have hkind : (s.progress.func.op? x).any (· = .load) := by simp [hload.load]
  have hsame := hload'.load.trans hload.load.symm
  refine ⟨h.midway.delete hseen hr hsame hg, ?_, ⟨frame, havailable ▸ heq, fun {k e'} hk => ?_⟩,
    h.trimmed.tail (.delete hkind hr hsame hg hchanges)⟩
  · rw [hreuses, havailable, ← List.append_assoc]
    exact h.ledger.delete hf h.midway he hload rfl hty hun hr hg hunstored
  · rw [havailable] at hk
    exact ⟨h.unclobbered_step hf hclobbers (hheld hk).1 hk, (hheld hk).2⟩

end Scanning

theorem reuses_note (p : Progress) (n : String) (x e : InstId) (t : String) :
    (p.note (.loadReused n x t e)).reuses = p.reuses ++ [(x, e)] := by
  simp [Progress.reuses, Progress.note, List.filterMap_append]

/-- The next instruction is classified by what it does to memory. -/
theorem memoryEffect_next (hf : f.Valid) (hlayout : f.LaidOut)
    (h : Midway f g done b pre (x :: rest)) (hz : g.bare? x = some z) (hlive : z.erased = false) :
    ∃ m, g.memoryEffect x = .ok m ∧ g.Classifies x m := by
  have hpr := h.pruned
  refine memoryEffect_spec hz (hpr.laidOut hlayout hz hlive) fun hphi o ho d hd => ?_
  have hphi' : ¬f.isPhi x := by
    rw [← hpr.isPhi_eq, isPhi_eq]
    simpa [op?, hz] using hphi
  obtain ⟨-, c, hc⟩ := h.seen_of_reads hf hphi' ((mem_reads_iff_of_bare hz).mpr (hd ▸ ho))
  obtain ⟨w, hw, hwlive⟩ := hpr.valid.exists_live hc
  exact ⟨w, hw, hpr.laidOut hlayout hw hwlive⟩

/-- What becomes of the state when `x` is visited, by what `x` does to memory. -/
inductive Visits (eligible : List Address) (s : State) (x : InstId) : MemoryEffect → State → Prop
  | pass : Visits eligible s x .none s
  | invalidate (k : Address) :
      Visits eligible s x (.write k) { s with available := s.available.invalidate k }
  | clear : Visits eligible s x .clobber { s with available := s.available.clear }
  | skip {k : Address} (hk : k ∉ eligible) : Visits eligible s x (.read k) s
  | add {k : Address} (hk : k ∈ eligible) (hnone : s.available.table.find? k = none) :
      Visits eligible s x (.read k) { s with available := s.available.add k x }
  | differ {k : Address} {e : InstId} (hk : k ∈ eligible)
      (he : s.available.table.find? k = some e)
      (hty : (s.progress.func.bare? e).map Instruction.ty ≠
        (s.progress.func.bare? x).map Instruction.ty) : Visits eligible s x (.read k) s
  | reuse {k : Address} {e : InstId} {s' : State} (hk : k ∈ eligible)
      (he : s.available.table.find? k = some e)
      (hty : (s.progress.func.bare? e).map Instruction.ty =
        (s.progress.func.bare? x).map Instruction.ty)
      (hg : Replaced s.progress.func x e s'.progress.func)
      (hchanges : s'.progress.changes = s.progress.changes + 1)
      (hreuses : s'.progress.reuses = s.progress.reuses ++ [(x, e)])
      (havailable : s'.available = s.available) : Visits eligible s x (.read k) s'

theorem visitInst_visits (hf : f.Valid) (hlayout : f.LaidOut)
    (h : Scanning f done path frames b pre (x :: rest) s) :
    ∃ m s', s.progress.func.Classifies x m ∧ visitInst eligible s x = .ok s' ∧
      Visits eligible s x m s' := by
  have hpr := h.midway.pruned
  obtain ⟨w, hw, hlive⟩ := hpr.valid.exists_live (h.midway.mem_next hf)
  obtain ⟨m, hm, hclass⟩ := memoryEffect_next hf hlayout h.midway hw hlive
  refine ⟨m, ?_⟩
  simp only [visitInst, hm, bind, Except.bind]
  cases m with
  | none => exact ⟨s, hclass, rfl, .pass⟩
  | write address => exact ⟨_, hclass, rfl, .invalidate address⟩
  | clobber => exact ⟨_, hclass, rfl, .clear⟩
  | read address =>
    simp only
    split
    · next hmem => exact ⟨s, hclass, rfl, .skip hmem⟩
    · next hmem =>
      have hmem := not_not.mp hmem
      cases he : s.available.table.find? address with
      | none => exact ⟨_, hclass, rfl, .add hmem he⟩
      | some e =>
        obtain ⟨hseen, ⟨c, hc⟩, -⟩ := h.ledger.entries he
        obtain ⟨v, hv⟩ := hpr.valid.consistent.bare?_of_mem hc
        obtain ⟨y, hy, rfl⟩ := bare?_eq_some_iff.mp hv
        obtain ⟨z, hz, rfl⟩ := bare?_eq_some_iff.mp hw
        have hty : (s.progress.func.bare? e).map Instruction.ty =
            (s.progress.func.bare? x).map Instruction.ty ↔ y.ty = z.ty := by
          rw [hv, hw]
          exact Option.some_inj
        simp only [hy, hz, renderInst]
        split
        · next hsame =>
          have hne : e ≠ x := fun hex =>
            h.midway.fresh hf x List.mem_cons_self (hex ▸ hseen)
          obtain ⟨q, hq, hrep, hchanges, hremarks⟩ := replaceBy_spec
            (p := s.progress.note (.loadReused s.progress.func.name x (z.render x) e))
            hpr.valid.consistent (by simp [Progress.note, hw]) (by simp [Progress.note, hv]) hne
          have hreuses : q.reuses = s.progress.reuses ++ [(x, e)] := by
            rw [← reuses_note, Progress.reuses, hremarks, ← Progress.reuses]
          simp only [bind, Except.bind, pure, Except.pure, hq]
          exact ⟨_, hclass, rfl, .reuse hmem he (hty.mpr hsame) hrep hchanges hreuses rfl⟩
        · next hdiffer => exact ⟨s, hclass, rfl, .differ hmem he fun heq => hdiffer (hty.mp heq)⟩

theorem visitInst_spec (hf : f.Valid) (hlayout : f.LaidOut)
    (hunstored : ∀ k ∈ eligible, ∀ {c i}, i ∈ f.listOf c → ¬f.StoresTo i k)
    (h : Scanning f done path frames b pre (x :: rest) s) :
    ∃ s', visitInst eligible s x = .ok s' ∧ Scanning f done path frames b (pre ++ [x]) rest s' := by
  obtain ⟨m, s', hclass, hs', hvisits⟩ := visitInst_visits hf hlayout h
  have hsafe : m ≠ .clobber → ¬f.Clobbers x := fun hne hx =>
    hne (hclass.clobber.mpr (h.ledger.clobbers hf h.midway hx))
  refine ⟨s', hs', ?_⟩
  cases hvisits with
  | pass => exact h.pass hf (hsafe (by simp))
  | invalidate k => exact h.invalidate hf (hsafe (by simp)) k
  | clear => exact h.clear hf
  | skip | differ => exact h.pass hf (hsafe (by simp))
  | add =>
    obtain ⟨d, hload, -, rfl⟩ := (hclass.read _).mp rfl
    exact h.add hf (hsafe (by simp)) hload
  | reuse hk he hty hg hchanges hreuses havailable =>
    obtain ⟨d, hload, -, rfl⟩ := (hclass.read _).mp rfl
    exact h.delete hf (hsafe (by simp)) hload he hty hg hchanges hreuses havailable
      (hunstored _ hk)

/-- Between two visits of the tour. -/
structure Eliminated (f : Func) (done path : List BlockId) (s : State) : Prop where
  pruned : Pruned f s.progress.func (done.flatMap f.listOf)
  ledger : Ledger f s.progress.func (done.flatMap f.listOf) s.progress.reuses s.available.table
  depth : s.available.frames.length = path.length
  held : ∀ {k e}, s.available.table.find? k = some e → Held f path s.available.frames k e
  trimmed : Trimmed (· = .load) { func := f } s.progress

theorem eliminated_start (hf : f.Valid) : Eliminated f [] [] { progress := { func := f } } :=
  ⟨.refl hf, .start, rfl, (fun hk => by cases hk), .refl⟩

/-- A load held at the end of the immediate dominator is valid on entry to a block, unless the
search finds a clobber. -/
theorem unclobbered_of_held (hd : a.Describes f rank) (hf : f.Valid)
    (hclean : ∀ c, c ∉ clobbers → ∀ i ∈ f.listOf c, ¬f.Clobbers i)
    (hside : sideClobbers a clobbers b = false) (hhead : path.head? = a.dom.idom? b)
    (h : Held f path frames k e) : f.Unclobbered e b [] := by
  cases path with
  | nil => exact h.elim
  | cons d path =>
    cases frames with
    | nil => exact h.elim
    | cons frame frames =>
      obtain ⟨hdom, hne, -⟩ := hd.idom?_spec hhead.symm
      refine h.1.enter hf hdom hne fun s hs hds c hc => ?_
      exact hclean c (not_mem_of_sideClobbers hd hhead.symm hside hs hds c hc)

/-- The state in which the instructions of `b` are visited. -/
def opened (a : Analysis) (clobbers : List BlockId) (b : BlockId) (s : State) : State :=
  if !s.available.table.isEmpty && sideClobbers a clobbers b then
    { progress := s.progress.note (.sideClobber s.progress.func.name b)
      available := s.available.enterBlock.clear }
  else { s with available := s.available.enterBlock }

theorem opened_func : (opened a clobbers b s).progress.func = s.progress.func := by
  unfold opened
  split <;> rfl

theorem opened_changes : (opened a clobbers b s).progress.changes = s.progress.changes := by
  unfold opened
  split <;> rfl

theorem opened_reuses : (opened a clobbers b s).progress.reuses = s.progress.reuses := by
  unfold opened
  split
  · simp [Progress.reuses, Progress.note, List.filterMap_append]
  · rfl

theorem opened_frames : (opened a clobbers b s).available.frames = [] :: s.available.frames := by
  unfold opened
  split <;> rfl

/-- What the table still has after the search for side clobbers. -/
theorem of_opened_find? (hk : (opened a clobbers b s).available.table.find? k = some e) :
    s.available.table.find? k = some e ∧ sideClobbers a clobbers b = false := by
  unfold opened at hk
  split at hk
  · cases hk
  · next hside =>
    have hfull : s.available.table.isEmpty = false := by
      rw [Bindings.isEmpty, List.isEmpty_eq_false_iff]
      intro hnil
      simp [AvailableLoads.enterBlock, Bindings.find?, hnil] at hk
    simp only [hfull, Bool.not_false, Bool.true_and, Bool.not_eq_true] at hside
    exact ⟨hk, hside⟩

theorem scanning_enter (hd : a.Describes f rank) (hf : f.Valid)
    (hclean : ∀ c, c ∉ clobbers → ∀ i ∈ f.listOf c, ¬f.Clobbers i)
    (hmid : Midway f s.progress.func done b [] (f.listOf b))
    (hhead : path.head? = a.dom.idom? b) (h : Eliminated f done path s) :
    Scanning f done path s.available.frames b [] (f.listOf b) (opened a clobbers b s) := by
  refine ⟨by rwa [opened_func], ?_, ⟨[], opened_frames, fun {k e} hk => ?_⟩,
    h.trimmed.tail (.keep opened_func opened_changes)⟩
  · rw [opened_func, opened_reuses, List.append_nil]
    exact h.ledger.mono (List.Subset.refl _) fun hk => (of_opened_find? hk).1
  · obtain ⟨hk, hside⟩ := of_opened_find? hk
    exact ⟨unclobbered_of_held hd hf hclean hside hhead (h.held hk), .inr (h.held hk)⟩

theorem visit_enter_eq (hf : f.Valid) (hmid : Midway f s.progress.func done b [] (f.listOf b)) :
    visit a eligible clobbers s (.enter b) =
      (f.listOf b).foldlM (visitInst eligible) (opened a clobbers b s) := by
  obtain ⟨y, hy, hinsts⟩ := hmid.block_eq hf
  simp only [visit, hy, bind, Except.bind, hinsts]
  rfl

theorem visit_enter (hd : a.Describes f rank) (hf : f.Valid) (hlayout : f.LaidOut)
    (hunstored : ∀ k ∈ eligible, ∀ {c i}, i ∈ f.listOf c → ¬f.StoresTo i k)
    (hclean : ∀ c, c ∉ clobbers → ∀ i ∈ f.listOf c, ¬f.Clobbers i) (hb : f.Reached b)
    (hnew : b ∉ done) (hdoms : ∀ c, c ≠ b → f.Dom c b → c ∈ done)
    (hhead : path.head? = a.dom.idom? b) (h : Eliminated f done path s) :
    ∃ s', visit a eligible clobbers s (.enter b) = .ok s' ∧
      Eliminated f (done ++ [b]) (b :: path) s' := by
  have hmid := Midway.enter h.pruned hb hnew hdoms
  obtain ⟨s', hs', hend⟩ := exists_foldlM (visitInst_spec hf hlayout hunstored)
    (scanning_enter hd hf hclean hmid hhead h)
  refine ⟨s', ?_, ?_⟩
  · rw [visit_enter_eq hf hmid]
    exact hs'
  · obtain ⟨frame, heq, hheld⟩ := hend.held
    refine ⟨hend.midway.leave, by simpa using hend.ledger, by simp [heq, h.depth], fun hk => ?_,
      hend.trimmed⟩
    rw [heq]
    exact hheld hk

theorem visit_leave (h : Eliminated f done (b :: path) s) :
    ∃ s', visit a eligible clobbers s (.leave b) = .ok s' ∧ Eliminated f done path s' := by
  refine ⟨_, rfl, ?_⟩
  cases hframes : s.available.frames with
  | nil =>
    have hdepth := h.depth
    simp [hframes] at hdepth
  | cons frame frames =>
    have hdepth := h.depth
    simp only [AvailableLoads.leaveBlock, hframes]
    have hleft : ∀ {k e}, (frame.foldl Bindings.erase s.available.table).find? k = some e →
        k ∉ frame ∧ s.available.table.find? k = some e := by
      intro k e hk
      rw [find?_foldl_erase] at hk
      split at hk
      · cases hk
      · next hnot => exact ⟨hnot, hk⟩
    refine ⟨h.pruned, h.ledger.mono (List.Subset.refl _) fun hk => (hleft hk).2, ?_,
      fun {k e} hk => ?_, h.trimmed⟩
    · simpa [hframes] using hdepth
    · obtain ⟨hnot, hk⟩ := hleft hk
      have hheld := h.held hk
      rw [hframes] at hheld
      exact hheld.2.resolve_left hnot

/-- Elimination of loads of a valid function whose instructions have the operands that they take
comes to an end, after deletions of loads that the ledger accounts for. -/
theorem exists_trimmed_run (hd : a.Describes f rank) (hf : f.Valid) (htied : f.Tied)
    (hlayout : f.LaidOut) : ∃ p seen table, run a f = .ok p ∧ Pruned f p.func seen ∧
      Ledger f p.func seen p.reuses table ∧ Trimmed (· = .load) { func := f } p := by
  have hlegible : f.Legible := hlayout.legible hf htied
  obtain ⟨eligible, heligible, hmem⟩ := eligibleAddresses_spec hlegible
  obtain ⟨clobbers, hclobbers, hmem'⟩ := clobberBlocks_spec hlegible
  have hunstored : ∀ k ∈ eligible, ∀ {c i}, i ∈ f.listOf c → ¬f.StoresTo i k := fun k hk =>
    ((hmem k).mp hk).2
  have hclean : ∀ c, c ∉ clobbers → ∀ i ∈ f.listOf c, ¬f.Clobbers i := fun c hc i hi hclobber =>
    hc ((hmem' c).mpr ⟨i, hi, hclobber⟩)
  simp only [run, heligible, hclobbers, bind, Except.bind]
  split
  · exact ⟨_, [], {}, rfl, .refl hf, .start, .refl⟩
  · obtain ⟨s, hs, hend⟩ := hd.foldlM_tour (P := Eliminated f)
      (visit_enter hd hf hlayout hunstored hclean) visit_leave (eliminated_start hf)
    rw [hs]
    exact ⟨_, _, _, rfl, hend.pruned, hend.ledger, hend.trimmed⟩

theorem exists_run (hd : a.Describes f rank) (hf : f.Valid) (htied : f.Tied)
    (hlayout : f.LaidOut) : ∃ p seen table, run a f = .ok p ∧ Pruned f p.func seen ∧
      Ledger f p.func seen p.reuses table := by
  obtain ⟨p, seen, table, hp, hpr, hledger, -⟩ := exists_trimmed_run hd hf htied hlayout
  exact ⟨p, seen, table, hp, hpr, hledger⟩

/-- Elimination of loads deletes loads, and counts them. -/
theorem run_trimmed {p : Progress} (hd : a.Describes f rank) (hf : f.Valid) (htied : f.Tied)
    (hlayout : f.LaidOut) (h : run a f = .ok p) :
    (∃ seen, Pruned f p.func seen) ∧ Trimmed (· = .load) { func := f } p := by
  obtain ⟨q, seen, table, hq, hpr, -, htrimmed⟩ := exists_trimmed_run hd hf htied hlayout
  obtain rfl := Except.ok.inj (hq.symm.trans h)
  exact ⟨⟨seen, hpr⟩, htrimmed⟩

theorem run_of_no_blocks (h₀ : ¬0 < f.numBlocks) : run a f = .ok { func := f } := by
  have hblocks : f.blocks = #[] := Array.size_eq_zero_iff.mp (Nat.eq_zero_of_not_pos h₀)
  have hnone : f.eligibleAddresses = .ok [] := by
    simp only [eligibleAddresses, placed, hblocks]
    rfl
  simp only [run, hnone, bind, Except.bind]
  rfl

/-- **Elimination of loads never reuses a load across a clobber.** Take a function that was
accepted, whose instructions have the operands that they are built with. Elimination of loads comes
to an end. Each load that it deleted in favour of another has the type of that load and loads from
an address computed from the same operands, and on every walk from the entry that comes to the
deleted load the other was executed, and after its last execution no call, and no store but to an
address computed from integer literals. Nothing else was deleted. -/
theorem run_reuses_unclobbered {f : Func} (hbuilt : f.Built) (hdecl : f.isDeclaration = false)
    (hcheck : f.check = .ok ()) (hlayout : f.LaidOut) {a : Analysis}
    (ha : Analysis.ofFunc f = .ok a) :
    ∃ p, run a f = .ok p ∧ (∀ {x e}, (x, e) ∈ p.reuses → Reuse f p.func x e) ∧
      ∀ {i z w}, p.func.bare? i = some z → z.erased = true → f.bare? i = some w →
        w.erased = false → ∃ e, (i, e) ∈ p.reuses := by
  suffices h : ∃ p seen table, run a f = .ok p ∧ Ledger f p.func seen p.reuses table by
    obtain ⟨p, seen, table, hp, hledger⟩ := h
    exact ⟨p, hp, hledger.reuse, hledger.deleted⟩
  by_cases h₀ : 0 < f.numBlocks
  · obtain ⟨rank, hd⟩ := Analysis.describes ha h₀
    have hf := hbuilt.consistent.valid hdecl h₀ hcheck
    have htied := hbuilt.consistent.tied hdecl hcheck
    obtain ⟨p, seen, table, hp, -, hledger⟩ := exists_run hd hf htied hlayout
    exact ⟨p, seen, table, hp, hledger⟩
  · exact ⟨_, [], {}, run_of_no_blocks h₀, .start⟩

/-- An element is loaded before a branch, again where the arms join, and again after a call. One
arm stores to another element. -/
def storingArm : Func := .made [.ptr, .i1] [
  .block, .block, .block, .block,
  .switch ⟨0⟩, .elementPtr (.arg 0) [.lit (.i64 0)], .load .i32 (.inst ⟨0⟩),
  .branch (.arg 1) ⟨1⟩ ⟨2⟩,
  .switch ⟨1⟩, .elementPtr (.arg 0) [.lit (.i64 1)], .store (.inst ⟨1⟩) (.inst ⟨3⟩), .jump ⟨3⟩,
  .switch ⟨2⟩, .jump ⟨3⟩,
  .switch ⟨3⟩, .elementPtr (.arg 0) [.lit (.i64 0)], .load .i32 (.inst ⟨7⟩),
  .call "observe" .void [.inst ⟨8⟩], .load .i32 (.inst ⟨7⟩), .ret (some (.inst ⟨10⟩))]

/-- The load at the join is deleted, the load after the call is not. -/
theorem run_reuses_unclobbered_storingArm :
    ∃ a p, Analysis.ofFunc storingArm = .ok a ∧ run a storingArm = .ok p ∧
      p.reuses = [(⟨8⟩, ⟨1⟩)] ∧ Reuse storingArm p.func ⟨8⟩ ⟨1⟩ := by
  obtain ⟨a, ha, h⟩ := exists_ok_of_any (x := Analysis.ofFunc storingArm)
    (q := fun a => (run a storingArm).toOption.any fun p : Progress => p.reuses = [(⟨8⟩, ⟨1⟩)])
    (by decide +kernel)
  obtain ⟨q, hq, hreuses⟩ := exists_ok_of_any h
  have hreuses := of_decide_eq_true hreuses
  obtain ⟨p, hp, hreuse, -⟩ := run_reuses_unclobbered (built_made _ _) (by decide +kernel)
    (by decide +kernel) (by decide +kernel) ha
  obtain rfl := Except.ok.inj (hq.symm.trans hp)
  exact ⟨a, q, ha, hq, hreuses, hreuse (by simp [hreuses])⟩

end SsaOpt.Loads
