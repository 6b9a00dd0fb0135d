import SsaOpt.Proofs.Validity

/-! The check of a function decides. Each part of it succeeds exactly if the function has the
property that the part stands for, and the whole succeeds exactly on the well-formed functions:
those in which every walk from the entry meets a definition before its use. -/

namespace SsaOpt

theorem pairwise_iff_split {α : Type} {r : α → α → Prop} {l : List α} :
    l.Pairwise r ↔ ∀ pre i post, l = pre ++ i :: post → ∀ j ∈ pre, r j i := by
  constructor
  · rintro h pre i post rfl j hj
    exact (List.pairwise_append.mp h).2.2 j hj i List.mem_cons_self
  · intro h
    induction l with
    | nil => exact .nil
    | cons a l ih =>
      refine .cons (fun i hi => ?_) (ih fun pre i post heq j hj => ?_)
      · obtain ⟨pre, post, rfl⟩ := List.append_of_mem hi
        exact h (a :: pre) i post rfl a List.mem_cons_self
      · exact h (a :: pre) i post (by rw [heq]; rfl) j (List.mem_cons_of_mem _ hj)

namespace Func

variable {f : Func} {i d : InstId} {b : BlockId} {pre post : List InstId}

/-! ## Blocks -/

/-- Phis, then other instructions, then one terminator, and none of them is erased. -/
structure Shaped (f : Func) (b : BlockId) : Prop where
  ne_nil : f.listOf b ≠ []
  live : ∀ i ∈ f.listOf b, f.live i
  phis_first : ∀ {pre i post}, f.listOf b = pre ++ i :: post → f.isPhi i → ∀ j ∈ pre, f.isPhi j
  ends_iff : ∀ {pre i post}, f.listOf b = pre ++ i :: post → (f.ends i = true ↔ post = [])

theorem decides_checkListed {phisOnly : Bool} {is : List InstId}
    (hhome : ∀ i ∈ is, ∃ x, f.inst i = .ok x ∧ x.home = some b) :
    Decides (f.checkListed b phisOnly is) ((∀ i ∈ is, f.live i) ∧
      (∀ i ∈ is, f.isPhi i → phisOnly) ∧
      is.Pairwise fun j i => ¬f.ends j ∧ (f.isPhi i → f.isPhi j)) := by
  induction is generalizing phisOnly with
  | nil => exact .accept (by simp)
  | cons i rest ih =>
    obtain ⟨x, hx, hb⟩ := hhome i List.mem_cons_self
    have hrest := fun only => @ih only fun j hj => hhome j (List.mem_cons_of_mem _ hj)
    have hlive := live_of_inst hx
    have hphi : f.isPhi i = x.op.isPhi := by rw [isPhi_eq, op?_of_inst hx]; rfl
    have hends : f.ends i = x.op.isTerminator := by rw [ends, op?_of_inst hx]; rfl
    refine Decides.congr (.lift hx (.guard fun _ => .guard fun _ => .guard fun _ =>
      .guard fun _ => hrest _)) ?_
    have hempty : rest.isEmpty = true ↔ ∀ j, j ∉ rest := by
      rw [List.isEmpty_iff, List.eq_nil_iff_forall_not_mem]
    simp only [List.forall_mem_cons, List.pairwise_cons, hlive, hphi, hends, hb]
    grind

theorem decides_checkShape (hf : f.Consistent) (hb : b.index < f.numBlocks) :
    Decides (f.checkShape b) (f.Shaped b) := by
  obtain ⟨y, hy⟩ := exists_block hb
  have hlist := listOf_of_block hy
  have hinst : ∀ i ∈ f.listOf b, ∃ x, f.inst i = .ok x ∧ x.home = some b := by
    intro i hi
    obtain ⟨x, hx⟩ := hf.exists_inst hi
    exact ⟨x, hx, homeOf_of_inst hx ▸ (hf.mem_list b i).mp hi⟩
  refine Decides.lift hy ?_
  rw [← hlist]
  cases hlast : (f.listOf b).getLast? with
  | none =>
    simp only [hlast]
    exact .reject fun h => Shaped.ne_nil h (List.getLast?_eq_none_iff.mp hlast)
  | some t =>
    simp only [hlast]
    obtain ⟨x, hx, -⟩ := hinst t (List.mem_of_getLast? hlast)
    have hends : f.ends t = x.op.isTerminator := by rw [ends, op?_of_inst hx]; rfl
    obtain ⟨front, hsplit⟩ : ∃ front, f.listOf b = front ++ [t] := by
      simpa using List.getLast?_eq_some_iff.mp hlast
    refine Decides.congr (.lift hx (.guard fun _ => decides_checkListed hinst)) ?_
    rw [pairwise_iff_split, ← hends]
    constructor
    · rintro ⟨hterm, hlive, -, hpairs⟩
      refine ⟨by simp [hsplit], hlive, fun heq hi j hj => (hpairs _ _ _ heq j hj).2 hi, ?_⟩
      intro pre i post heq
      constructor
      · intro hi
        -- an instruction with one after it does not end the block
        by_contra hpost
        obtain ⟨j, rest, rfl⟩ := List.exists_cons_of_ne_nil hpost
        exact (hpairs (pre ++ [i]) j rest (by simp [heq]) i (by simp)).1 hi
      · rintro rfl
        obtain rfl : i = t := by simpa [heq] using hlast
        simpa using hterm
    · intro h
      refine ⟨by simpa using (h.ends_iff hsplit).mpr rfl, h.live, by simp, ?_⟩
      intro pre i post heq j hj
      refine ⟨fun hj' => ?_, fun hi => h.phis_first heq hi j hj⟩
      obtain ⟨front, back, rfl⟩ := List.append_of_mem hj
      have := (h.ends_iff (heq.trans (List.append_assoc ..))).mp hj'
      simp at this

/-! ## Edges -/

/-- Use edges join instructions that are not erased. -/
structure Linked (f : Func) (i : InstId) : Prop where
  reads : ∀ d ∈ f.reads i, f.live d
  readers : ∀ j, i ∈ f.reads j → f.live j

theorem decides_checkSlot (hf : f.Consistent) {o : Operand} {k : Nat}
    (hslot : f.slot ⟨i, k⟩ = some o) :
    Decides (f.checkSlot i o k) (∀ d, o = .inst d → f.live d) := by
  cases o with
  | inst d =>
    have huse := (hf.mem_uses d ⟨i, k⟩).mpr hslot
    obtain ⟨x, hx⟩ := exists_inst_of_mem_uses huse
    rw [usesOf_of_inst hx] at huse
    refine Decides.congr (.lift hx (.guard fun _ => .guard fun _ => .accept trivial)) ?_
    simp [huse, live_of_inst hx]
  | _ => exact .accept (by simp)

theorem decides_checkEdge (hf : f.Consistent) {u : Use} (hu : u ∈ f.usesOf i) :
    Decides (f.checkEdge i u) (f.live u.user) := by
  have hslot := (hf.mem_uses i u).mp hu
  obtain ⟨x, hx⟩ := exists_inst_of_slot hslot
  rw [slot, operandsOf_of_inst hx] at hslot
  refine Decides.congr (.lift hx (.guard fun _ => .accept trivial)) ?_
  simp [hslot, live_of_inst hx]

theorem decides_checkEdges (hf : f.Consistent) (hi : i ∈ f.listOf b) :
    Decides (f.checkEdges i) (f.Linked i) := by
  obtain ⟨x, hx⟩ := hf.exists_inst hi
  have hslot : ∀ {o k}, (o, k) ∈ x.operands.zipIdx ↔ f.slot ⟨i, k⟩ = some o := by
    intro o k
    rw [slot, operandsOf_of_inst hx, List.mem_zipIdx_iff_getElem?]
  refine Decides.congr (.lift hx (.andThen
    (.forM fun p hp => decides_checkSlot hf (hslot.mp hp)) fun _ =>
      .forM fun u hu => decides_checkEdge hf (usesOf_of_inst hx ▸ hu))) ?_
  constructor
  · rintro ⟨hreads, hreaders⟩
    constructor
    · intro d hd
      obtain ⟨k, hk⟩ := mem_reads_iff.mp hd
      exact hreads (.inst d, k) (hslot.mpr hk) d rfl
    · intro j hj
      obtain ⟨k, hk⟩ := mem_reads_iff.mp hj
      exact hreaders ⟨j, k⟩ (usesOf_of_inst hx ▸ (hf.mem_uses i _).mpr hk)
  · rintro ⟨hreads, hreaders⟩
    constructor
    · rintro ⟨o, k⟩ hp d rfl
      exact hreads d (mem_reads_iff.mpr ⟨k, hslot.mp hp⟩)
    · intro u hu
      rw [← usesOf_of_inst hx, hf.mem_uses] at hu
      exact hreaders u.user (mem_reads_iff.mpr ⟨u.index, hu⟩)

/-! ## Phis -/

/-- The incoming blocks of a phi. -/
def incomingOf (f : Func) (i : InstId) : Option (List BlockId) := (f.op? i).bind Opcode.incoming?

theorem incomingOf_of_inst {x : Instruction} (h : f.inst i = .ok x) :
    f.incomingOf i = x.op.incoming? := by
  simp [incomingOf, op?_of_inst h]

/-- A phi has one predecessor of its block for each of its operands. -/
structure Joins (f : Func) (b : BlockId) (i : InstId) : Prop where
  length : ∀ {bs}, f.incomingOf i = some bs → bs.length = (f.operandsOf i).length
  edge : ∀ {bs p}, f.incomingOf i = some bs → p ∈ bs → f.Edge p b

theorem decides_checkPhi (hf : f.Consistent) {a : Analysis} {rank : BlockId → Nat}
    (hd : a.Describes f rank) (hi : i ∈ f.listOf b) :
    Decides (f.checkPhi a b i) (f.Joins b i) := by
  obtain ⟨x, hx⟩ := hf.exists_inst hi
  have hpreds : ∀ p, p ∈ a.graph.preds b ↔ f.Edge p b := by
    intro p
    rw [hd.graph.valid.mem_preds, hd.edge_eq]
  refine Decides.lift hx ?_
  cases hbs : x.op.incoming? with
  | none =>
    have hnone : ∀ {bs}, f.incomingOf i ≠ some bs := by simp [incomingOf_of_inst hx, hbs]
    exact .accept ⟨fun h => absurd h hnone, fun h => absurd h hnone⟩
  | some bs =>
    have hsome : f.incomingOf i = some bs := by rw [incomingOf_of_inst hx, hbs]
    have hin : ∀ p, Decides (if p ∈ a.graph.preds b then pure ()
        else f.reject (.inst i) (.incomingStranger p b)) (f.Edge p b) := by
      intro p
      split
      · next h => exact .accept ((hpreds p).mp h)
      · next h => exact .reject (h ∘ (hpreds p).mpr)
    refine Decides.congr (.guard fun _ => .forM fun p _ => hin p) ?_
    rw [← operandsOf_of_inst hx, not_not]
    constructor
    · rintro ⟨hlen, hedge⟩
      constructor
      · intro bs' hbs'
        obtain rfl := Option.some.inj (hsome.symm.trans hbs')
        exact hlen
      · intro bs' p hbs' hp
        obtain rfl := Option.some.inj (hsome.symm.trans hbs')
        exact hedge p hp
    · exact fun h => ⟨h.length hsome, fun p hp => h.edge hsome hp⟩

/-! ## Definitions and uses -/

theorem Consistent.standsBefore_eq (hf : f.Consistent) {home : BlockId} {front back : List InstId}
    (hd : f.listOf home = front ++ d :: back) (hi : f.listOf b = pre ++ i :: post) :
    f.standsBefore d i = .ok (decide (front.length < pre.length)) := by
  simp only [standsBefore, hf.position?_eq hd, hf.position?_eq hi, bind, Except.bind]
  rfl

theorem length_lt_iff_mem {front back : List InstId} (hnodup : (f.listOf b).Nodup)
    (hd : f.listOf b = front ++ d :: back) (hi : f.listOf b = pre ++ i :: post) :
    front.length < pre.length ↔ d ∈ pre := by
  constructor
  · intro hlt
    have hat : (pre ++ i :: post)[front.length]? = some d := by
      rw [← hi, hd, List.getElem?_append_right (Nat.le_refl _), Nat.sub_self]
      rfl
    rw [List.getElem?_append_left hlt] at hat
    exact List.mem_of_getElem? hat
  · intro hmem
    obtain ⟨front', back', rfl⟩ := List.append_of_mem hmem
    obtain ⟨rfl, -⟩ := split_unique (hd ▸ hnodup) (hd.symm.trans (hi.trans (List.append_assoc ..)))
    simp

/-- What slot `k` of `i` reads is defined where it is read: right before `i`, which stands in `b`
after the instructions `pre`, or for a phi at the end of the incoming block. -/
structure Defined (f : Func) (b : BlockId) (pre : List InstId) (i : InstId) (k : Nat)
    (d : InstId) : Prop where
  placed : ∃ home, d ∈ f.listOf home
  avail : ¬f.isPhi i → f.Avail b pre d
  incoming : ∀ {bs p}, f.incomingOf i = some bs → bs[k]? = some p → f.Reached p →
    ∃ home, d ∈ f.listOf home ∧ f.Dom home p

theorem decides_checkAvailable (hf : f.Consistent) {a : Analysis} {rank : BlockId → Nat}
    (ha : a.Describes f rank) {x : Instruction} {k : Nat} (hx : f.inst i = .ok x)
    (hb : f.Reached b) (hi : f.listOf b = pre ++ i :: post) (hjoins : f.Joins b i)
    (hslot : f.slot ⟨i, k⟩ = some (.inst d)) :
    Decides (f.checkAvailable a b i x (.inst d) k) (f.Defined b pre i k d) := by
  obtain ⟨y, hy⟩ := exists_inst_of_mem_uses ((hf.mem_uses d _).mpr hslot)
  have hphi : f.isPhi i = x.op.isPhi := by rw [isPhi_eq, op?_of_inst hx]; rfl
  refine Decides.lift hy ?_
  cases hhome : y.home with
  | none =>
    refine .reject fun h => ?_
    obtain ⟨home, hmem⟩ := Defined.placed h
    rw [hf.mem_list, homeOf_of_inst hy, hhome] at hmem
    cases hmem
  | some home =>
    have hmem : d ∈ f.listOf home := (hf.mem_list home d).mpr (by rw [homeOf_of_inst hy, hhome])
    cases hbs : x.op.incoming? with
    | some bs =>
      have hbs' : f.incomingOf i = some bs := by rw [incomingOf_of_inst hx, hbs]
      have hk : k < bs.length := by
        rw [hjoins.length hbs']
        exact (List.getElem?_eq_some_iff.mp hslot).1
      have hat := List.getElem?_eq_getElem hk
      refine Decides.congr (.lift (ofOption_eq_ok_iff.mpr hat)
        (.guard fun _ => .accept trivial)) ?_
      simp only [and_true, Bool.and_eq_true, Bool.not_eq_true', not_and, Bool.not_eq_false,
        ha.reachable_iff, ha.dominates_iff]
      constructor
      · intro hdom
        refine ⟨⟨home, hmem⟩, fun hnot => ?_, fun hbs'' hp hreach => ⟨home, hmem, ?_⟩⟩
        · exact absurd (isPhi_of_incoming (op?_of_inst hx) hbs) hnot
        · obtain rfl := Option.some.inj (hbs'.symm.trans hbs'')
          obtain rfl := Option.some.inj (hat.symm.trans hp)
          exact hdom hreach
      · intro h hreach
        obtain ⟨c, hc, hdom⟩ := h.incoming hbs' hat hreach
        exact hf.home_unique hc hmem ▸ hdom
    | none =>
      have hnot : ¬f.isPhi i := by rw [hphi]; exact incoming?_eq_none_iff.mp hbs
      obtain ⟨front, back, hd⟩ := List.append_of_mem hmem
      refine Decides.congr (.guard fun _ => .lift (hf.standsBefore_eq hd hi)
        (.guard fun _ => .accept trivial)) ?_
      simp only [Bool.not_eq_true', Bool.not_eq_false, ha.dominates_iff, and_true, Bool.and_eq_true,
        decide_eq_true_eq, decide_eq_false_iff_not, not_and, not_not]
      constructor
      · rintro ⟨hdom, hbefore⟩
        refine ⟨⟨home, hmem⟩, fun _ => ?_, fun h => ?_⟩
        · by_cases heq : home = b
          · subst heq
            exact .inl ((length_lt_iff_mem (hf.list_nodup home) hd hi).mp (hbefore rfl))
          · exact .inr ⟨home, hmem, heq, hdom⟩
        · rw [incomingOf_of_inst hx, hbs] at h
          cases h
      · intro h
        rcases h.avail hnot with hpre | ⟨c, hc, hne, hdom⟩
        · obtain rfl := hf.home_unique hmem (by simp [hi, hpre] : d ∈ f.listOf b)
          exact ⟨.refl hb, fun _ => (length_lt_iff_mem (hf.list_nodup home) hd hi).mpr hpre⟩
        · obtain rfl := hf.home_unique hmem hc
          exact ⟨hdom, fun heq => absurd heq hne⟩

/-! ## The whole check -/

/-- What the check of an instruction stands for. -/
structure Lawful (f : Func) (b : BlockId) (i : InstId) : Prop where
  linked : f.Linked i
  joins : f.Joins b i
  defined : f.Reached b → ∀ {pre post k d}, f.listOf b = pre ++ i :: post →
    f.slot ⟨i, k⟩ = some (.inst d) → f.Defined b pre i k d

section

variable {a : Analysis} {rank : BlockId → Nat}

theorem decides_checkDominance (hf : f.Consistent) (ha : a.Describes f rank)
    (hi : i ∈ f.listOf b) (hjoins : f.Joins b i) :
    Decides (f.checkDominance a b i) (f.Reached b → ∀ {pre post k d},
      f.listOf b = pre ++ i :: post → f.slot ⟨i, k⟩ = some (.inst d) →
      f.Defined b pre i k d) := by
  unfold checkDominance
  split
  · next hb =>
    have hb := ha.reachable_iff.mp hb
    obtain ⟨x, hx⟩ := hf.exists_inst hi
    obtain ⟨pre, post, hsplit⟩ := List.append_of_mem hi
    have hslot : ∀ {o k}, (o, k) ∈ x.operands.zipIdx ↔ f.slot ⟨i, k⟩ = some o := by
      intro o k
      rw [slot, operandsOf_of_inst hx, List.mem_zipIdx_iff_getElem?]
    have hall : ∀ o k, f.slot ⟨i, k⟩ = some o → Decides (f.checkAvailable a b i x o k)
        (∀ d, o = .inst d → f.Defined b pre i k d) := by
      intro o k hok
      cases o with
      | inst d => exact (decides_checkAvailable hf ha hx hb hsplit hjoins hok).congr (by simp)
      | _ => exact .accept (by simp)
    refine Decides.congr (.lift hx (.forM fun p hp => hall p.1 p.2 (hslot.mp hp))) ?_
    constructor
    · intro h _ pre' post' k d hsplit' hd
      obtain ⟨rfl, -⟩ := split_unique (hsplit ▸ hf.list_nodup b) (hsplit.symm.trans hsplit')
      exact h (.inst d, k) (hslot.mpr hd) d rfl
    · rintro h ⟨o, k⟩ hp d rfl
      exact h hb hsplit (hslot.mp hp)
  · next hb => exact .accept fun h => absurd (ha.reachable_iff.mpr h) hb

theorem decides_checkInst (hf : f.Consistent) (ha : a.Describes f rank) (hi : i ∈ f.listOf b) :
    Decides (f.checkInst a b i) (f.Lawful b i) :=
  Decides.congr (.andThen (decides_checkEdges hf hi) fun _ =>
      .andThen (decides_checkPhi hf ha hi) fun hjoins => decides_checkDominance hf ha hi hjoins)
    ⟨fun h => ⟨h.1, h.2.1, h.2.2⟩, fun h => ⟨h.linked, h.joins, h.defined⟩⟩

theorem decides_checkBlock (hf : f.Consistent) (ha : a.Describes f rank)
    (hb : b.index < f.numBlocks) :
    Decides (f.checkBlock a b) (f.Shaped b ∧ ∀ i ∈ f.listOf b, f.Lawful b i) := by
  obtain ⟨y, hy⟩ := exists_block hb
  refine .andThen (decides_checkShape hf hb) fun _ => .lift hy ?_
  rw [← listOf_of_block hy]
  exact .forM fun i hi => decides_checkInst hf ha hi

end

theorem decides_check (hf : f.Consistent) (htargets : f.TargetsExist)
    (hdecl : f.isDeclaration = false) :
    Decides f.check (∀ b ∈ f.blockIds, f.Shaped b ∧ ∀ i ∈ f.listOf b, f.Lawful b i) := by
  obtain ⟨a, ha⟩ := Analysis.exists_ofFunc htargets
  rw [check, hdecl]
  refine .lift ha (.forM fun b hb => ?_)
  have hb : b.index < f.numBlocks := BlockId.mem_upTo.mp hb
  obtain ⟨rank, hd⟩ := Analysis.describes ha (Nat.zero_lt_of_lt hb)
  exact decides_checkBlock hf hd hb

/-! ## Accepted functions -/

/-- What the check asks for besides a valid body, also in unreachable blocks. -/
structure Tied (f : Func) : Prop where
  linked : ∀ {b i}, i ∈ f.listOf b → f.Linked i
  joins : ∀ {b i}, i ∈ f.listOf b → f.Joins b i
  placed : ∀ {b i d}, f.Reached b → i ∈ f.listOf b → d ∈ f.reads i → ∃ home, d ∈ f.listOf home

theorem targetsExist_of_check (hdecl : f.isDeclaration = false) (h : f.check = .ok ()) :
    f.TargetsExist := by
  rw [check, hdecl] at h
  obtain ⟨a, ha, -⟩ := bind_eq_ok_iff.mp h
  exact FlowGraph.targetsExist_of_ofFunc (Analysis.ofFunc_eq_ok_iff.mp (lift_eq_ok_iff.mp ha)).1

theorem Consistent.lawful (hf : f.Consistent) (hdecl : f.isDeclaration = false)
    (h : f.check = .ok ()) (hi : i ∈ f.listOf b) : f.Lawful b i :=
  ((decides_check hf (targetsExist_of_check hdecl h) hdecl).ok_iff.mp h b
    (BlockId.mem_upTo.mpr (lt_numBlocks_of_mem hi))).2 i hi

theorem Consistent.shaped (hf : f.Consistent) (hdecl : f.isDeclaration = false)
    (h : f.check = .ok ()) (hb : b.index < f.numBlocks) : f.Shaped b :=
  ((decides_check hf (targetsExist_of_check hdecl h) hdecl).ok_iff.mp h b
    (BlockId.mem_upTo.mpr hb)).1

/-- An accepted function with a block is valid. -/
theorem Consistent.valid (hf : f.Consistent) (hdecl : f.isDeclaration = false)
    (h₀ : 0 < f.numBlocks) (h : f.check = .ok ()) : f.Valid := by
  have hmem : ∀ {b pre i post}, f.listOf b = pre ++ i :: post → i ∈ f.listOf b := by
    intro b pre i post heq
    simp [heq]
  have hshaped : ∀ {b pre i post}, f.listOf b = pre ++ i :: post → f.Shaped b :=
    fun heq => hf.shaped hdecl h (lt_numBlocks_of_mem (hmem heq))
  refine ⟨hf, ?_, h₀, fun hb => (hf.shaped hdecl h hb).ne_nil, ?_,
    fun heq => (hshaped heq).phis_first heq, fun heq => (hshaped heq).ends_iff heq, ?_, ?_⟩
  · rintro a b ⟨targets, hs, hb⟩
    have ha : a.index < f.numBlocks := Edge.source_lt ⟨targets, hs, hb⟩
    obtain ⟨targets', hs', hall⟩ := targetsExist_of_check hdecl h a (BlockId.mem_upTo.mpr ha)
    rw [hs] at hs'
    obtain rfl := Option.some.inj hs'
    exact BlockId.mem_upTo.mp (hall b hb)
  · intro b i x hi hx
    have hlive := (hf.shaped hdecl h (lt_numBlocks_of_mem hi)).live i hi
    obtain ⟨y, hy, hlive⟩ := live_iff.mp hlive
    obtain rfl := Option.some.inj (hx.symm.trans hy)
    exact hlive
  · intro b pre i post d hb heq hphi hd
    obtain ⟨k, hslot⟩ := mem_reads_iff.mp hd
    exact ((hf.lawful hdecl h (hmem heq)).defined hb heq hslot).avail hphi
  · intro b i op bs k p d hb hi hop hbs hp hslot hreach
    obtain ⟨pre, post, heq⟩ := List.append_of_mem hi
    exact ((hf.lawful hdecl h hi).defined hb heq hslot).incoming
      (by simp [incomingOf, hop, hbs]) hp hreach

theorem Consistent.tied (hf : f.Consistent) (hdecl : f.isDeclaration = false)
    (h : f.check = .ok ()) : f.Tied := by
  refine ⟨fun hi => (hf.lawful hdecl h hi).linked, fun hi => (hf.lawful hdecl h hi).joins, ?_⟩
  intro b i d hb hi hd
  obtain ⟨k, hslot⟩ := mem_reads_iff.mp hd
  obtain ⟨pre, post, heq⟩ := List.append_of_mem hi
  exact ((hf.lawful hdecl h hi).defined hb heq hslot).placed

/-- Whatever is valid and tied is accepted. -/
theorem Valid.check_eq_ok (hf : f.Valid) (htied : f.Tied) : f.check = .ok () := by
  cases hdecl : f.isDeclaration with
  | true => rw [check, hdecl]; rfl
  | false =>
    have htargets : f.TargetsExist := by
      intro b hb
      obtain ⟨targets, hs⟩ := hf.consistent.exists_successors (BlockId.mem_upTo.mp hb)
      refine ⟨targets, by simp [hs, Except.toOption], fun t ht => ?_⟩
      exact BlockId.mem_upTo.mpr (hf.target_lt ⟨targets, hs, ht⟩)
    refine (decides_check hf.consistent htargets hdecl).ok_iff.mpr fun b hb => ⟨?_, fun i hi => ?_⟩
    · refine ⟨hf.list_ne_nil (BlockId.mem_upTo.mp hb), fun i hi => ?_, hf.phis_first, hf.ends_iff⟩
      exact live_iff.mpr (hf.exists_live hi)
    · refine ⟨htied.linked hi, htied.joins hi, fun hb pre post k d heq hslot => ?_⟩
      have hd : d ∈ f.reads i := mem_reads_iff.mpr ⟨k, hslot⟩
      refine ⟨htied.placed hb hi hd, fun hphi => hf.reads hb heq hphi hd, ?_⟩
      intro bs p hbs hp hreach
      obtain ⟨op, hop, hbs⟩ := Option.bind_eq_some_iff.mp hbs
      exact hf.incoming hb hi hop hbs hp hslot hreach

/-! ## Walks -/

/-- A value is available at a point exactly if every walk to the point executes its definition. -/
theorem Consistent.avail_iff (hf : f.Consistent) (hb : f.Reached b) :
    f.Avail b pre d ↔ ∀ q, Path f.Edge .entry b (q ++ [b]) → d ∈ q.flatMap f.listOf ++ pre := by
  constructor
  · rintro (hpre | ⟨home, hmem, hne, hdom⟩) q hq
    · exact List.mem_append_right _ hpre
    · have hq' : home ∈ q := by simpa [hne] using hdom.2 _ hq
      exact List.mem_append_left _ (List.mem_flatMap.mpr ⟨home, hq', hmem⟩)
  · intro h
    by_cases hpre : d ∈ pre
    · exact .inl hpre
    · have hbefore : ∀ q, Path f.Edge .entry b (q ++ [b]) → ∃ home ∈ q, d ∈ f.listOf home := by
        intro q hq
        simpa [hpre] using h q hq
      -- a walk that comes to the block once shows that the definition stands in another one
      obtain ⟨p, hp⟩ := hb
      obtain ⟨p, hp, hnodup, -⟩ := hp.exists_nodup
      obtain ⟨q, rfl⟩ := hp.exists_eq_concat
      obtain ⟨home, hq, hmem⟩ := hbefore q hp
      have hne : home ≠ b := by
        rintro rfl
        exact List.disjoint_of_nodup_append hnodup hq (List.mem_singleton_self home)
      refine .inr ⟨home, hmem, hne, ⟨_, hp⟩, fun p hp => ?_⟩
      obtain ⟨q, rfl⟩ := hp.exists_eq_concat
      obtain ⟨c, hc, hmem'⟩ := hbefore q hp
      exact List.mem_append_left _ (hf.home_unique hmem' hmem ▸ hc)

/-- A well-formed function, rule by rule. -/
structure WellFormed (f : Func) : Prop where
  list_ne_nil : ∀ b ∈ f.blockIds, f.listOf b ≠ []
  /-- The last instruction of a block ends it, and no other does. -/
  ends_iff : ∀ {b pre i post}, f.listOf b = pre ++ i :: post → (f.ends i = true ↔ post = [])
  phis_first : ∀ {b pre i post}, f.listOf b = pre ++ i :: post → f.isPhi i → ∀ j ∈ pre, f.isPhi j
  listed : ∀ {b i}, i ∈ f.listOf b → f.live i ∧ f.homeOf i = some b
  slots : ∀ {b i k d}, i ∈ f.listOf b → f.slot ⟨i, k⟩ = some (.inst d) →
    f.live d ∧ ⟨i, k⟩ ∈ f.usesOf d
  edges : ∀ {b i u}, i ∈ f.listOf b → u ∈ f.usesOf i → f.live u.user ∧ f.slot u = some (.inst i)
  incoming_length : ∀ {b i bs}, i ∈ f.listOf b → f.incomingOf i = some bs →
    bs.length = (f.operandsOf i).length
  incoming_edge : ∀ {b i bs p}, i ∈ f.listOf b → f.incomingOf i = some bs → p ∈ bs → f.Edge p b
  placed : ∀ {b i d}, f.Reached b → i ∈ f.listOf b → d ∈ f.reads i → ∃ home, d ∈ f.listOf home
  /-- Every walk to a use executes the definition before the use. -/
  executed : ∀ {b pre i post d}, f.Reached b → f.listOf b = pre ++ i :: post → ¬f.isPhi i →
    d ∈ f.reads i → ∀ q, Path f.Edge .entry b (q ++ [b]) → d ∈ q.flatMap f.listOf ++ pre
  /-- Every walk to the end of an incoming block passes through the block of the definition. -/
  passed : ∀ {b i bs k p d}, f.Reached b → i ∈ f.listOf b → f.incomingOf i = some bs →
    bs[k]? = some p → f.slot ⟨i, k⟩ = some (.inst d) → f.Reached p →
    ∃ home, d ∈ f.listOf home ∧ ∀ q, Path f.Edge .entry p q → home ∈ q

theorem Consistent.wellFormed_iff (hf : f.Consistent) : f.WellFormed ↔
    ∀ b ∈ f.blockIds, f.Shaped b ∧ ∀ i ∈ f.listOf b, f.Lawful b i := by
  constructor
  · intro h b hb
    refine ⟨⟨h.list_ne_nil b hb, fun i hi => (h.listed hi).1, h.phis_first, h.ends_iff⟩, ?_⟩
    intro i hi
    refine ⟨⟨fun d hd => ?_, fun j hj => ?_⟩, ⟨h.incoming_length hi, h.incoming_edge hi⟩, ?_⟩
    · obtain ⟨k, hk⟩ := mem_reads_iff.mp hd
      exact (h.slots hi hk).1
    · obtain ⟨k, hk⟩ := mem_reads_iff.mp hj
      exact (h.edges hi ((hf.mem_uses i ⟨j, k⟩).mpr hk)).1
    · intro hreach pre post k d heq hslot
      have hd : d ∈ f.reads i := mem_reads_iff.mpr ⟨k, hslot⟩
      refine ⟨h.placed hreach hi hd, ?_, fun hbs hp hrp => ?_⟩
      · exact fun hphi => (hf.avail_iff hreach).mpr (h.executed hreach heq hphi hd)
      · obtain ⟨home, hmem, hall⟩ := h.passed hreach hi hbs hp hslot hrp
        exact ⟨home, hmem, hrp, hall⟩
  · intro h
    have hblock : ∀ {b i}, i ∈ f.listOf b → f.Shaped b ∧ f.Lawful b i := by
      intro b i hi
      obtain ⟨hshaped, hlawful⟩ := h b (BlockId.mem_upTo.mpr (lt_numBlocks_of_mem hi))
      exact ⟨hshaped, hlawful i hi⟩
    have hmem : ∀ {b pre i post}, f.listOf b = pre ++ i :: post → i ∈ f.listOf b := by
      intro b pre i post heq
      simp [heq]
    constructor
    · exact fun b hb => (h b hb).1.ne_nil
    · exact fun heq => (hblock (hmem heq)).1.ends_iff heq
    · exact fun heq => (hblock (hmem heq)).1.phis_first heq
    · exact fun {b i} hi => ⟨(hblock hi).1.live i hi, (hf.mem_list b i).mp hi⟩
    · intro b i k d hi hslot
      exact ⟨(hblock hi).2.linked.reads d (mem_reads_iff.mpr ⟨k, hslot⟩),
        (hf.mem_uses d _).mpr hslot⟩
    · intro b i u hi hu
      have hslot := (hf.mem_uses i u).mp hu
      exact ⟨(hblock hi).2.linked.readers u.user (mem_reads_iff.mpr ⟨u.index, hslot⟩), hslot⟩
    · exact fun hi => (hblock hi).2.joins.length
    · exact fun hi => (hblock hi).2.joins.edge
    · intro b i d hreach hi hd
      obtain ⟨k, hslot⟩ := mem_reads_iff.mp hd
      obtain ⟨pre, post, heq⟩ := List.append_of_mem hi
      exact ((hblock hi).2.defined hreach heq hslot).placed
    · intro b pre i post d hreach heq hphi hd
      obtain ⟨k, hslot⟩ := mem_reads_iff.mp hd
      exact (hf.avail_iff hreach).mp (((hblock (hmem heq)).2.defined hreach heq hslot).avail hphi)
    · intro b i bs k p d hreach hi hbs hp hslot hrp
      obtain ⟨pre, post, heq⟩ := List.append_of_mem hi
      obtain ⟨home, hd, hdom⟩ := ((hblock hi).2.defined hreach heq hslot).incoming hbs hp hrp
      exact ⟨home, hd, hdom.2⟩

/-- **The check decides well-formedness.** A function made by edits whose branch targets exist is
accepted exactly if it is well formed, with the rules on definitions and uses said over all walks
from the entry. If it is not accepted then it is rejected: no check faults. -/
theorem check_eq_ok_iff_wellFormed (hbuilt : f.Built) (hdecl : f.isDeclaration = false)
    (htargets : f.TargetsExist) :
    (f.check = .ok () ↔ f.WellFormed) ∧ ∀ e, f.check ≠ .error (.fault e) := by
  have hdecides := decides_check hbuilt.consistent htargets hdecl
  exact ⟨hdecides.ok_iff.trans hbuilt.consistent.wellFormed_iff.symm, hdecides.not_fault⟩

/-- A value that is computed on one arm of a branch and joined by a phi. An unreachable block reads
what it computes itself. -/
def oneArm (returned : Operand) : Func := .made [.i1] [
  .block, .block, .block, .block,
  .switch ⟨0⟩, .branch (.arg 0) ⟨1⟩ ⟨2⟩,
  .switch ⟨1⟩, .binary .add .i32 (.lit (.i32 1)) (.lit (.i32 2)), .jump ⟨2⟩,
  .switch ⟨2⟩, .phi .i32, .ret (some returned),
  .switch ⟨3⟩, .binary .add .i32 (.inst ⟨5⟩) (.inst ⟨1⟩), .jump ⟨3⟩,
  .incoming ⟨3⟩ (.lit (.i32 0)) ⟨0⟩, .incoming ⟨3⟩ (.inst ⟨1⟩) ⟨1⟩]

/-- The phi may be returned, the value of the arm may not. -/
theorem check_eq_ok_iff_wellFormed_oneArm :
    (oneArm (.inst ⟨3⟩)).WellFormed ∧ ¬(oneArm (.inst ⟨1⟩)).WellFormed := by
  have hjoin := check_eq_ok_iff_wellFormed (built_made [.i1] _ : (oneArm (.inst ⟨3⟩)).Built)
    (by decide +kernel) (by decide +kernel)
  have harm := check_eq_ok_iff_wellFormed (built_made [.i1] _ : (oneArm (.inst ⟨1⟩)).Built)
    (by decide +kernel) (by decide +kernel)
  exact ⟨hjoin.1.mp (by decide +kernel), fun h => absurd (harm.1.mpr h) (by decide +kernel)⟩

end Func

end SsaOpt
