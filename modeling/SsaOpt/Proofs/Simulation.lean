import SsaOpt.Proofs.Agreement

/-! Two functions that differ in one pure instruction. They run side by side: every other
instruction is executed by both, with the same operand values, while the one instruction may be
executed by either alone. -/

namespace SsaOpt

namespace Func

open Interpretation

variable {I : Interpretation} {args : Nat → I.Value} {f g : Func} {x y i d : InstId}
  {b p : BlockId} {pre pre' post post' : List InstId} {s s' : I.State} {P : I.Event → Prop}

/-- Runs of `f` and `g` are in the same block and have executed the same instructions of it, `x`
apart; they agree on the memory and on all registers but that of `x`. -/
structure Level (I : Interpretation) (args : Nat → I.Value) (f g : Func) (x : InstId)
    (b : BlockId) (pre pre' : List InstId) (s s' : I.State) : Prop where
  reached : f.Reached b
  split : ∃ post, f.listOf b = pre ++ post
  split' : ∃ post, g.listOf b = pre' ++ post
  executed : pre'.filter (· ≠ x) = pre.filter (· ≠ x)
  memory : s'.memory = s.memory
  regs : ∀ d, d ≠ x → s'.regs d = s.regs d
  sound : Sound I f args b pre s.regs
  sound' : Sound I g args b pre' s'.regs

/-- `g` is `f` with the pure instruction `x` moved, or deleted in favour of `y`, in such a way that
`y` holds in `g` what `x` holds in `f`. Events that satisfy `P` are those `f` may have. -/
structure Rewrites (I : Interpretation) (args : Nat → I.Value) (P : I.Event → Prop) (f g : Func)
    (x y : InstId) : Prop where
  source : f.Valid
  target : g.Valid
  agree : AgreeOff f g x
  others : ∀ {i z}, i ≠ x → f.bare? i = some z →
    g.bare? i = some { z with operands := z.operands.map (Operand.subst x (.inst y)) }
  pure : ∀ {op}, f.op? x = some op → op.isPure
  /-- Where both are available they hold the same value. -/
  bridge : ∀ {b pre pre' s s'}, Level I args f g x b pre pre' s s' → f.Avail b pre x →
    g.Avail b pre' y → s'.regs y = s.regs x
  /-- Where `f` executes `x` it does not trap, unless it may. -/
  calm : ∀ {b pre post s z}, f.Reached b → f.listOf b = pre ++ x :: post →
    Sound I f args b pre s → f.bare? x = some z → P (.trap x z.op (I.inputs args s z)) →
    ∃ v, I.compute z.op z.ty (I.inputs args s z) = some v
  /-- Where `g` executes `x` it does not trap. -/
  calm' : ∀ {b pre pre' post s s' z}, Level I args f g x b pre pre' s s' →
    g.listOf b = pre' ++ x :: post → g.bare? x = some z →
    ∃ v, I.compute z.op z.ty (I.inputs args s'.regs z) = some v

theorem effect_of_isPure {op : Opcode} (h : op.isPure) (ty : Ty) (vs : List I.Value)
    (m : I.Memory) : I.effect i op ty vs m =
      match I.compute op ty vs with
      | some v => .value [] v m
      | none => .stop (.trap i op vs) := by
  cases op <;> first | rfl | cases h

theorem not_isTerminator_of_isPure {op : Opcode} (h : op.isPure) : ¬op.isTerminator := by
  cases op <;> simp_all [Opcode.isPure, Opcode.isTerminator]

theorem not_isPhi_of_pure (h : ∀ {op}, f.op? x = some op → op.isPure) : ¬f.isPhi x := by
  rw [isPhi_eq]
  cases hop : f.op? x with
  | none => simp
  | some op => exact not_isPhi_of_isPure (h hop)

theorem not_ends_of_pure (h : ∀ {op}, f.op? x = some op → op.isPure) : ¬f.ends x := by
  unfold ends
  cases hop : f.op? x with
  | none => simp
  | some op => exact not_isTerminator_of_isPure (h hop)

/-- Nothing but a phi reads itself. -/
theorem Valid.not_reads_self (hf : f.Valid) (hb : f.Reached b) (hx : x ∈ f.listOf b)
    (hphi : ¬f.isPhi x) : x ∉ f.reads x := by
  intro hread
  obtain ⟨pre, post, hsplit⟩ := List.append_of_mem hx
  exact hf.not_avail_next hsplit (hf.reads hb hsplit hphi hread)

theorem mem_successors_of_goto {op : Opcode} {ty : Ty} {vs : List I.Value} {m : I.Memory}
    {e : I.Event} (h : I.effect i op ty vs m = .goto e b) : b ∈ op.successors := by
  cases op with
  | jump dest =>
    cases h
    simp [Opcode.successors]
  | branch onTrue onFalse =>
    cases h
    simp only [Opcode.successors]
    split_ifs <;> simp_all
  | binary | compare | cast | select | elementPtr =>
    rw [effect_of_isPure rfl] at h
    split at h <;> cases h
  | load | store | call | alloca | phi | memPhi | ret => cases h

namespace Rewrites

variable (h : Rewrites I args P f g x y)
include h

theorem pure_source {z : Instruction} (hz : f.bare? x = some z) : z.op.isPure :=
  h.pure (by simp [op?, hz])

theorem pure_target {z : Instruction} (hz : g.bare? x = some z) : z.op.isPure :=
  h.pure (by rw [← h.agree.op]; simp [op?, hz])

theorem not_isPhi : ¬f.isPhi x := not_isPhi_of_pure h.pure

theorem not_isPhi_target : ¬g.isPhi x := by
  rw [h.agree.isPhi_eq]
  exact h.not_isPhi

theorem reached_target (hb : f.Reached b) : g.Reached b := by
  rw [h.agree.reached_eq]
  exact hb

/-! ## One instruction -/

/-- An operand has the same value in both, if what it reads is available. -/
theorem eval_subst {o : Operand} (hl : Level I args f g x b pre pre' s s')
    (hx : o = .inst x → f.Avail b pre x ∧ g.Avail b pre' y) :
    I.eval args s'.regs (Operand.subst x (.inst y) o) = I.eval args s.regs o := by
  rw [Operand.subst]
  split
  · next ho =>
    rw [ho]
    exact h.bridge hl (hx ho).1 (hx ho).2
  · next ho =>
    cases o with
    | inst d => exact hl.regs d (by simpa using ho)
    | arg | global | lit => rfl

/-- The next instruction reads the same values in both. -/
theorem inputs_eq {z : Instruction} (hl : Level I args f g x b pre pre' s s')
    (hb : f.listOf b = pre ++ i :: post) (hb' : g.listOf b = pre' ++ i :: post') (hi : i ≠ x)
    (hphi : ¬f.isPhi i) (hz : f.bare? i = some z) :
    I.inputs args s'.regs { z with operands := z.operands.map (Operand.subst x (.inst y)) } =
      I.inputs args s.regs z := by
  have hmem : i ∈ f.listOf b := by simp [hb]
  simp only [inputs, List.map_map]
  refine List.map_congr_left fun o ho => h.eval_subst hl ?_
  rintro rfl
  have hread : x ∈ f.reads i := (mem_reads_iff_of_bare hz).mpr ho
  have hread' : y ∈ g.reads i := by
    rw [mem_reads_iff_of_bare (h.others hi hz)]
    exact List.mem_map.mpr ⟨_, ho, by simp [Operand.subst]⟩
  exact ⟨h.source.reads hl.reached hb hphi hread,
    h.target.reads (h.reached_target hl.reached) hb' (h.agree.isPhi_eq i ▸ hphi) hread'⟩

/-- `f` alone executes `x`. -/
theorem left_step (hl : Level I args f g x b pre pre' s s')
    (hb : f.listOf b = pre ++ x :: post)
    (hP : ∀ e ∈ (f.execute I args (x :: post) s).1, P e) :
    ∃ t, f.execute I args (x :: post) s = f.execute I args post t ∧
      Level I args f g x b (pre ++ [x]) pre' t s' := by
  obtain ⟨z, hz⟩ := h.source.consistent.bare?_of_mem (b := b) (i := x) (by simp [hb])
  have hpure := h.pure_source hz
  have hcalm : ∃ v, I.compute z.op z.ty (I.inputs args s.regs z) = some v := by
    cases hc : I.compute z.op z.ty (I.inputs args s.regs z) with
    | some v => exact ⟨v, rfl⟩
    | none =>
      rw [← hc]
      refine h.calm hl.reached hb hl.sound hz (hP _ ?_)
      simp [execute, hz, effect_of_isPure hpure, hc]
  obtain ⟨v, hv⟩ := hcalm
  refine ⟨s.write x v s.memory, ?_, ?_⟩
  · simp [execute, hz, effect_of_isPure hpure, hv]
  · refine ⟨hl.reached, ⟨post, by simp [hb]⟩, hl.split', by simpa using hl.executed, hl.memory,
      fun d hd => ?_, hl.sound.write h.source hl.reached hb h.not_isPhi hz fun _ => hv, hl.sound'⟩
    simp [State.write, hd, hl.regs d hd]

/-- `g` alone executes `x`. -/
theorem right_step (hl : Level I args f g x b pre pre' s s')
    (hb : g.listOf b = pre' ++ x :: post) :
    ∃ t, g.execute I args (x :: post) s' = g.execute I args post t ∧
      Level I args f g x b pre (pre' ++ [x]) s t := by
  obtain ⟨z, hz⟩ := h.target.consistent.bare?_of_mem (b := b) (i := x) (by simp [hb])
  have hpure := h.pure_target hz
  obtain ⟨v, hv⟩ := h.calm' hl hb hz
  refine ⟨s'.write x v s'.memory, ?_, ?_⟩
  · simp [execute, hz, effect_of_isPure hpure, hv]
  · refine ⟨hl.reached, hl.split, ⟨post, by simp [hb]⟩, by simpa using hl.executed, hl.memory,
      fun d hd => ?_, hl.sound,
      hl.sound'.write h.target (h.reached_target hl.reached) hb h.not_isPhi_target hz fun _ => hv⟩
    simp [State.write, hd, hl.regs d hd]

end Rewrites

/-- How two visits of a block end: both halt, or both go to the same block. -/
inductive Parted (I : Interpretation) (args : Nat → I.Value) (f g : Func) (x : InstId)
    (b : BlockId) : Option (BlockId × I.State) → Option (BlockId × I.State) → Prop
  | halted : Parted I args f g x b none none
  | left {c : BlockId} {t t' : I.State} (hedge : f.Edge b c)
      (hl : Level I args f g x b (f.listOf b) (g.listOf b) t t') :
      Parted I args f g x b (some (c, t)) (some (c, t'))

/-- An instruction that is not pure has no equation. -/
theorem Sound.skip {z : Instruction} {regs : InstId → I.Value} (hs : Sound I f args b pre regs)
    (hz : f.bare? i = some z) (hpure : ¬z.op.isPure) : Sound I f args b (pre ++ [i]) regs := by
  intro d w hd hw hw'
  refine hs d w (hd.imp_left fun hd => ?_) hw hw'
  rcases List.mem_append.mp hd with hd | hd
  · exact hd
  · obtain rfl := List.mem_singleton.mp hd
    obtain rfl := Option.some.inj (hz.symm.trans hw)
    exact absurd hw' hpure

namespace Rewrites

variable (h : Rewrites I args P f g x y)
include h

/-- Both execute the same instruction, which is not `x`. -/
theorem both_step (hl : Level I args f g x b pre pre' s s') (hi : i ≠ x) (hphi : ¬f.isPhi i)
    (hb : f.listOf b = pre ++ i :: post) (hb' : g.listOf b = pre' ++ i :: post') :
    (∃ es t t', f.execute I args (i :: post) s =
        (es ++ (f.execute I args post t).1, (f.execute I args post t).2) ∧
      g.execute I args (i :: post') s' =
        (es ++ (g.execute I args post' t').1, (g.execute I args post' t').2) ∧
      Level I args f g x b (pre ++ [i]) (pre' ++ [i]) t t') ∨
    ∃ es r r', f.execute I args (i :: post) s = (es, r) ∧
      g.execute I args (i :: post') s' = (es, r') ∧ Parted I args f g x b r r' := by
  have hmem : i ∈ f.listOf b := by simp [hb]
  obtain ⟨z, hz⟩ := h.source.consistent.bare?_of_mem hmem
  have hz' := h.others hi hz
  have hin := h.inputs_eq hl hb hb' hi hphi hz
  have hphi' : ¬g.isPhi i := h.agree.isPhi_eq i ▸ hphi
  have hexec : (pre' ++ [i]).filter (· ≠ x) = (pre ++ [i]).filter (· ≠ x) := by
    rw [List.filter_append, List.filter_append, hl.executed]
  cases heff : I.effect i z.op z.ty (I.inputs args s.regs z) s.memory with
  | value es v m =>
    have hpure : z.op.isPure → I.compute z.op z.ty (I.inputs args s.regs z) = some v := by
      intro hp
      rw [effect_of_isPure hp] at heff
      split at heff
      · next w hw =>
        cases heff
        exact hw
      · cases heff
    refine .inl ⟨es, s.write i v m, s'.write i v m, ?_, ?_, ?_⟩
    · simp [execute, hz, heff]
    · simp [execute, hz', hin, hl.memory, heff]
    · refine ⟨hl.reached, ⟨post, by simp [hb]⟩, ⟨post', by simp [hb']⟩, hexec, rfl,
        fun d hd => ?_, hl.sound.write h.source hl.reached hb hphi hz hpure,
        hl.sound'.write h.target (h.reached_target hl.reached) hb' hphi' hz' fun hp => ?_⟩
      · by_cases hdi : d = i
        · simp [State.write, hdi]
        · simp [State.write, hdi, hl.regs d hd]
      · rw [hin]
        exact hpure hp
  | goto e dest =>
    have hdest := mem_successors_of_goto heff
    have hterm := isTerminator_of_mem_successors hdest
    have hop : f.op? i = some z.op := by simp [op?, hz]
    have hpure : ¬z.op.isPure := fun hp => not_isTerminator_of_isPure hp hterm
    -- control leaves at the end of the block only
    obtain rfl := (h.source.ends_iff hb).mp (by simpa [ends, hop] using hterm)
    obtain rfl := (h.target.ends_iff hb').mp (by simpa [ends, op?, hz'] using hterm)
    refine .inr ⟨[e], some (dest, s), some (dest, s'), ?_, ?_, .left ?_ ?_⟩
    · simp [execute, hz, heff]
    · simp [execute, hz', hin, hl.memory, heff]
    · exact edge_iff.mpr ⟨i, z.op, by simp [hb], hop, hdest⟩
    · rw [hb, hb']
      exact ⟨hl.reached, ⟨[], by simp [hb]⟩, ⟨[], by simp [hb']⟩, hexec, hl.memory, hl.regs,
        hl.sound.skip hz hpure, hl.sound'.skip hz' hpure⟩
  | stop e =>
    refine .inr ⟨[e], none, none, ?_, ?_, .halted⟩
    · simp [execute, hz, heff]
    · simp [execute, hz', hin, hl.memory, heff]

/-- The rest of a visit: the heads of the two lists decide who executes next. -/
theorem execute_eq (n : Nat) : ∀ {post post' pre pre' : List InstId} {s s' : I.State},
    post.length + post'.length ≤ n → (∀ i ∈ post, ¬f.isPhi i) →
    f.listOf b = pre ++ post → g.listOf b = pre' ++ post' →
    Level I args f g x b pre pre' s s' → (∀ e ∈ (f.execute I args post s).1, P e) →
    (g.execute I args post' s').1 = (f.execute I args post s).1 ∧
      Parted I args f g x b (f.execute I args post s).2 (g.execute I args post' s').2 := by
  induction n with
  | zero =>
    intro post post' pre pre' s s' hn _ _ _ _ _
    obtain rfl : post = [] := List.length_eq_zero_iff.mp (by omega)
    obtain rfl : post' = [] := List.length_eq_zero_iff.mp (by omega)
    exact ⟨rfl, .halted⟩
  | succ n ih =>
    intro post post' pre pre' s s' hn hphi hb hb' hl hP
    have hrest : post'.filter (· ≠ x) = post.filter (· ≠ x) := by
      have hall := h.agree.lists b
      rw [hb, hb', List.filter_append, List.filter_append, hl.executed] at hall
      exact List.append_cancel_left hall
    rcases post with _ | ⟨i, post⟩
    · rcases post' with _ | ⟨j, post'⟩
      · exact ⟨rfl, .halted⟩
      · obtain rfl : j = x := by
          by_contra hj
          simp [hj] at hrest
        obtain ⟨t, ht, hl'⟩ := h.right_step hl hb'
        rw [ht]
        exact ih (by simp at hn ⊢; omega) hphi hb (by simpa using hb') hl' hP
    · by_cases hi : i = x
      · subst hi
        obtain ⟨t, ht, hl'⟩ := h.left_step hl hb hP
        rw [ht] at hP ⊢
        exact ih (by simp at hn ⊢; omega) (fun j hj => hphi j (List.mem_cons_of_mem _ hj))
          (by simpa using hb) hb' hl' hP
      · rcases post' with _ | ⟨j, post'⟩
        · simp [hi] at hrest
        · by_cases hj : j = x
          · subst hj
            obtain ⟨t, ht, hl'⟩ := h.right_step hl hb'
            rw [ht]
            exact ih (by simp at hn ⊢; omega) hphi hb (by simpa using hb') hl' hP
          · obtain rfl : j = i := by simpa [hi, hj] using congrArg List.head? hrest
            rcases h.both_step hl hi (hphi j List.mem_cons_self) hb hb' with
              ⟨es, t, t', ht, ht', hl'⟩ | ⟨es, r, r', ht, ht', hparted⟩
            · have hlen : post.length + post'.length ≤ n := by simp at hn; omega
              rw [ht] at hP ⊢
              rw [ht']
              obtain ⟨hes, hparted⟩ := ih hlen
                (fun j hj => hphi j (List.mem_cons_of_mem _ hj)) (by simpa using hb)
                (by simpa using hb') hl' fun e he => hP e (List.mem_append_right _ he)
              exact ⟨by rw [hes], hparted⟩
            · rw [ht, ht']
              exact ⟨rfl, hparted⟩

/-! ## Visits and runs -/

theorem executed_phis (b : BlockId) : ((g.listOf b).filter g.isPhi).filter (· ≠ x) =
    ((f.listOf b).filter f.isPhi).filter (· ≠ x) := by
  rw [List.filter_filter, List.filter_filter]
  have hcongr : ∀ l : List InstId, ∀ φ : InstId → Bool,
      l.filter (fun i => decide (i ≠ x) && φ i) = (l.filter (· ≠ x)).filter φ := by
    intro l φ
    rw [List.filter_filter]
    exact List.filter_congr fun i _ => Bool.and_comm _ _
  rw [hcongr, hcongr, h.agree.lists]
  refine List.filter_congr fun i hi => ?_
  obtain ⟨hi, hne⟩ := List.mem_filter.mp hi
  exact h.agree.isPhi_eq i

/-- Two visits that begin level have the same events and end level. -/
theorem visit_eq {origin : Option BlockId}
    (hl : Level I args f g x b ((f.listOf b).filter f.isPhi) ((g.listOf b).filter g.isPhi)
      (f.enter I args origin b s) (g.enter I args origin b s'))
    (hP : ∀ e ∈ (f.visit I args origin b s).1, P e) :
    (g.visit I args origin b s').1 = (f.visit I args origin b s).1 ∧
      Parted I args f g x b (f.visit I args origin b s).2 (g.visit I args origin b s').2 :=
  h.execute_eq _ (Nat.le_refl _) (fun i hi => by simpa using (List.mem_filter.mp hi).2)
    (h.source.list_eq b) (h.target.list_eq b) hl hP

/-- A phi gets the same value in both. -/
theorem phiValue_eq (hl : Level I args f g x p (f.listOf p) (g.listOf p) s s')
    (hedge : f.Edge p b) (hi : i ≠ x) (hb : i ∈ f.listOf b) :
    g.phiValue I args (some p) s'.regs i = f.phiValue I args (some p) s.regs i := by
  obtain ⟨z, hz⟩ := h.source.consistent.bare?_of_mem hb
  have hz' := h.others hi hz
  have hreach : f.Reached b := hl.reached.step hedge
  have hop : f.op? i = some z.op := by simp [op?, hz]
  simp only [phiValue, hz, hz', Option.bind_some, incomingOperand]
  cases hbs : z.op.incoming? with
  | none => rfl
  | some bs =>
    cases hk : bs.idxOf? p with
    | none => simp [hk]
    | some k =>
      have hbk : bs[k]? = some p := by
        obtain ⟨hlt, heq, -⟩ := List.idxOf?_eq_some_iff.mp hk
        exact List.getElem?_eq_some_iff.mpr ⟨hlt, heq⟩
      simp only [hk, Option.bind_eq_bind, Option.bind_some, List.getElem?_map]
      cases ho : z.operands[k]? with
      | none => rfl
      | some o =>
        simp only [Option.map_some, Option.getD_some]
        refine h.eval_subst hl ?_
        rintro rfl
        constructor
        · have hslot : f.slot ⟨i, k⟩ = some (.inst x) := by simp [slot, operandsOf, hz, ho]
          obtain ⟨home, hx, hdom⟩ :=
            h.source.incoming hreach hb hop hbs hbk hslot hl.reached
          exact avail_end_of_dom hx hdom
        · have hslot : g.slot ⟨i, k⟩ = some (.inst y) := by
            simp [slot, operandsOf, hz', ho, Operand.subst]
          have hop' : g.op? i = some z.op := by rw [h.agree.op, hop]
          obtain ⟨home, hy, hdom⟩ := h.target.incoming (h.reached_target hreach)
            ((h.agree.mem_list_iff hi).mpr hb) hop' hbs hbk hslot (h.reached_target hl.reached)
          exact avail_end_of_dom hy hdom

/-- Entering a block keeps the registers the same if its phis get the same values. -/
theorem enter_regs_eq {origin : Option BlockId} (hd : d ≠ x) (hregs : s'.regs d = s.regs d)
    (hphi : d ∈ f.listOf b →
      g.phiValue I args origin s'.regs d = f.phiValue I args origin s.regs d) :
    (g.enter I args origin b s').regs d = (f.enter I args origin b s).regs d := by
  simp only [enter, h.agree.mem_list_iff hd]
  by_cases hb : d ∈ f.listOf b
  · simp [hb, h.agree.isPhi_eq, hphi hb, hregs]
  · simp [hb, hregs]

/-- Control takes the same edge in both. -/
theorem level_enter (hl : Level I args f g x p (f.listOf p) (g.listOf p) s s')
    (hedge : f.Edge p b) :
    Level I args f g x b ((f.listOf b).filter f.isPhi) ((g.listOf b).filter g.isPhi)
      (f.enter I args (some p) b s) (g.enter I args (some p) b s') where
  reached := hl.reached.step hedge
  split := ⟨_, h.source.list_eq b⟩
  split' := ⟨_, h.target.list_eq b⟩
  executed := h.executed_phis b
  memory := hl.memory
  regs d hd := h.enter_regs_eq hd (hl.regs d hd) (h.phiValue_eq hl hedge hd)
  sound := hl.sound.enter h.source hl.reached hedge
  sound' := hl.sound'.enter h.target (h.reached_target hl.reached) (h.agree.edge_eq ▸ hedge)

theorem level_start (s : I.State) :
    Level I args f g x .entry ((f.listOf .entry).filter f.isPhi)
      ((g.listOf .entry).filter g.isPhi) (f.enter I args none .entry s)
      (g.enter I args none .entry s) where
  reached := .refl
  split := ⟨_, h.source.list_eq .entry⟩
  split' := ⟨_, h.target.list_eq .entry⟩
  executed := h.executed_phis .entry
  memory := rfl
  regs d hd := by
    have hundefined : ∀ f : Func, f.phiValue I args none s.regs d = I.undefined := by
      intro f
      cases hz : f.bare? d with
      | none => simp [phiValue, hz]
      | some z => cases hbs : z.op.incoming? <;> simp [phiValue, hz, incomingOperand, hbs]
    exact h.enter_regs_eq hd rfl fun _ => by rw [hundefined, hundefined]
  sound := .start
  sound' := .start

/-- A visit and all that follows it. -/
theorem traceFrom_eq (k : Nat) : ∀ {origin : Option BlockId} {b : BlockId} {s s' : I.State},
    Level I args f g x b ((f.listOf b).filter f.isPhi) ((g.listOf b).filter g.isPhi)
      (f.enter I args origin b s) (g.enter I args origin b s') →
    (∀ v ∈ f.traceFrom I args k origin b s, ∀ e ∈ v.2, P e) →
    g.traceFrom I args k origin b s' = f.traceFrom I args k origin b s := by
  induction k with
  | zero => intros; rfl
  | succ k ih =>
    intro origin b s s' hl hP
    obtain ⟨hes, hparted⟩ := h.visit_eq hl fun e he => hP (b, _) (by simp [traceFrom]) e he
    simp only [traceFrom, hes] at hP ⊢
    generalize (f.visit I args origin b s).2 = r, (g.visit I args origin b s').2 = r'
      at hparted hP ⊢
    cases hparted with
    | halted => rfl
    | left hedge hl' =>
      have hrest := ih (h.level_enter hl' hedge) fun v hv => hP v (List.mem_cons_of_mem _ hv)
      exact congrArg (List.cons _) hrest

/-- The two functions have the same runs. -/
theorem trace_eq (memory : I.Memory) (k : Nat)
    (hP : ∀ v ∈ f.trace I args memory k, ∀ e ∈ v.2, P e) :
    g.trace I args memory k = f.trace I args memory k :=
  h.traceFrom_eq k (h.level_start _) hP

end Rewrites

end Func

end SsaOpt
