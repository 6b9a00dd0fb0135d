import SsaOpt.Proofs.Expressions
import SsaOpt.Values.Numbering

/-! Value numbering preserves meaning.

The table never goes stale: an instruction that it holds was seen, what was seen reads only what
was seen, and a deletion changes only readers of an instruction not seen before. So an expression
found in the table is still that of the instruction it names. -/

namespace SsaOpt

namespace ScopedTable

variable {κ ν : Type} [DecidableEq κ] {t : ScopedTable κ ν} {k k' : κ} {v v' : ν}

/-- The key is bound to the value, or was before an open scope hid the binding. -/
def Holds (t : ScopedTable κ ν) (k : κ) (v : ν) : Prop :=
  t.find? k = some v ∨ (k, some v) ∈ t.undo

theorem holds_of_insert (h : (t.insert k v).Holds k' v') : t.Holds k' v' ∨ k' = k ∧ v' = v := by
  rcases h with h | h
  · rw [find?_insert] at h
    split at h
    · next hk => exact .inr ⟨hk, (Option.some.inj h).symm⟩
    · exact .inl (.inl h)
  · simp only [insert] at h
    split at h
    · exact .inl (.inr h)
    · rcases List.mem_cons.mp h with h | h
      · obtain ⟨rfl, hv⟩ := Prod.mk.inj h
        exact .inl (.inl hv.symm)
      · exact .inl (.inr h)

/-- Undoing a journal brings back what it recorded. -/
theorem find?_foldl_restore (l : List (κ × Option ν)) : ∀ {m : Bindings κ ν},
    (l.foldl (fun m (k, old) => m.restore k old) m).find? k = some v →
      m.find? k = some v ∨ (k, some v) ∈ l := by
  induction l with
  | nil => exact fun h => .inl h
  | cons entry l ih =>
    intro m h
    obtain ⟨k', old⟩ := entry
    rcases ih h with h | h
    · rw [Bindings.find?_restore] at h
      split at h
      · next hk => exact .inr (by simp [hk, h])
      · exact .inl h
    · exact .inr (List.mem_cons_of_mem _ h)

theorem exists_popScope {mark : Nat} {marks : List Nat} (h : t.marks = mark :: marks) :
    ∃ t', t.popScope = .ok t' ∧ t'.marks = marks ∧ ∀ k v, t'.Holds k v → t.Holds k v := by
  simp only [popScope, h]
  refine ⟨_, rfl, rfl, fun k v hk => ?_⟩
  rcases hk with hk | hk
  · exact (find?_foldl_restore _ hk).imp_right List.mem_of_mem_take
  · exact .inr (List.mem_of_mem_drop hk)

end ScopedTable

namespace Values

open Func

variable {f g : Func} {a : Analysis} {rank : BlockId → Nat} {s s' : State} {x e : InstId}
  {b c : BlockId} {done path : List BlockId} {pre rest seen : List InstId} {k : Expression}

/-- What the table holds was seen, and still has the expression under which it was entered. -/
def Faithful (g : Func) (seen : List InstId) (t : ScopedTable Expression InstId) : Prop :=
  ∀ k e, t.Holds k e → e ∈ seen ∧ Expression.ofInst? g e = .ok (some k)

/-- The functions have the same runs under every reading with commutative operators. -/
def SameRuns (f g : Func) : Prop :=
  ∀ {I : Interpretation}, I.Commutes → ∀ args memory k,
    g.trace I args memory k = f.trace I args memory k

theorem Faithful.mono {t : ScopedTable Expression InstId} (h : Faithful g seen t) :
    Faithful g (seen ++ [x]) t :=
  fun k e hk => ⟨List.mem_append_left _ (h k e hk).1, (h k e hk).2⟩

/-- In the block `b`, before the instructions `rest`. -/
structure Numbering (f : Func) (done : List BlockId) (b : BlockId) (pre rest : List InstId)
    (s : State) : Prop where
  midway : Midway f s.progress.func done b pre rest
  runs : f.Typed → SameRuns f s.progress.func
  table : Faithful s.progress.func (done.flatMap f.listOf ++ pre) s.table
  trimmed : Trimmed Opcode.isPure { func := f } s.progress

theorem Numbering.keep (hf : f.Valid) (h : Numbering f done b pre (x :: rest) s)
    (hfunc : s'.progress.func = s.progress.func)
    (hchanges : s'.progress.changes = s.progress.changes) (htable : s'.table = s.table) :
    Numbering f done b (pre ++ [x]) rest s' := by
  refine ⟨hfunc ▸ h.midway.keep hf, hfunc ▸ h.runs, ?_, h.trimmed.tail (.keep hfunc hchanges)⟩
  rw [hfunc, htable, ← List.append_assoc]
  exact h.table.mono

/-- An expression met for the first time is entered in the table. -/
theorem Numbering.record (hf : f.Valid) (h : Numbering f done b pre (x :: rest) s)
    (hx : Expression.ofInst? s.progress.func x = .ok (some k)) :
    Numbering f done b (pre ++ [x]) rest { s with table := s.table.insert k x } := by
  refine ⟨h.midway.keep hf, h.runs, ?_, h.trimmed⟩
  rw [← List.append_assoc]
  intro k' e hk
  rcases ScopedTable.holds_of_insert hk with hk | ⟨rfl, rfl⟩
  · exact h.table.mono k' e hk
  · exact ⟨by simp, hx⟩

/-- An instruction with the expression of an earlier one is deleted. -/
theorem Numbering.delete (hf : f.Valid) (hlayout : f.LaidOut)
    (h : Numbering f done b pre (x :: rest) s)
    (hx : Expression.ofInst? s.progress.func x = .ok (some k))
    (hpure : ∀ {op}, s.progress.func.op? x = some op → op.isPure)
    (he : s.table.find? k = some e) (hhome : e ∈ s.progress.func.listOf c) (hdom : f.Dom c b)
    (hg : Replaced s.progress.func x e s'.progress.func)
    (hchanges : s'.progress.changes = s.progress.changes + 1) (htable : s'.table = s.table) :
    Numbering f done b (pre ++ [x]) rest s' := by
  have hpr := h.midway.pruned
  obtain ⟨hseen, hk⟩ := h.table k e (.inl he)
  obtain ⟨front, hr⟩ := h.midway.redundant hf hseen hhome hdom
    (hpr.ends_eq x ▸ not_ends_of_pure hpure)
  have hlaid : s.progress.func.LaidOut := hpr.laidOut hlayout
  obtain ⟨z, hz, hlive, hexp⟩ := Expression.exists_explains hpr.valid hlaid hr.mem hx
  obtain ⟨w, hw, hlive', hexp'⟩ := Expression.exists_explains hpr.valid hlaid hhome hk
  have hzpure : z.op.isPure := hpure (by simp [op?, hz])
  have hwpure : w.op.isPure := by rw [← hexp'.pure, hexp.pure, hzpure]
  have hop : s.progress.func.op? e = s.progress.func.op? x := by
    simp only [op?, hw, hz, Option.map_some]
    rw [← hexp'.opcode hwpure, ← hexp.opcode hzpure]
  have hkind : (s.progress.func.op? x).any Opcode.isPure := by simpa [op?, hz] using hzpure
  refine ⟨h.midway.delete hseen hr hop hg, fun htyped {I} hI args memory n => ?_, ?_,
    h.trimmed.tail (.delete hkind hr hop hg hchanges)⟩
  · have htyped' : s.progress.func.Typed := hpr.typed htyped
    have hvalue := fun regs => (hexp.value hzpure (htyped' hz hlive) hI args regs).symm.trans
      (hexp'.value hwpure (htyped' hw hlive') hI args regs)
    have hsame := hr.rewrites hpr.valid hg hz hw hzpure hwpure hvalue
    exact (hsame.trace_eq memory n fun _ _ _ _ => trivial).trans (h.runs htyped hI args memory n)
  · rw [htable, ← List.append_assoc]
    intro k' e' hk'
    obtain ⟨hseen', hk'⟩ := h.table k' e' hk'
    refine ⟨List.mem_append_left _ hseen', ?_⟩
    rw [Expression.ofInst?_congr (hpr.bare_of_seen (h.midway.fresh hf x List.mem_cons_self) hg
      hseen' (hpr.isPhi_eq e' ▸ Expression.not_isPhi_of_ofInst? hk')), hk']

/-- A reuse either leaves the function alone or deletes the instruction in favour of one whose
block dominates it. -/
theorem reuse_spec (hg : s.progress.func.Consistent) (hx : (s.progress.func.bare? x).isSome)
    (he : (s.progress.func.bare? e).isSome) (hne : e ≠ x) :
    ∃ s', reuse a b s x e = .ok s' ∧ s'.table = s.table ∧
      (s'.progress.func = s.progress.func ∧ s'.progress.changes = s.progress.changes ∨
        ∃ c, e ∈ s.progress.func.listOf c ∧ a.dom.dominates c b = true ∧
          Replaced s.progress.func x e s'.progress.func ∧
          s'.progress.changes = s.progress.changes + 1) := by
  obtain ⟨y, hy⟩ := exists_inst_of_bare he
  obtain ⟨z, hz⟩ := exists_inst_of_bare hx
  simp only [reuse, hy, bind, Except.bind]
  cases hhome : y.home with
  | none => exact ⟨s, rfl, rfl, .inl ⟨rfl, rfl⟩⟩
  | some c =>
    simp only
    generalize hsafe : (if !a.dom.dominates c b then (false, s.memo)
      else if c = b then (true, s.memo)
      else (!(s.memo.ask s.progress.func e).1, (s.memo.ask s.progress.func e).2)) = safe
    obtain ⟨invariant, memo⟩ := safe
    cases invariant with
    | false => exact ⟨_, rfl, rfl, .inl ⟨rfl, rfl⟩⟩
    | true =>
      have hdom : a.dom.dominates c b = true := by
        by_contra hdom
        rw [Bool.not_eq_true] at hdom
        simp [hdom] at hsafe
      obtain ⟨q, hq, hrep, hchanges, -⟩ := replaceBy_spec
        (p := s.progress.note (.valueReused s.progress.func.name x (z.render x) e)) hg hx he hne
      simp only [renderInst, hz, bind, Except.bind, pure, Except.pure, hq, if_true]
      refine ⟨_, rfl, rfl, .inr ⟨c, ?_, hdom, hrep, hchanges⟩⟩
      rw [hg.mem_list, homeOf_of_inst hy, hhome]

theorem visitInst_spec (hd : a.Describes f rank) (hf : f.Valid) (hlayout : f.LaidOut)
    (h : Numbering f done b pre (x :: rest) s) :
    ∃ s', visitInst a b s x = .ok s' ∧ Numbering f done b (pre ++ [x]) rest s' ∧
      s'.table.marks = s.table.marks := by
  have hpr := h.midway.pruned
  obtain ⟨w, hw, hlive⟩ := hpr.valid.exists_live (h.midway.mem_next hf)
  obtain ⟨z, hz, -⟩ := bare?_eq_some_iff.mp hw
  obtain ⟨k?, hk, -⟩ := Expression.ofInst?_spec hw (hpr.laidOut hlayout hw hlive)
  simp only [visitInst, hk, bind, Except.bind]
  cases k? with
  | none => exact ⟨s, rfl, h.keep hf rfl rfl rfl, rfl⟩
  | some k =>
    simp only
    cases he : s.table.find? k with
    | none => exact ⟨_, rfl, h.record hf hk, rfl⟩
    | some e =>
      simp only [hz, pure, Except.pure]
      split
      · exact ⟨s, rfl, h.keep hf rfl rfl rfl, rfl⟩
      · next hcond =>
        simp only [Bool.or_eq_true, decide_eq_true_eq, Bool.not_eq_true', not_or,
          Bool.not_eq_false] at hcond
        obtain ⟨hne, hpure⟩ := hcond
        obtain ⟨y, hy, -⟩ := bind_eq_ok_iff.mp (h.table k e (.inl he)).2
        obtain ⟨s', hs', htable, ⟨hfunc, hchanges⟩ | ⟨c, hhome, hdom, hrep, hchanges⟩⟩ :=
          reuse_spec (a := a) (b := b) hpr.valid.consistent (by simp [hw])
            (by simp [bare?_of_inst hy]) hne
        · exact ⟨s', hs', h.keep hf hfunc hchanges htable, by rw [htable]⟩
        · refine ⟨s', hs', h.delete hf hlayout hk (fun hop => ?_) he hhome
            (hd.dominates_iff.mp hdom) hrep hchanges htable, by rw [htable]⟩
          rw [op?_of_inst hz] at hop
          exact Option.some.inj hop ▸ hpure

/-- Between two visits of the walk. -/
structure Numbered (f : Func) (done path : List BlockId) (s : State) : Prop where
  pruned : Pruned f s.progress.func (done.flatMap f.listOf)
  runs : f.Typed → SameRuns f s.progress.func
  table : Faithful s.progress.func (done.flatMap f.listOf) s.table
  trimmed : Trimmed Opcode.isPure { func := f } s.progress
  scopes : s.table.marks.length = path.length

theorem numbering_start (hb : f.Reached b) (hnew : b ∉ done)
    (hdoms : ∀ c, c ≠ b → f.Dom c b → c ∈ done) (h : Numbered f done path s) :
    Numbering f done b [] (f.listOf b) { s with table := s.table.pushScope } := by
  refine ⟨.enter h.pruned hb hnew hdoms, h.runs, ?_, h.trimmed⟩
  rw [List.append_nil]
  exact h.table

theorem visit_enter (hd : a.Describes f rank) (hf : f.Valid) (hlayout : f.LaidOut)
    (hb : f.Reached b) (hnew : b ∉ done)
    (hdoms : ∀ c, c ≠ b → f.Dom c b → c ∈ done) (h : Numbered f done path s) :
    ∃ s', visit a s (.enter b) = .ok s' ∧ Numbered f (done ++ [b]) (b :: path) s' := by
  have hstart := numbering_start hb hnew hdoms h
  obtain ⟨y, hy, hinsts⟩ := hstart.midway.block_eq hf
  obtain ⟨s', hs', hnum, hmarks⟩ := exists_foldlM
    (P := fun pre rest s' => Numbering f done b pre rest s' ∧
      s'.table.marks = s.table.pushScope.marks)
    (fun hP => by
      obtain ⟨s'', hs'', hnum, hmarks⟩ := visitInst_spec hd hf hlayout hP.1
      exact ⟨s'', hs'', hnum, hmarks.trans hP.2⟩)
    ⟨hstart, rfl⟩
  refine ⟨s', ?_, hnum.midway.leave, hnum.runs, by simpa using hnum.table, hnum.trimmed, ?_⟩
  · simp only [visit, hy, bind, Except.bind, hinsts]
    exact hs'
  · rw [hmarks]
    simp [ScopedTable.pushScope, h.scopes]

theorem visit_leave (h : Numbered f done (b :: path) s) :
    ∃ s', visit a s (.leave b) = .ok s' ∧ Numbered f done path s' := by
  cases hmarks : s.table.marks with
  | nil =>
    have hscopes := h.scopes
    simp [hmarks] at hscopes
  | cons mark marks =>
    obtain ⟨t, ht, hrest, hholds⟩ := ScopedTable.exists_popScope hmarks
    refine ⟨{ s with table := t }, ?_, h.pruned, h.runs,
      fun k e hk => h.table k e (hholds k e hk), h.trimmed, ?_⟩
    · simp only [visit, ht, bind, Except.bind]
      rfl
    · have hscopes := h.scopes
      simp only [hmarks, List.length_cons] at hscopes
      simp only [hrest]
      omega

theorem numbered_start (hf : f.Valid) : Numbered f [] [] { progress := { func := f } } := by
  refine ⟨.refl hf, fun _ _ _ _ _ _ => rfl, fun k e hk => ?_, .refl, rfl⟩
  rcases hk with hk | hk <;> cases hk

/-- The walk over a valid function whose instructions have the operands that they take comes to an
end. -/
theorem exists_numbered (hd : a.Describes f rank) (hf : f.Valid) (hlayout : f.LaidOut)
    (visibility : Visibility) : ∃ done s, (walk a visibility).foldlM (visit a)
      { progress := { func := f } } = .ok s ∧ Numbered f done [] s := by
  cases visibility with
  | block =>
    exact ⟨_, hd.foldlM_rpo (visit_enter hd hf hlayout) visit_leave (numbered_start hf)⟩
  | domTree =>
    exact ⟨_, hd.foldlM_tour (fun hb hnew hdoms _ => visit_enter hd hf hlayout hb hnew hdoms)
      visit_leave (numbered_start hf)⟩

/-- Value numbering of a valid function whose instructions have the operands that they take comes
to an end, after deletions that keep every run. -/
theorem exists_run (hd : a.Describes f rank) (hf : f.Valid) (hlayout : f.LaidOut)
    (visibility : Visibility) : ∃ p, run a visibility f = .ok p ∧
      (∃ seen, Pruned f p.func seen) ∧ (f.Typed → SameRuns f p.func) := by
  obtain ⟨done, s, hs, hnum⟩ := exists_numbered hd hf hlayout visibility
  exact ⟨s.progress, bind_eq_ok_iff.mpr ⟨s, hs, rfl⟩, ⟨_, hnum.pruned⟩, hnum.runs⟩

/-- Value numbering deletes pure instructions, and counts them. -/
theorem run_trimmed {p : Progress} {visibility : Visibility} (hd : a.Describes f rank)
    (hf : f.Valid) (hlayout : f.LaidOut) (h : run a visibility f = .ok p) :
    (∃ seen, Pruned f p.func seen) ∧ Trimmed Opcode.isPure { func := f } p := by
  obtain ⟨done, s, hs, hnum⟩ := exists_numbered hd hf hlayout visibility
  have hrun : run a visibility f = .ok s.progress := bind_eq_ok_iff.mpr ⟨s, hs, rfl⟩
  obtain rfl := Except.ok.inj (hrun.symm.trans h)
  exact ⟨⟨_, hnum.pruned⟩, hnum.trimmed⟩

theorem run_of_no_blocks (ha : Analysis.ofFunc f = .ok a) (h₀ : ¬0 < f.numBlocks)
    (visibility : Visibility) : run a visibility f = .ok { func := f } := by
  have hnil : walk a visibility = [] := by
    obtain ⟨hrpo, htour⟩ := Analysis.walks_eq_nil ha h₀
    cases visibility <;> simp [walk, hrpo, htour]
  rw [run, hnil]
  rfl

/-- **Value numbering preserves meaning.** Take a function that was accepted, whose instructions
have the operands and types that they are built with. Value numbering comes to an end, and the
function that it leaves has the same runs: under every reading of the opcodes in which the
operators flagged commutative are, its first `k` block visits are the same, with the same memory
operations, transfers of control and traps, each with the same operand values. -/
theorem run_preserves_trace {f : Func} (hbuilt : f.Built) (hdecl : f.isDeclaration = false)
    (hcheck : f.check = .ok ()) (hlayout : f.LaidOut) (htyped : f.Typed) {a : Analysis}
    (ha : Analysis.ofFunc f = .ok a) (visibility : Visibility) :
    ∃ p, run a visibility f = .ok p ∧ ∀ {I : Interpretation}, I.Commutes →
      ∀ (args : Nat → I.Value) (memory : I.Memory) (k : Nat),
        p.func.trace I args memory k = f.trace I args memory k := by
  by_cases h₀ : 0 < f.numBlocks
  · obtain ⟨rank, hd⟩ := Analysis.describes ha h₀
    have hf := hbuilt.consistent.valid hdecl h₀ hcheck
    obtain ⟨p, hp, -, hruns⟩ := exists_run hd hf hlayout visibility
    exact ⟨p, hp, hruns htyped⟩
  · exact ⟨_, run_of_no_blocks ha h₀ visibility, fun _ _ _ _ => rfl⟩

/-- A loop that adds its arguments again in each iteration, in the other order. Once the two sums
are one, so are the two products. -/
def repeatedSums : Func := .made [.i32, .i32] [
  .block, .block, .block,
  .switch ⟨0⟩, .binary .add .i32 (.arg 0) (.arg 1), .jump ⟨1⟩,
  .switch ⟨1⟩, .phi .i32, .binary .add .i32 (.arg 1) (.arg 0),
  .binary .mul .i32 (.inst ⟨3⟩) (.inst ⟨2⟩), .binary .mul .i32 (.inst ⟨2⟩) (.inst ⟨0⟩),
  .store (.inst ⟨5⟩) (.global 0), .compare .slt (.inst ⟨4⟩) (.lit (.i32 9)),
  .branch (.inst ⟨7⟩) ⟨1⟩ ⟨2⟩,
  .switch ⟨2⟩, .ret (some (.inst ⟨5⟩)),
  .incoming ⟨2⟩ (.lit (.i32 1)) ⟨0⟩, .incoming ⟨2⟩ (.inst ⟨4⟩) ⟨1⟩]

open Interpretation in
theorem run_preserves_trace_repeatedSums :
    ∃ a p, Analysis.ofFunc repeatedSums = .ok a ∧ run a .domTree repeatedSums = .ok p ∧
      p.changes = 2 ∧ p.func.trace integers (integerArgs [1, 1]) zeroMemory 6 =
        repeatedSums.trace integers (integerArgs [1, 1]) zeroMemory 6 := by
  obtain ⟨a, ha, h⟩ := exists_ok_of_any (x := Analysis.ofFunc repeatedSums)
    (q := fun a => (run a .domTree repeatedSums).toOption.any fun p : Progress => p.changes = 2)
    (by decide +kernel)
  obtain ⟨q, hq, hchanges⟩ := exists_ok_of_any h
  obtain ⟨p, hp, htrace⟩ := run_preserves_trace (built_made _ _) (by decide +kernel)
    (by decide +kernel) (by decide +kernel) (by decide +kernel) ha .domTree
  obtain rfl := Except.ok.inj (hq.symm.trans hp)
  exact ⟨a, q, ha, hq, of_decide_eq_true hchanges, htrace integers_commutes _ _ 6⟩

end Values

end SsaOpt
