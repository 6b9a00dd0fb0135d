import SsaOpt.Proofs.NormalForm

/-! The questions about phis that a walk of the dominator tree asks, and their answers.

The walk is taken apart into steps: entering a block, visiting one instruction, leaving a block.
Between any two of them every answer that was kept is right for the function as it stands. The next
answer is right then too, and since no answer is ever dropped or changed, it stays right until the
walk ends, whatever is deleted on the way. -/

namespace SsaOpt

namespace PhiMemo

variable {f : Func} {memo : PhiMemo} {i root : InstId} {answer : Bool}

theorem find?_ask_root : (memo.ask f root).2.find? root = some (memo.ask f root).1 := by
  unfold ask
  cases hknown : memo.find? root with
  | some answer => exact hknown
  | none => simp [Bindings.find?_insert]

/-- No answer is dropped or changed. -/
theorem find?_ask_of_known (h : memo.find? i = some answer) :
    (memo.ask f root).2.find? i = some answer := by
  unfold ask
  cases hknown : memo.find? root with
  | some _ => exact h
  | none =>
    have hne : i ≠ root := by
      intro heq
      rw [heq, hknown] at h
      cases h
    simp [Bindings.find?_insert, hne, h]

end PhiMemo

namespace Values

open Func Dominators

variable {f : Func} {a : Analysis} {rank : BlockId → Nat} {s s' : State} {x e : InstId}
  {b : BlockId} {answer : Bool}

/-! ## What a visit asks -/

/-- The visit of `x` in block `b` asks whether `e` depends on a phi: `e` was found under the
expression of `x`, which is pure, and it stands in another block, which dominates `b`. -/
structure Asks (a : Analysis) (b : BlockId) (s : State) (x e : InstId) : Prop where
  found : ∃ k, Expression.ofInst? s.progress.func x = .ok (some k) ∧ s.table.find? k = some e
  other : e ≠ x
  pure : (s.progress.func.op? x).any Opcode.isPure
  outside : ∃ c, s.progress.func.homeOf e = some c ∧ c ≠ b ∧ a.dom.dominates c b = true

/-- An instruction of the block itself, or of one that does not dominate it, is used or not whatever
is known of phis. -/
theorem reuse_of_inside
    (h : ∀ c, s.progress.func.homeOf e = some c → a.dom.dominates c b = true → c = b)
    (memo : PhiMemo) :
    reuse a b { s with memo } x e = (reuse a b s x e).map fun s' => { s' with memo } := by
  unfold reuse
  simp only [bind, Except.bind]
  cases hy : s.progress.func.inst e with
  | error fault => rfl
  | ok y =>
    cases hhome : y.home with
    | none => simp [hhome, pure, Except.pure, Except.map]
    | some c =>
      rw [homeOf_of_inst hy] at h
      simp only [hhome]
      cases hdom : a.dom.dominates c b with
      | false => rfl
      | true =>
        obtain rfl := h c hhome hdom
        simp only [Bool.not_true, Bool.false_eq_true, if_false, if_true]
        cases s.progress.func.renderInst x with
        | error fault => rfl
        | ok text =>
          simp only
          cases (s.progress.note _).replaceBy x e with
          | error fault => rfl
          | ok p => rfl

/-- A visit that asks nothing goes the same way whatever is known, and what is known is kept. -/
theorem visitInst_of_not_asks (h : ∀ e, ¬Asks a b s x e) (memo : PhiMemo) :
    visitInst a b { s with memo } x =
      (visitInst a b s x).map fun s' => { s' with memo } := by
  unfold visitInst
  simp only [bind, Except.bind]
  cases hk : Expression.ofInst? s.progress.func x with
  | error fault => rfl
  | ok k? =>
    cases k? with
    | none => rfl
    | some k =>
      simp only
      cases he : s.table.find? k with
      | none => rfl
      | some e =>
        simp only
        cases hx : s.progress.func.inst x with
        | error fault => rfl
        | ok z =>
          simp only
          split
          · rfl
          · next hcond =>
            rw [Bool.or_eq_true, decide_eq_true_eq, not_or, Bool.not_eq_true',
              Bool.not_eq_false] at hcond
            refine reuse_of_inside (fun c hhome hdom => ?_) memo
            by_contra hcb
            refine h e ⟨⟨k, hk, he⟩, hcond.1, ?_, c, hhome, hcb, hdom⟩
            rw [op?_of_inst hx]
            exact hcond.2

/-- After a question what is known is what the question leaves. -/
theorem Asks.memo_eq (h : Asks a b s x e) (hvisit : visitInst a b s x = .ok s') :
    s'.memo = (s.memo.ask s.progress.func e).2 := by
  obtain ⟨k, hk, he⟩ := h.found
  obtain ⟨c, hhome, hcb, hdom⟩ := h.outside
  have hreuse : reuse a b s x e = .ok s' := by
    obtain ⟨z, hz, hpure⟩ := (Option.any_eq_true _ _).mp h.pure
    obtain ⟨w, hw, rfl⟩ := op?_eq_some_iff.mp hz
    have hcond : (decide (e = x) || !w.op.isPure) = false := by simp [h.other, hpure]
    simpa [visitInst, hk, he, hw, hcond, bind, Except.bind] using hvisit
  unfold reuse at hreuse
  obtain ⟨y, hy, hreuse⟩ := bind_eq_ok_iff.mp hreuse
  rw [homeOf_of_inst hy] at hhome
  simp only [hhome, hdom, Bool.not_true, Bool.false_eq_true, if_false, hcb] at hreuse
  split at hreuse
  · obtain ⟨text, -, hreuse⟩ := bind_eq_ok_iff.mp hreuse
    obtain ⟨p, -, hreuse⟩ := bind_eq_ok_iff.mp hreuse
    rw [← Except.ok.inj hreuse]
  · rw [← Except.ok.inj hreuse]

/-- A visit drops and changes no answer. -/
theorem find?_memo_of_visitInst (hvisit : visitInst a b s x = .ok s')
    (h : s.memo.find? e = some answer) : s'.memo.find? e = some answer := by
  by_cases hasks : ∃ d, Asks a b s x d
  · obtain ⟨d, hd⟩ := hasks
    rw [hd.memo_eq hvisit]
    exact PhiMemo.find?_ask_of_known h
  · have hsame := visitInst_of_not_asks (not_exists.mp hasks) s.memo
    rw [hvisit] at hsame
    rw [Except.ok.inj hsame]
    exact h

/-! ## The walk in steps -/

/-- Where a walk stands: the visits to be made, and of the block entered last the instructions to be
visited before that. -/
structure Stage where
  visits : List Visit
  block : BlockId
  pending : List InstId
  state : State

namespace Stage

/-- The function as it stands. -/
def func (m : Stage) : Func := m.state.progress.func

def start (a : Analysis) (f : Func) : Stage :=
  ⟨a.dom.tour, .entry, [], { progress := { func := f } }⟩

/-- A block is entered, or one instruction is visited, or a block is left. -/
inductive Step (a : Analysis) : Stage → Stage → Prop
  | enter {visits b c s y} : s.progress.func.block b = .ok y →
      Step a ⟨.enter b :: visits, c, [], s⟩
        ⟨visits, b, y.insts, { s with table := s.table.pushScope }⟩
  | look {visits b x rest s s'} : visitInst a b s x = .ok s' →
      Step a ⟨visits, b, x :: rest, s⟩ ⟨visits, b, rest, s'⟩
  | leave {visits b c s t} : s.table.popScope = .ok t →
      Step a ⟨.leave b :: visits, c, [], s⟩ ⟨visits, c, [], { s with table := t }⟩

/-- Any number of steps. -/
abbrev Steps (a : Analysis) : Stage → Stage → Prop := Relation.ReflTransGen (Step a)

variable {m m₁ m₂ : Stage} {visits : List Visit}

theorem Step.unique (h₁ : Step a m m₁) (h₂ : Step a m m₂) : m₁ = m₂ := by
  cases h₁ with
  | enter h₁ =>
    cases h₂ with
    | enter h₂ => rw [Except.ok.inj (h₁.symm.trans h₂)]
  | look h₁ =>
    cases h₂ with
    | look h₂ => rw [Except.ok.inj (h₁.symm.trans h₂)]
  | leave h₁ =>
    cases h₂ with
    | leave h₂ => rw [Except.ok.inj (h₁.symm.trans h₂)]

theorem steps_of_insts {rest : List InstId} : ∀ {s : State},
    rest.foldlM (visitInst a b) s = .ok s' →
      Steps a ⟨visits, b, rest, s⟩ ⟨visits, b, [], s'⟩ := by
  induction rest with
  | nil =>
    intro s h
    rw [Except.ok.inj h]
  | cons x rest ih =>
    intro s h
    obtain ⟨s₁, h₁, h⟩ := foldlM_cons_ok_iff.mp h
    exact .head (.look h₁) (ih h)

/-- The steps make the visits, one after the other. -/
theorem steps_of_visits {front : List Visit} (back : List Visit) :
    ∀ {s : State} {b : BlockId}, front.foldlM (visit a) s = .ok s' →
      ∃ c, Steps a ⟨front ++ back, b, [], s⟩ ⟨back, c, [], s'⟩ := by
  induction front with
  | nil =>
    intro s b h
    rw [Except.ok.inj h]
    exact ⟨b, .refl⟩
  | cons v front ih =>
    intro s b h
    obtain ⟨s₁, h₁, hrest⟩ := foldlM_cons_ok_iff.mp h
    cases v with
    | enter c =>
      obtain ⟨y, hy, h₁⟩ := bind_eq_ok_iff.mp h₁
      obtain ⟨d, hd⟩ := ih (b := c) hrest
      exact ⟨d, .head (.enter hy) ((steps_of_insts h₁).trans hd)⟩
    | leave c =>
      obtain ⟨t, ht, h₁⟩ := bind_eq_ok_iff.mp h₁
      obtain ⟨d, hd⟩ := ih (b := b) hrest
      obtain rfl := Except.ok.inj h₁
      exact ⟨d, .head (.leave ht) hd⟩

theorem eq_of_steps_end (h : Steps a ⟨[], b, [], s⟩ m) : m = ⟨[], b, [], s⟩ := by
  cases h.cases_head with
  | inl heq => exact heq.symm
  | inr hnext =>
    obtain ⟨m₁, hstep, -⟩ := hnext
    cases hstep

/-- If the walk comes to an end, every stage is on the way there. -/
theorem steps_to_end (h : Steps a m m₁) (hend : Steps a m ⟨[], b, [], s⟩) :
    Steps a m₁ ⟨[], b, [], s⟩ := by
  rcases Relation.ReflTransGen.total_of_right_unique (fun _ _ _ h₁ h₂ => h₁.unique h₂) h hend with
    hto | hfrom
  · exact hto
  · rw [eq_of_steps_end hfrom]

theorem find?_memo_of_steps (h : Steps a m m₁) (hknown : m.state.memo.find? e = some answer) :
    m₁.state.memo.find? e = some answer := by
  induction h with
  | refl => exact hknown
  | tail _ hstep ih =>
    cases hstep with
    | enter => exact ih
    | look hvisit => exact find?_memo_of_visitInst hvisit ih
    | leave => exact ih

/-! ## What holds at every stage -/

/-- The invariants of value numbering, at a stage of the walk. -/
inductive Sound (a : Analysis) (f : Func) : Stage → Prop
  | between (front : List Visit) {visits c s} : a.dom.tour = front ++ visits →
      Normalizing .domTree f (entries front) (openAfter [] front) s → Sound a f ⟨visits, c, [], s⟩
  | inside (front : List Visit) {visits b pre kept x rest s} :
      a.dom.tour = front ++ .enter b :: visits →
      Reducing .domTree f (entries front) (openAfter [] front) b pre kept (x :: rest) s →
      Sound a f ⟨visits, b, x :: rest, s⟩

theorem Sound.memo (h : Sound a f m) : m.state.memo.Sound m.func := by
  cases h with
  | between _ _ h => exact h.memo
  | inside _ _ h => exact h.memo

theorem Sound.consistent (h : Sound a f m) : m.func.Consistent := by
  cases h with
  | between _ _ h => exact h.numbered.pruned.valid.consistent
  | inside _ _ h => exact h.numbering.midway.pruned.valid.consistent

theorem sound_of_reducing {front : List Visit} {pre kept rest : List InstId}
    (htour : a.dom.tour = front ++ .enter b :: visits)
    (h : Reducing .domTree f (entries front) (openAfter [] front) b pre kept rest s) :
    Sound a f ⟨visits, b, rest, s⟩ := by
  cases rest with
  | cons x rest => exact .inside front htour h
  | nil =>
    refine .between (front ++ [.enter b]) (by simp [htour]) ?_
    rw [entries_append, openAfter_append]
    exact .of_reducing h

theorem Sound.step (hd : a.Describes f rank) (hf : f.Valid) (hlayout : f.LaidOut)
    (h : Sound a f m) (hstep : Step a m m₁) : Sound a f m₁ := by
  cases hstep with
  | enter hy =>
    cases h with
    | between front htour h =>
      obtain ⟨hb, hnew, hdoms, hopen⟩ := hd.due_of_tour_eq htour
      have hred := h.reducing hf hb hnew hdoms fun c => by simp [Outer, hopen]
      obtain ⟨z, hz, hinsts⟩ := hred.numbering.midway.block_eq hf
      rw [Except.ok.inj (hy.symm.trans hz), hinsts]
      exact sound_of_reducing htour hred
  | look hvisit =>
    cases h with
    | inside front htour h =>
      obtain ⟨s', hs', kept, hred⟩ := h.step hd hf hlayout
      rw [Except.ok.inj (hvisit.symm.trans hs')]
      exact sound_of_reducing htour hred
  | @leave visits b c s t ht =>
    cases h with
    | between front htour h =>
      obtain ⟨path, hpath⟩ := hd.due_of_tour_eq htour
      rw [hpath] at h
      obtain ⟨s', hs', hnorm⟩ := h.leave (a := a)
      obtain ⟨t', ht', hs'⟩ := bind_eq_ok_iff.mp hs'
      obtain rfl := Except.ok.inj hs'
      rw [← Except.ok.inj (ht.symm.trans ht')] at hnorm
      refine .between (front ++ [.leave b]) (by simp [htour]) ?_
      simpa [entries, openAfter_append, openAfter, hpath] using hnorm

theorem sound_of_steps (hd : a.Describes f rank) (hf : f.Valid) (hlayout : f.LaidOut)
    (h : Steps a (start a f) m) : Sound a f m := by
  induction h with
  | refl => exact .between [] rfl (normalizing_start hf)
  | tail _ hstep ih => exact ih.step hd hf hlayout hstep

/-- At the stage of the question the answer is searched for or known, and later it is known. -/
theorem answer_iff (hd : a.Describes f rank) (hf : f.Valid) (hlayout : f.LaidOut)
    (h : Steps a (start a f) m) (hlater : Steps a m m₁) {rest : List InstId}
    (hpending : m.pending = x :: rest) (hasks : Asks a m.block m.state x e) :
    (m.state.memo.ask m.func e).1 = true ↔ m₁.func.PhiBelow e := by
  cases hlater.cases_head with
  | inl heq =>
    subst heq
    have hsound := sound_of_steps hd hf hlayout h
    obtain ⟨c, hhome, -, -⟩ := hasks.outside
    have hroot : (m.func.bare? e).isSome := by
      obtain ⟨z, hz, -⟩ := Option.bind_eq_some_iff.mp hhome
      exact Option.isSome_of_eq_some hz
    exact (PhiMemo.ask_spec hsound.consistent hsound.memo hroot).1
  | inr hnext =>
    obtain ⟨m₂, hstep, hlater⟩ := hnext
    have hsound := (sound_of_steps hd hf hlayout ((h.tail hstep).trans hlater)).memo
    refine hsound e _ (find?_memo_of_steps hlater ?_)
    cases hstep with
    | enter => cases hpending
    | leave => cases hpending
    | look hvisit =>
      obtain ⟨rfl, rfl⟩ := List.cons.inj hpending
      rw [hasks.memo_eq hvisit]
      exact PhiMemo.find?_ask_root

end Stage

open Stage

/-- **The phi test stays exact while the function is rewritten.** Take a function that was accepted,
whose instructions have the operands that they are built with. The walk of the dominator tree comes
to an end, and every stage `m` that its steps lead to is on the way to that end. Say that at `m` the
instruction `x` is visited next. If the visit asks whether `e` depends on a phi, what is known
afterwards is what that question leaves, and the answer is yes exactly if the operands of `e` lead
to a phi, in any number of steps from none, in the function as it stands at `m`, and at every later
stage as well. If the visit asks nothing, it goes the same way whatever is known. -/
theorem run_phi_answers_exact {f : Func} (hbuilt : f.Built) (hdecl : f.isDeclaration = false)
    (hcheck : f.check = .ok ()) (hlayout : f.LaidOut) {a : Analysis}
    (ha : Analysis.ofFunc f = .ok a) :
    ∃ p, run a .domTree f = .ok p ∧ ∀ m, Steps a (start a f) m →
      (∃ b s, Steps a m ⟨[], b, [], s⟩ ∧ s.progress = p) ∧
      ∀ x rest, m.pending = x :: rest →
        (∀ e, Asks a m.block m.state x e →
          (∀ s, visitInst a m.block m.state x = .ok s →
            s.memo = (m.state.memo.ask m.func e).2) ∧
          ∀ m', Steps a m m' → ((m.state.memo.ask m.func e).1 = true ↔
            ∃ d, Relation.ReflTransGen (fun i d => d ∈ m'.func.reads i) e d ∧ m'.func.isPhi d)) ∧
        ((∀ e, ¬Asks a m.block m.state x e) → ∀ memo, visitInst a m.block { m.state with memo } x =
          (visitInst a m.block m.state x).map fun s => { s with memo }) := by
  obtain ⟨p, hp, hanswer⟩ : ∃ p, run a .domTree f = .ok p ∧ ∀ m, Steps a (start a f) m →
      ∀ x rest, m.pending = x :: rest → ∀ e, Asks a m.block m.state x e → ∀ m', Steps a m m' →
        ((m.state.memo.ask m.func e).1 = true ↔ m'.func.PhiBelow e) := by
    by_cases h₀ : 0 < f.numBlocks
    · obtain ⟨rank, hd⟩ := Analysis.describes ha h₀
      have hf := hbuilt.consistent.valid hdecl h₀ hcheck
      obtain ⟨p, -, hp, -⟩ := exists_normal_run hd hf hlayout .domTree
      refine ⟨p, hp, fun m hm x rest hpending e hasks m' hlater => ?_⟩
      exact answer_iff hd hf hlayout hm hlater hpending hasks
    · refine ⟨_, run_of_no_blocks ha h₀ .domTree, fun m hm x rest hpending => ?_⟩
      -- there is nothing to visit
      have hstart : start a f = ⟨[], .entry, [], { progress := { func := f } }⟩ := by
        rw [start, (Analysis.walks_eq_nil ha h₀).2]
      rw [hstart] at hm
      rw [eq_of_steps_end hm] at hpending
      cases hpending
  refine ⟨p, hp, fun m hm => ⟨?_, fun x rest hpending => ⟨fun e hasks => ⟨?_, ?_⟩, ?_⟩⟩⟩
  · obtain ⟨s, hs, hprogress⟩ := bind_eq_ok_iff.mp hp
    obtain ⟨b, hend⟩ := steps_of_visits [] (b := .entry) hs
    rw [List.append_nil] at hend
    exact ⟨b, s, steps_to_end hm hend, Except.ok.inj hprogress⟩
  · exact fun s => hasks.memo_eq
  · exact hanswer m hm x rest hpending e hasks
  · exact visitInst_of_not_asks

/-- The second repetition after the loop of `carriedSums` asks about the sum of the loop once more.
One sum was deleted by then, and the answer is known. -/
theorem run_phi_answers_exact_carriedSums :
    ∃ a m, Analysis.ofFunc carriedSums = .ok a ∧ Steps a (start a carriedSums) m ∧
      m.pending = [⟨8⟩, ⟨9⟩, ⟨10⟩] ∧ m.state.progress.changes = 1 ∧
      m.state.memo.find? ⟨4⟩ = some true ∧ Asks a m.block m.state ⟨8⟩ ⟨4⟩ ∧
      ∀ m', Steps a m m' →
        ∃ d, Relation.ReflTransGen (fun i d => d ∈ m'.func.reads i) ⟨4⟩ d ∧ m'.func.isPhi d := by
  obtain ⟨a, ha, h⟩ := exists_ok_of_any (x := Analysis.ofFunc carriedSums)
    (q := fun a => a.dom.tour = [.enter ⟨0⟩, .enter ⟨1⟩] ++ .enter ⟨2⟩ :: [.leave ⟨2⟩, .leave ⟨1⟩,
      .leave ⟨0⟩] && a.dom.dominates ⟨1⟩ ⟨2⟩ &&
      ([.enter ⟨0⟩, .enter ⟨1⟩].foldlM (visit a)
        { progress := { func := carriedSums } }).toOption.any fun s =>
        (s.progress.func.block ⟨2⟩).toOption.any fun y =>
          y.insts = [⟨7⟩, ⟨8⟩, ⟨9⟩, ⟨10⟩] &&
          (visitInst a ⟨2⟩ { s with table := s.table.pushScope } ⟨7⟩).toOption.any fun s =>
            s.progress.changes = 1 && s.memo.find? ⟨4⟩ = some true &&
            (s.progress.func.op? ⟨8⟩).any Opcode.isPure && s.progress.func.homeOf ⟨4⟩ = some ⟨1⟩ &&
            Expression.ofInst? s.progress.func ⟨8⟩ =
              .ok (some (.binary .add .i32 (.inst ⟨0⟩) (.inst ⟨2⟩))) &&
            s.table.find? (.binary .add .i32 (.inst ⟨0⟩) (.inst ⟨2⟩)) = some ⟨4⟩)
    (by decide +kernel)
  simp only [Bool.and_eq_true, decide_eq_true_eq] at h
  obtain ⟨⟨htour, hdom⟩, h⟩ := h
  obtain ⟨s, hs, h⟩ := exists_ok_of_any h
  obtain ⟨y, hy, h⟩ := exists_ok_of_any h
  simp only [Bool.and_eq_true, decide_eq_true_eq] at h
  obtain ⟨hinsts, h⟩ := h
  obtain ⟨s', hs', h⟩ := exists_ok_of_any h
  simp only [Bool.and_eq_true, decide_eq_true_eq] at h
  obtain ⟨⟨⟨⟨⟨hchanges, hknown⟩, hpure⟩, hhome⟩, hkey⟩, hfound⟩ := h
  have hsteps : Steps a (start a carriedSums)
      ⟨[.leave ⟨2⟩, .leave ⟨1⟩, .leave ⟨0⟩], ⟨2⟩, [⟨8⟩, ⟨9⟩, ⟨10⟩], s'⟩ := by
    obtain ⟨c, hfront⟩ := steps_of_visits (.enter ⟨2⟩ :: [.leave ⟨2⟩, .leave ⟨1⟩, .leave ⟨0⟩])
      (b := .entry) hs
    rw [start, htour]
    refine (hfront.tail (.enter hy)).tail ?_
    rw [hinsts]
    exact .look hs'
  have hasks : Asks a ⟨2⟩ s' ⟨8⟩ ⟨4⟩ :=
    ⟨⟨_, hkey, hfound⟩, by decide, hpure, ⟨1⟩, hhome, by decide, hdom⟩
  obtain ⟨p, -, hall⟩ := run_phi_answers_exact (f := carriedSums) (built_made _ _)
    (by decide +kernel) (by decide +kernel) (by decide +kernel) ha
  refine ⟨a, _, ha, hsteps, rfl, hchanges, hknown, hasks, fun m' hlater => ?_⟩
  refine ((((hall _ hsteps).2 _ _ rfl).1 _ hasks).2 m' hlater).mp ?_
  show (s'.memo.ask s'.progress.func ⟨4⟩).1 = true
  simp [PhiMemo.ask, hknown]

end Values

end SsaOpt
