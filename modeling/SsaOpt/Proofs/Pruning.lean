import SsaOpt.Proofs.Amendment
import SsaOpt.Proofs.Tour

/-! Passes that look at each instruction once, dominators first, and delete some in favour of
instructions seen before. What has been seen reads only what has been seen, apart from phis, so a
deletion never changes it again. -/

namespace SsaOpt

/-- A sublist that has the whole end of a list without repetition ends like it. -/
theorem exists_append_of_sublist {α : Type} {l pre rest : List α} (h : l.Sublist (pre ++ rest))
    (hnodup : (pre ++ rest).Nodup) (hrest : ∀ i ∈ rest, i ∈ l) :
    ∃ front, l = front ++ rest ∧ front.Sublist pre := by
  obtain ⟨front, back, rfl, hfront, hback⟩ := List.sublist_append_iff.mp h
  have hsub : rest ⊆ back := by
    intro i hi
    rcases List.mem_append.mp (hrest i hi) with hi' | hi'
    · exact absurd hi (List.disjoint_of_nodup_append hnodup (hfront.subset hi'))
    · exact hi'
  have hlen := ((List.nodup_append'.mp hnodup).2.1.subperm hsub).length_le
  obtain rfl := hback.eq_of_length_le hlen
  exact ⟨front, rfl, hfront⟩

namespace Func

variable {f g g' : Func} {x e i d : InstId} {b c : BlockId} {seen pre rest front : List InstId}
  {done : List BlockId}

/-- `g` is what a pass has made of `f` that has looked at the instructions `seen`. -/
structure Pruned (f g : Func) (seen : List InstId) : Prop where
  valid : g.Valid
  size : g.numBlocks = f.numBlocks
  edge : g.Edge = f.Edge
  op : ∀ i, g.op? i = f.op? i
  shape : ∀ {i z}, g.bare? i = some z → ∃ w, f.bare? i = some w ∧ z.op = w.op ∧ z.ty = w.ty ∧
    (z.erased = false → w.erased = false ∧ z.operands.length = w.operands.length)
  sub : ∀ b, (g.listOf b).Sublist (f.listOf b)
  kept : ∀ b, ∀ i ∈ f.listOf b, i ∉ seen → i ∈ g.listOf b
  closed : ∀ i ∈ seen, ¬f.isPhi i → ∀ d ∈ g.reads i, d ∈ seen
  amended : Amended f g

namespace Pruned

theorem refl (hf : f.Valid) : Pruned f f [] where
  valid := hf
  size := rfl
  edge := rfl
  op _ := rfl
  shape hz := ⟨_, hz, rfl, rfl, fun herased => ⟨herased, rfl⟩⟩
  sub _ := .refl _
  kept _ _ hi _ := hi
  closed _ hi := absurd hi List.not_mem_nil
  amended := .refl

variable (h : Pruned f g seen)
include h

theorem isPhi_eq (i : InstId) : g.isPhi i = f.isPhi i := by
  rw [Func.isPhi_eq, Func.isPhi_eq, h.op]

theorem ends_eq (i : InstId) : g.ends i = f.ends i := by
  rw [ends, ends, h.op]

theorem dom_eq : g.Dom = f.Dom := by
  funext a b
  rw [Dom, Dom, h.edge]

theorem reached_eq : g.Reached = f.Reached := by
  funext b
  rw [Reached, Reached, h.edge]

/-- Deleting an unseen instruction does not change what was seen. -/
theorem bare_of_seen (hx : x ∉ seen) (hg : Replaced g x e g') (hi : i ∈ seen)
    (hphi : ¬f.isPhi i) : g'.bare? i = g.bare? i := by
  have hix : x ≠ i := fun hxi => hx (hxi ▸ hi)
  rw [hg.bare, if_neg hix]
  cases hz : g.bare? i with
  | none => rfl
  | some z =>
    have hsubst : z.operands.map (Operand.subst x (.inst e)) = z.operands := by
      refine (List.map_congr_left fun o ho => ?_).trans (List.map_id _)
      rw [Operand.subst, if_neg, id]
      rintro rfl
      exact hx (h.closed i hi hphi x ((mem_reads_iff_of_bare hz).mpr ho))
    simp [hsubst]

end Pruned

/-! ## Layout -/

theorem Pruned.laidOut (h : Pruned f g seen) (hf : f.LaidOut) : g.LaidOut := by
  intro i z hz hlive
  obtain ⟨w, hw, hop, -, hlen⟩ := h.shape hz
  show z.op.takes z.operands.length
  rw [hop, (hlen hlive).2]
  exact hf hw (hlen hlive).1

theorem Pruned.typed (h : Pruned f g seen) (hf : f.Typed) : g.Typed := by
  intro i z hz hlive
  obtain ⟨w, hw, hop, hty, hlen⟩ := h.shape hz
  show z.op.gives z.ty
  rw [hop, hty]
  exact hf hw (hlen hlive).1

/-! ## One walk -/

/-- The pass has been through the blocks `done`, and is in `b` before the instructions `rest`. -/
structure Midway (f g : Func) (done : List BlockId) (b : BlockId) (pre rest : List InstId) :
    Prop where
  pruned : Pruned f g (done.flatMap f.listOf ++ pre)
  split : f.listOf b = pre ++ rest
  reached : f.Reached b
  unvisited : b ∉ done
  doms : ∀ c, c ≠ b → f.Dom c b → c ∈ done

namespace Midway

theorem enter (h : Pruned f g (done.flatMap f.listOf)) (hb : f.Reached b) (hnew : b ∉ done)
    (hdoms : ∀ c, c ≠ b → f.Dom c b → c ∈ done) : Midway f g done b [] (f.listOf b) :=
  ⟨by simpa using h, rfl, hb, hnew, hdoms⟩

theorem leave (h : Midway f g done b (f.listOf b) []) :
    Pruned f g ((done ++ [b]).flatMap f.listOf) := by
  simpa using h.pruned

theorem fresh (hf : f.Valid) (h : Midway f g done b pre rest) :
    ∀ i ∈ rest, i ∉ done.flatMap f.listOf ++ pre := by
  intro i hi hseen
  rcases List.mem_append.mp hseen with hseen | hseen
  · obtain ⟨c, hc, hic⟩ := List.mem_flatMap.mp hseen
    obtain rfl := hf.consistent.home_unique hic (by simp [h.split, hi] : i ∈ f.listOf b)
    exact h.unvisited hc
  · have hnodup := hf.consistent.list_nodup b
    rw [h.split] at hnodup
    exact List.disjoint_of_nodup_append hnodup hseen hi

/-- What remains of the block. -/
theorem exists_front (hf : f.Valid) (h : Midway f g done b pre rest) :
    ∃ front, g.listOf b = front ++ rest ∧ front.Sublist pre := by
  have hsub := h.pruned.sub b
  have hnodup := hf.consistent.list_nodup b
  rw [h.split] at hsub hnodup
  refine exists_append_of_sublist hsub hnodup fun i hi => ?_
  exact h.pruned.kept b i (by simp [h.split, hi]) (h.fresh hf i hi)

/-- The next instruction still stands in its block. -/
theorem mem_next (hf : f.Valid) (h : Midway f g done b pre (x :: rest)) : x ∈ g.listOf b := by
  obtain ⟨front, hfront, -⟩ := h.exists_front hf
  simp [hfront]

/-- A block that has not been visited is as it was. -/
theorem block_eq (hf : f.Valid) (h : Midway f g done b [] (f.listOf b)) :
    ∃ y, g.block b = .ok y ∧ y.insts = f.listOf b := by
  obtain ⟨front, hlist, hfront⟩ := h.exists_front hf
  obtain rfl := List.sublist_nil.mp hfront
  obtain ⟨i, hi⟩ := List.exists_mem_of_ne_nil _ (hf.list_ne_nil (hf.lt_numBlocks h.reached))
  obtain ⟨y, hy⟩ := exists_block_of_mem (by simpa [hlist] using hi : i ∈ g.listOf b)
  exact ⟨y, hy, by rw [← listOf_of_block hy, hlist, List.nil_append]⟩

theorem seen_of_avail (h : Midway f g done b pre rest) (hfront : front.Sublist pre)
    (hd : g.Avail b front d) : d ∈ done.flatMap f.listOf ++ pre := by
  rcases hd with hd | ⟨home, hd, hne, hdom⟩
  · exact List.mem_append_right _ (hfront.subset hd)
  · rw [h.pruned.dom_eq] at hdom
    have hmem := List.mem_flatMap.mpr ⟨home, h.doms home hne hdom, (h.pruned.sub home).subset hd⟩
    exact List.mem_append_left _ hmem

/-- What was seen in a block that dominates this one is available. -/
theorem avail_of_seen (hf : f.Valid) (h : Midway f g done b pre rest)
    (hfront : g.listOf b = front ++ rest) (he : e ∈ done.flatMap f.listOf ++ pre)
    (hhome : e ∈ g.listOf c) (hdom : f.Dom c b) : g.Avail b front e := by
  by_cases hcb : c = b
  · subst hcb
    rw [hfront] at hhome
    rcases List.mem_append.mp hhome with hmem | hmem
    · exact .inl hmem
    · exact absurd he (h.fresh hf e hmem)
  · exact .inr ⟨c, hhome, hcb, h.pruned.dom_eq ▸ hdom⟩

/-- What the next instruction reads was seen and has not been deleted. -/
theorem seen_of_reads (hf : f.Valid) (h : Midway f g done b pre (x :: rest)) (hphi : ¬f.isPhi x)
    (hd : d ∈ g.reads x) : d ∈ done.flatMap f.listOf ++ pre ∧ ∃ c, d ∈ g.listOf c := by
  obtain ⟨front, hfront, hsub⟩ := h.exists_front hf
  have havail : g.Avail b front d := by
    refine h.pruned.valid.reads ?_ hfront ?_ hd
    · rw [h.pruned.reached_eq]
      exact h.reached
    · rwa [h.pruned.isPhi_eq]
  refine ⟨h.seen_of_avail hsub havail, ?_⟩
  rcases havail with hmem | ⟨c, hmem, -⟩
  · exact ⟨b, by simp [hfront, hmem]⟩
  · exact ⟨c, hmem⟩

/-- The next instruction is looked at and stays. -/
theorem keep (hf : f.Valid) (h : Midway f g done b pre (x :: rest)) :
    Midway f g done b (pre ++ [x]) rest := by
  refine ⟨{ h.pruned with kept := fun c i hi hseen => ?_, closed := fun i hi hphi d hd => ?_ },
    by simp [h.split], h.reached, h.unvisited, h.doms⟩
  · rw [← List.append_assoc] at hseen
    exact h.pruned.kept c i hi fun hi' => hseen (List.mem_append_left _ hi')
  · rw [← List.append_assoc] at hi ⊢
    refine List.mem_append_left _ ?_
    rcases List.mem_append.mp hi with hi | hi
    · exact h.pruned.closed i hi hphi d hd
    · obtain rfl := List.mem_singleton.mp hi
      exact (h.seen_of_reads hf hphi hd).1

/-- The next instruction may be deleted in favour of one seen in a block that dominates this
one. -/
theorem redundant (hf : f.Valid) (h : Midway f g done b pre (x :: rest))
    (he : e ∈ done.flatMap f.listOf ++ pre) (hhome : e ∈ g.listOf c) (hdom : f.Dom c b)
    (hend : ¬f.ends x) : ∃ front, Redundant g x e b front rest := by
  obtain ⟨front, hfront, -⟩ := h.exists_front hf
  refine ⟨front, ?_, hfront, h.avail_of_seen hf hfront he hhome hdom, ?_⟩
  · rw [h.pruned.reached_eq]
    exact h.reached
  · rwa [h.pruned.ends_eq]

theorem delete (h : Midway f g done b pre (x :: rest))
    (he : e ∈ done.flatMap f.listOf ++ pre) (hr : Redundant g x e b front rest)
    (hop : g.op? e = g.op? x) (hg : Replaced g x e g') : Midway f g' done b (pre ++ [x]) rest := by
  have hag := hr.agreeOff h.pruned.valid hg
  refine ⟨?_, by simp [h.split], h.reached, h.unvisited, h.doms⟩
  rw [← List.append_assoc]
  refine {
    valid := hr.valid h.pruned.valid hg
    size := hg.size.trans h.pruned.size
    edge := hag.edge_eq.trans h.pruned.edge
    op := fun i => (hg.op?_eq i).trans (h.pruned.op i)
    shape := fun {i z} hz => ?_
    sub := fun c => ?_
    kept := fun c i hi hseen => ?_
    closed := fun i hi hphi d hd => ?_
    amended := h.pruned.amended.tail (.delete hr hop hg) }
  · rw [hg.bare] at hz
    split at hz
    · obtain ⟨w, hw, rfl⟩ := Option.map_eq_some_iff.mp hz
      obtain ⟨v, hv, hop, hty, -⟩ := h.pruned.shape hw
      exact ⟨v, hv, hop, hty, fun herased => by cases herased⟩
    · obtain ⟨w, hw, rfl⟩ := Option.map_eq_some_iff.mp hz
      obtain ⟨v, hv, hop, hty, hlen⟩ := h.pruned.shape hw
      exact ⟨v, hv, hop, hty, fun herased => by simpa using hlen herased⟩
  · rw [hg.lists]
    exact List.filter_sublist.trans (h.pruned.sub c)
  · have hix : i ≠ x := by
      rintro rfl
      exact hseen (by simp)
    rw [hag.mem_list_iff hix]
    exact h.pruned.kept c i hi fun hi' => hseen (List.mem_append_left _ hi')
  · refine List.mem_append_left _ ?_
    by_cases hix : i = x
    · rw [hix, hg.reads_self] at hd
      cases hd
    · have hseen : i ∈ done.flatMap f.listOf ++ pre := by
        rcases List.mem_append.mp hi with hi | hi
        · exact hi
        · exact absurd (List.mem_singleton.mp hi) hix
      rcases (hg.mem_reads_iff hix).mp hd with ⟨-, rfl⟩ | ⟨-, hd⟩
      · exact he
      · exact h.pruned.closed i hseen hphi d hd

end Midway

/-! ## Counted deletions -/

/-- A step of a pass leaves the function as it is, or deletes an instruction of the given kind in
favour of one with the same opcode and counts that. -/
inductive Trims (kind : Opcode → Bool) (p q : Progress) : Prop
  | keep (hfunc : q.func = p.func) (hchanges : q.changes = p.changes)
  | delete {x e : InstId} {b : BlockId} {pre post : List InstId}
      (hkind : (p.func.op? x).any kind) (hr : Redundant p.func x e b pre post)
      (hop : p.func.op? e = p.func.op? x) (hg : Replaced p.func x e q.func)
      (hchanges : q.changes = p.changes + 1)

/-- `q` is `p` after some such steps. -/
abbrev Trimmed (kind : Opcode → Bool) (p q : Progress) : Prop :=
  Relation.ReflTransGen (Trims kind) p q

end Func

end SsaOpt
