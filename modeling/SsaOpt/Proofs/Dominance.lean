import SsaOpt.Analysis
import SsaOpt.Proofs.Checked
import SsaOpt.Proofs.DomTree

/-! The analysis of a function: it always comes to an end, and its dominance queries answer for all
paths along the terminators, whatever the shape of the graph. -/

namespace SsaOpt

namespace Func

/-- The terminator of `a` may lead to `b`. -/
def Edge (f : Func) (a b : BlockId) : Prop := ∃ targets, f.successors a = .ok targets ∧ b ∈ targets

/-- Every block can be left, and for blocks of the function only. -/
def TargetsExist (f : Func) : Prop :=
  ∀ b ∈ f.blockIds, ∃ targets ∈ (f.successors b).toOption, ∀ t ∈ targets, t ∈ f.blockIds

instance (f : Func) : Decidable f.TargetsExist := inferInstanceAs (Decidable (∀ _ ∈ _, _))

theorem successors_eq_error {f : Func} {b : BlockId} (hb : ¬ b.index < f.numBlocks) :
    f.successors b = .error .outOfBounds := by
  have hrow : f.blocks[b.index]? = none := Array.getElem?_eq_none (Nat.not_lt.mp hb)
  simp [successors, terminator?, block, hrow, Checked.ofOption, bind, Except.bind]

theorem Edge.source_lt {f : Func} {a b : BlockId} (h : f.Edge a b) : a.index < f.numBlocks := by
  obtain ⟨targets, htargets, -⟩ := h
  by_contra hlt
  rw [successors_eq_error hlt] at htargets
  cases htargets

end Func

namespace FlowGraph

theorem ofFunc_eq_ok_iff {f : Func} {g : FlowGraph} :
    ofFunc f = .ok g ↔ ∃ rows, f.blockIds.mapM f.successors = .ok rows ∧
      (∀ row ∈ rows, ∀ b ∈ row, b.index < f.numBlocks) ∧ g = ofSuccs rows.toArray := by
  simp only [ofFunc]
  cases hm : f.blockIds.mapM f.successors with
  | error e => simp [bind, Except.bind]
  | ok rows =>
    simp only [bind, Except.bind]
    by_cases hany : rows.any (fun row => row.any fun b => f.numBlocks ≤ b.index) = true
    · simp only [hany, if_true, throw, throwThe, MonadExceptOf.throw]
      refine ⟨fun h => by simp at h, ?_⟩
      rintro ⟨rows', hr, hall, -⟩
      obtain rfl := Except.ok.inj hr
      simp only [List.any_eq_true, decide_eq_true_eq] at hany
      obtain ⟨row, hrow, b, hb, hle⟩ := hany
      exact absurd (hall row hrow b hb) (by omega)
    · simp only [hany, Bool.false_eq_true, if_false, pure, Except.pure]
      constructor
      · intro h
        refine ⟨rows, rfl, fun row hrow b hb => ?_, (Except.ok.inj h).symm⟩
        by_contra hlt
        refine hany (List.any_eq_true.mpr ⟨row, hrow, List.any_eq_true.mpr ⟨b, hb, ?_⟩⟩)
        simpa using hlt
      · rintro ⟨rows', hr, -, rfl⟩
        obtain rfl := Except.ok.inj hr
        rfl

/-- The graph of a function has its blocks and the edges of its terminators. -/
structure Describes (g : FlowGraph) (f : Func) : Prop where
  valid : g.Valid
  size : g.size = f.numBlocks
  edge_iff : ∀ a b : BlockId, g.Edge a b ↔ f.Edge a b

theorem length_rows {f : Func} {rows : List (List BlockId)}
    (h : f.blockIds.mapM f.successors = .ok rows) : rows.length = f.numBlocks := by
  rw [← (mapM_ok_iff.mp h).length_eq]
  exact BlockId.length_upTo _

/-- The row of a block has its successors. -/
theorem exists_row {f : Func} {rows : List (List BlockId)} {a : BlockId}
    (h : f.blockIds.mapM f.successors = .ok rows) (ha : a.index < f.numBlocks) :
    ∃ row ∈ rows, f.successors a = .ok row ∧ (ofSuccs rows.toArray).succs a = row := by
  have hall := mapM_ok_iff.mp h
  have hlt : a.index < rows.length := by rw [length_rows h]; exact ha
  refine ⟨rows[a.index], List.getElem_mem hlt, ?_, ?_⟩
  · have := hall.get (i := a.index) (by simpa [Func.blockIds, Func.numBlocks] using ha) hlt
    simpa [Func.blockIds, BlockId.upTo] using this
  · simp [succs, ofSuccs, Array.getD_eq_getD_getElem?, hlt]

theorem describes_ofFunc {f : Func} {g : FlowGraph} (h : ofFunc f = .ok g) : g.Describes f := by
  obtain ⟨rows, hrows, hlt, rfl⟩ := ofFunc_eq_ok_iff.mp h
  have hlen := length_rows hrows
  have hedge : ∀ a b : BlockId, (ofSuccs rows.toArray).Edge a b ↔ f.Edge a b := by
    intro a b
    by_cases ha : a.index < f.numBlocks
    · obtain ⟨row, -, hs, hr⟩ := exists_row hrows ha
      simp only [Edge, hr, Func.Edge, hs, Except.ok.injEq, exists_eq_left']
    · constructor
      · intro hab
        have := Edge.source_lt hab
        simp only [size, ofSuccs, List.size_toArray] at this
        omega
      · rintro ⟨row, hs, -⟩
        simp [Func.successors_eq_error ha] at hs
  refine ⟨valid_ofSuccs fun a b hab => ?_, by simpa [size, ofSuccs] using hlen, hedge⟩
  have ha := Edge.source_lt hab
  simp only [size, ofSuccs, List.size_toArray] at ha ⊢
  obtain ⟨row, hmem, -, hr⟩ := exists_row (a := a) hrows (by omega)
  rw [hr] at hab
  rw [hlen]
  exact hlt row hmem b hab

theorem exists_ofFunc {f : Func} (h : f.TargetsExist) : ∃ g, ofFunc f = .ok g := by
  have hrow : ∀ b ∈ f.blockIds, ∃ row, f.successors b = .ok row ∧
      ∀ t ∈ row, t.index < f.numBlocks := by
    intro b hb
    obtain ⟨row, hr, hall⟩ := h b hb
    refine ⟨row, ?_, fun t ht => BlockId.mem_upTo.mp (hall t ht)⟩
    cases hs : f.successors b with
    | error e => simp [hs, Except.toOption] at hr
    | ok row' => simpa [hs, Except.toOption] using hr
  have hrows : ∀ l : List BlockId, (∀ b ∈ l, b ∈ f.blockIds) →
      ∃ rows, l.mapM f.successors = .ok rows ∧ ∀ row ∈ rows, ∀ t ∈ row, t.index < f.numBlocks := by
    intro l
    induction l with
    | nil => exact fun _ => ⟨[], rfl, by simp⟩
    | cons b l ih =>
      intro hl
      obtain ⟨row, hs, hlt⟩ := hrow b (hl b List.mem_cons_self)
      obtain ⟨rows, hm, hlts⟩ := ih fun c hc => hl c (List.mem_cons_of_mem _ hc)
      refine ⟨row :: rows, mapM_ok_iff.mpr (.cons hs (mapM_ok_iff.mp hm)), fun x hx => ?_⟩
      rcases List.mem_cons.mp hx with rfl | hx
      · exact hlt
      · exact hlts x hx
  obtain ⟨rows, hm, hlt⟩ := hrows f.blockIds fun _ hb => hb
  exact ⟨_, ofFunc_eq_ok_iff.mpr ⟨rows, hm, hlt, rfl⟩⟩

theorem targetsExist_of_ofFunc {f : Func} {g : FlowGraph} (h : ofFunc f = .ok g) :
    f.TargetsExist := by
  obtain ⟨rows, hrows, hlt, -⟩ := ofFunc_eq_ok_iff.mp h
  intro b hb
  have hall := mapM_ok_iff.mp hrows
  obtain ⟨n, hn, rfl⟩ := List.getElem_of_mem hb
  have hn' : n < rows.length := hall.length_eq ▸ hn
  have hrow : f.successors f.blockIds[n] = .ok rows[n] := hall.get hn hn'
  refine ⟨rows[n], by simp [hrow, Except.toOption], fun t ht => ?_⟩
  exact BlockId.mem_upTo.mpr (hlt _ (List.getElem_mem hn') t ht)

end FlowGraph

namespace Dominators

theorem compute_correct {g : FlowGraph} (hg : g.Valid) (h₀ : 0 < g.size) :
    ∃ rank d, Dominators.compute g = .ok d ∧ d.Correct g rank := by
  obtain ⟨rank, links, hl, hexact⟩ := Links.compute_exact hg h₀
  refine ⟨rank, ofLinks g.reversePostorder links, ?_, hexact, rfl, rfl⟩
  simp only [Dominators.compute, hl]
  rfl

/-- Without blocks there is nothing to visit. -/
theorem compute_of_size_eq_zero {g : FlowGraph} (h₀ : g.size = 0) :
    Dominators.compute g = .ok (ofLinks [] #[]) := by
  simp only [Dominators.compute, FlowGraph.reversePostorder, Links.compute, h₀]
  rfl

theorem exists_compute {g : FlowGraph} (hg : g.Valid) : ∃ d, Dominators.compute g = .ok d := by
  by_cases h₀ : 0 < g.size
  · obtain ⟨_, d, hd, -⟩ := compute_correct hg h₀
    exact ⟨d, hd⟩
  · exact ⟨_, compute_of_size_eq_zero (Nat.eq_zero_of_not_pos h₀)⟩

end Dominators

namespace Analysis

/-- The analysis of a function: its graph, and a dominator tree that is right about all paths. -/
structure Describes (a : Analysis) (f : Func) (rank : BlockId → Nat) : Prop where
  graph : a.graph.Describes f
  dom : a.dom.Correct a.graph rank

theorem ofFunc_eq_ok_iff {f : Func} {a : Analysis} :
    ofFunc f = .ok a ↔ FlowGraph.ofFunc f = .ok a.graph ∧
      Dominators.compute a.graph = .ok a.dom := by
  simp only [ofFunc]
  obtain ⟨graph, dom⟩ := a
  cases hg : FlowGraph.ofFunc f with
  | error e => simp [bind, Except.bind]
  | ok g =>
    cases hd : Dominators.compute g with
    | error e =>
      simp only [bind, Except.bind, hd, Except.ok.injEq, reduceCtorEq, false_iff, not_and]
      rintro rfl
      simp [hd]
    | ok d =>
      simp only [bind, Except.bind, hd, pure, Except.pure, Except.ok.injEq, mk.injEq]
      refine and_congr_right ?_
      rintro rfl
      simp [hd]

theorem describes {f : Func} {a : Analysis} (h : ofFunc f = .ok a) (h₀ : 0 < f.numBlocks) :
    ∃ rank, a.Describes f rank := by
  obtain ⟨hg, hd⟩ := ofFunc_eq_ok_iff.mp h
  have hdesc := FlowGraph.describes_ofFunc hg
  obtain ⟨rank, d, hd', hc⟩ := Dominators.compute_correct hdesc.valid (hdesc.size ▸ h₀)
  obtain rfl := Except.ok.inj (hd.symm.trans hd')
  exact ⟨rank, hdesc, hc⟩

theorem walks_eq_nil {f : Func} {a : Analysis} (h : ofFunc f = .ok a) (h₀ : ¬0 < f.numBlocks) :
    a.dom.rpo = [] ∧ a.dom.tour = [] := by
  obtain ⟨hg, hd⟩ := ofFunc_eq_ok_iff.mp h
  have hsize : a.graph.size = 0 := by
    rw [(FlowGraph.describes_ofFunc hg).size]
    exact Nat.eq_zero_of_not_pos h₀
  rw [Dominators.compute_of_size_eq_zero hsize] at hd
  rw [← Except.ok.inj hd]
  exact ⟨rfl, rfl⟩

/-- The analysis of a function whose branch targets exist always comes to an end. -/
theorem exists_ofFunc {f : Func} (h : f.TargetsExist) : ∃ a, ofFunc f = .ok a := by
  obtain ⟨g, hg⟩ := FlowGraph.exists_ofFunc h
  obtain ⟨d, hd⟩ := Dominators.exists_compute (FlowGraph.describes_ofFunc hg).valid
  exact ⟨⟨g, d⟩, ofFunc_eq_ok_iff.mpr ⟨hg, hd⟩⟩

namespace Describes

variable {f : Func} {a : Analysis} {rank : BlockId → Nat} (h : a.Describes f rank)
include h

theorem edge_eq : a.graph.Edge = f.Edge := funext₂ fun x y => propext (h.graph.edge_iff x y)

theorem reachable_iff {b : BlockId} : a.dom.reachable b = true ↔ Reaches f.Edge .entry b := by
  rw [h.dom.reachable_iff, h.edge_eq]

theorem dominates_iff {x y : BlockId} :
    a.dom.dominates x y = true ↔ Dominates f.Edge .entry x y := by
  rw [h.dom.dominates_iff, h.edge_eq]

/-- What dominates the meet of two blocks dominates both, and the other way round. -/
theorem dominates_meet_iff {x y c : BlockId} (hx : Reaches f.Edge .entry x)
    (hy : Reaches f.Edge .entry y) : Dominates f.Edge .entry c (a.dom.meet x y) ↔
      Dominates f.Edge .entry c x ∧ Dominates f.Edge .entry c y := by
  rw [← h.edge_eq] at hx hy ⊢
  exact h.dom.dominates_meet_iff hx hy

omit h in
/-- An analysis serves every function with the same blocks and edges. -/
theorem congr {g : Func} (h : a.Describes f rank) (hedge : g.Edge = f.Edge)
    (hsize : g.numBlocks = f.numBlocks) : a.Describes g rank where
  graph := ⟨h.graph.valid, by rw [h.graph.size, hsize], fun x y => by rw [hedge, h.graph.edge_iff]⟩
  dom := h.dom

end Describes

end Analysis

/-- **Dominance queries are about all paths.** For every function whose branch targets exist the
analysis comes to an end without a fault, and one block dominates another exactly if both are
reachable and the first stands on every path from the entry to the second. -/
theorem Analysis.dominates_iff_mem_every_path (f : Func) (h : f.TargetsExist) :
    ∃ a, Analysis.ofFunc f = .ok a ∧ ∀ x ∈ f.blockIds, ∀ y ∈ f.blockIds,
      ∃ answer, a.dom.dominates? x y = .ok answer ∧
        (answer = true ↔ Reaches f.Edge .entry y ∧ Reaches f.Edge .entry x ∧
          ∀ p, Path f.Edge .entry y p → x ∈ p) := by
  obtain ⟨a, ha⟩ := Analysis.exists_ofFunc h
  refine ⟨a, ha, fun x hx y hy => ?_⟩
  have hx' : x.index < f.numBlocks := BlockId.mem_upTo.mp hx
  have hy' : y.index < f.numBlocks := BlockId.mem_upTo.mp hy
  obtain ⟨rank, hd⟩ := Analysis.describes ha (by omega)
  have hsize : a.dom.links.size = f.numBlocks := by
    rw [hd.dom.exact.sound.size, hd.graph.size]
  have hquery : a.dom.dominates? x y = .ok (a.dom.dominates x y) := by
    simp only [Dominators.dominates?, Dominators.require, hsize, hx', hy', if_true, bind,
      Except.bind]
    cases hr : a.dom.reachable x with
    | false => simp [Dominators.dominates, hr, pure, Except.pure]
    | true => simp [pure, Except.pure]
  refine ⟨_, hquery, ?_⟩
  rw [hd.dominates_iff]
  exact ⟨fun hxy => ⟨hxy.1, hxy.reaches_left, hxy.2⟩, fun hxy => ⟨hxy.1, hxy.2.2⟩⟩

/-- Two blocks that lead to each other and are both entered from outside, a block that leads to
itself and back to the entry, and an unreachable block with two edges to one target. -/
def Func.tangled : Func where
  name := "tangled"
  returnType := .void
  params := [.i1]
  blocks := #[{ insts := [⟨0⟩] }, { insts := [⟨1⟩] }, { insts := [⟨2⟩] }, { insts := [⟨3⟩] },
    { insts := [⟨4⟩] }]
  insts := #[
    { op := .branch ⟨1⟩ ⟨2⟩, ty := .void, operands := [.arg 0], home := some ⟨0⟩ },
    { op := .jump ⟨2⟩, ty := .void, home := some ⟨1⟩ },
    { op := .branch ⟨1⟩ ⟨3⟩, ty := .void, operands := [.arg 0], home := some ⟨2⟩ },
    { op := .branch ⟨3⟩ ⟨0⟩, ty := .void, operands := [.arg 0], home := some ⟨3⟩ },
    { op := .branch ⟨3⟩ ⟨3⟩, ty := .void, operands := [.arg 0], home := some ⟨4⟩ }]

theorem Analysis.dominates_iff_mem_every_path_tangled :
    Func.tangled.TargetsExist ∧ ∃ a, Analysis.ofFunc Func.tangled = .ok a ∧
      ∀ x ∈ Func.tangled.blockIds, ∀ y ∈ Func.tangled.blockIds,
        ∃ answer, a.dom.dominates? x y = .ok answer ∧
          (answer = true ↔ Reaches Func.tangled.Edge .entry y ∧
            Reaches Func.tangled.Edge .entry x ∧ ∀ p, Path Func.tangled.Edge .entry y p → x ∈ p) :=
  ⟨by decide, dominates_iff_mem_every_path Func.tangled (by decide)⟩

end SsaOpt
