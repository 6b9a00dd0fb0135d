import SsaOpt.Proofs.Equations

/-! Functions that agree off one instruction: their blocks list the same other instructions in the
same order, and end in the same terminators. Control flow and availability are then the same. -/

namespace SsaOpt

/-- Two lists that differ in `x` only have the same entries around any other one. -/
theorem exists_split_of_filter_eq {α : Type} [DecidableEq α] {x i : α} {l l' pre post : List α}
    (h : l'.filter (· ≠ x) = l.filter (· ≠ x)) (hi : i ≠ x) (hl : l' = pre ++ i :: post) :
    ∃ pre₀ post₀, l = pre₀ ++ i :: post₀ ∧ pre₀.filter (· ≠ x) = pre.filter (· ≠ x) := by
  rw [hl, List.filter_append, List.filter_cons_of_pos (by simpa using hi)] at h
  obtain ⟨l₁, l₂, rfl, h₁, h₂⟩ := List.filter_eq_append_iff.mp h.symm
  obtain ⟨l₃, l₄, rfl, h₃, -, -⟩ := List.filter_eq_cons_iff.mp h₂
  refine ⟨l₁ ++ l₃, l₄, by simp, ?_⟩
  rw [List.filter_append, h₁, List.filter_eq_nil_iff.mpr h₃, List.append_nil]

/-- Taking `x` out of a list keeps its last entry, if that is not `x`. -/
theorem getLast?_filter_ne {α : Type} [DecidableEq α] {x : α} {l : List α}
    (h : l.getLast? ≠ some x) : (l.filter (· ≠ x)).getLast? = l.getLast? := by
  rcases List.eq_nil_or_concat l with hnil | ⟨init, t, hl⟩
  · simp [hnil]
  · rw [List.concat_eq_append] at hl
    have ht : t ≠ x := by
      intro ht
      exact h (by simp [hl, ht])
    rw [hl, List.filter_append, List.filter_cons_of_pos (by simpa using ht)]
    simp

/-- In a list without repetition only the last entry has nothing after it. -/
theorem getLast?_eq_some_iff_of_nodup {α : Type} {pre post : List α} {a : α}
    (h : (pre ++ a :: post).Nodup) : (pre ++ a :: post).getLast? = some a ↔ post = [] := by
  constructor
  · intro hlast
    rcases List.eq_nil_or_concat post with hnil | ⟨r, c, hpost⟩
    · exact hnil
    · have hsplit : pre ++ a :: post = (pre ++ a :: r) ++ [c] := by simp [hpost]
      rw [hsplit] at h
      rw [hsplit, List.getLast?_concat] at hlast
      obtain rfl := Option.some.inj hlast
      exact absurd List.mem_cons_self
        (List.disjoint_of_nodup_append h (List.mem_append_right _ List.mem_cons_self))
  · intro hpost
    simp [hpost]

namespace Func

variable {f g : Func} {x i d : InstId} {b : BlockId} {pre post : List InstId}

/-- The two functions agree on everything but `x` and the operands of instructions. -/
structure AgreeOff (f g : Func) (x : InstId) : Prop where
  size : g.numBlocks = f.numBlocks
  op : ∀ i, g.op? i = f.op? i
  lists : ∀ b, (g.listOf b).filter (· ≠ x) = (f.listOf b).filter (· ≠ x)
  last : ∀ b, (g.listOf b).getLast? = (f.listOf b).getLast?

namespace AgreeOff

variable (h : AgreeOff f g x)
include h

theorem isPhi_eq (i : InstId) : g.isPhi i = f.isPhi i := by
  rw [Func.isPhi_eq, Func.isPhi_eq, h.op]

theorem ends_eq (i : InstId) : g.ends i = f.ends i := by
  rw [ends, ends, h.op]

theorem mem_list_iff (hi : i ≠ x) : i ∈ g.listOf b ↔ i ∈ f.listOf b := by
  have := congrArg (i ∈ ·) (h.lists b)
  simpa [hi] using this

theorem edge_eq : g.Edge = f.Edge := by
  funext a b
  simp only [edge_iff, h.last, h.op]

theorem dom_eq : g.Dom = f.Dom := by
  funext a b
  rw [Dom, Dom, h.edge_eq]

theorem reached_eq : g.Reached = f.Reached := by
  funext b
  rw [Reached, Reached, h.edge_eq]

/-- Where `d` is available in one function it is available in the other. -/
theorem avail {pre' : List InstId} (hpre : pre.filter (· ≠ x) = pre'.filter (· ≠ x)) (hd : d ≠ x)
    (havail : f.Avail b pre d) : g.Avail b pre' d := by
  rcases havail with hd' | ⟨home, hhome, hne, hdom⟩
  · have hmem : d ∈ pre'.filter (· ≠ x) := by
      rw [← hpre]
      simpa [hd] using hd'
    exact .inl (List.mem_filter.mp hmem).1
  · exact .inr ⟨home, (h.mem_list_iff hd).mpr hhome, hne, h.dom_eq ▸ hdom⟩

theorem target_lt (hf : f.Housed) {a : BlockId} (hedge : g.Edge a b) : b.index < g.numBlocks := by
  rw [h.edge_eq] at hedge
  rw [h.size]
  exact hf.target_lt hedge

theorem list_ne_nil (hf : f.Housed) (hb : b.index < g.numBlocks) : g.listOf b ≠ [] := by
  intro hnil
  have hlast := h.last b
  rw [hnil, List.getLast?_nil, eq_comm, List.getLast?_eq_none_iff] at hlast
  exact hf.list_ne_nil (h.size ▸ hb) hlast

/-- Another instruction ends its block in one function if it does in the other. -/
theorem ends_iff (hf : f.Housed) (hg : g.Consistent) (hi : i ≠ x)
    (hb : g.listOf b = pre ++ i :: post) : g.ends i = true ↔ post = [] := by
  obtain ⟨pre₀, post₀, hb₀, -⟩ := exists_split_of_filter_eq (h.lists b) hi hb
  rw [h.ends_eq, hf.ends_iff hb₀,
    ← getLast?_eq_some_iff_of_nodup (hb₀ ▸ hf.consistent.list_nodup b), ← hb₀, ← h.last b, hb,
    getLast?_eq_some_iff_of_nodup (hb ▸ hg.list_nodup b)]

/-- Before a phi there are only phis, `x` apart. -/
theorem phis_first (hf : f.Valid) {j : InstId} (hi : i ≠ x) (hb : g.listOf b = pre ++ i :: post)
    (hphi : g.isPhi i) (hj : j ≠ x) (hpre : j ∈ pre) : g.isPhi j := by
  rw [h.isPhi_eq] at hphi ⊢
  obtain ⟨pre₀, post₀, hb₀, hpre₀⟩ := exists_split_of_filter_eq (h.lists b) hi hb
  have hmem : j ∈ pre₀.filter (· ≠ x) := by
    rw [hpre₀]
    simpa [hj] using hpre
  exact hf.phis_first hb₀ hphi j (List.mem_filter.mp hmem).1

theorem successors_eq (hf : f.Housed) : g.successors = f.successors := by
  funext b
  by_cases hb : b.index < f.numBlocks
  · obtain ⟨init, t, hlast⟩ := (List.eq_nil_or_concat _).resolve_left (hf.list_ne_nil hb)
    have hlast : (f.listOf b).getLast? = some t := by simp [hlast]
    obtain ⟨z, hz⟩ := hf.consistent.bare?_of_mem (List.mem_of_getLast? hlast)
    have hop : f.op? t = some z.op := by simp [op?, hz]
    rw [successors_of_last hlast hop,
      successors_of_last ((h.last b).trans hlast) ((h.op t).trans hop)]
  · rw [successors_eq_error hb, successors_eq_error (h.size ▸ hb)]

/-- The analysis of one function is the analysis of the other. -/
theorem analysis {a : Analysis} (hf : f.Housed) (ha : Analysis.ofFunc f = .ok a) :
    Analysis.ofFunc g = .ok a := by
  obtain ⟨hgraph, hdom⟩ := Analysis.ofFunc_eq_ok_iff.mp ha
  obtain ⟨rows, hrows, hlt, heq⟩ := FlowGraph.ofFunc_eq_ok_iff.mp hgraph
  have hids : g.blockIds = f.blockIds := congrArg BlockId.upTo h.size
  have hrows' : g.blockIds.mapM g.successors = .ok rows := by
    rw [hids, h.successors_eq hf, hrows]
  exact Analysis.ofFunc_eq_ok_iff.mpr
    ⟨FlowGraph.ofFunc_eq_ok_iff.mpr ⟨rows, hrows', h.size ▸ hlt, heq⟩, hdom⟩

end AgreeOff

/-- The terminators are the same if `x` is none and does not come to stand at an end. -/
theorem getLast?_eq_of_filter_eq (hf : f.Housed) (hx : ¬f.ends x)
    (hlists : (g.listOf b).filter (· ≠ x) = (f.listOf b).filter (· ≠ x))
    (hlast : (g.listOf b).getLast? ≠ some x) : (g.listOf b).getLast? = (f.listOf b).getLast? := by
  have hlast' : (f.listOf b).getLast? ≠ some x := by
    intro hl
    obtain ⟨init, hinit⟩ := List.getLast?_eq_some_iff.mp hl
    exact hx ((hf.ends_iff hinit).mpr rfl)
  rw [← getLast?_filter_ne hlast, ← getLast?_filter_ne hlast', hlists]

end Func

end SsaOpt
