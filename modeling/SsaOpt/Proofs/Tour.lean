import SsaOpt.Proofs.Validity

/-! Passes that visit the blocks of a function with the dominators of each block before it: the
tour of the dominator tree, and the reverse postorder. A pass keeps an invariant along the whole
walk if it keeps it at every visit. The invariant may speak of the blocks that were entered so far
and of those that are still open, innermost first. -/

namespace SsaOpt

variable {σ : Type} {step : σ → Visit → Checked σ} {P : List BlockId → List BlockId → σ → Prop}

namespace Dominators

variable {g : FlowGraph} {rank : BlockId → Nat} {d : Dominators} {b c c' e : BlockId}
  {done : List BlockId}

/-- All blocks above `b` were entered, and none below it. -/
structure Unopened (links : Links) (done : List BlockId) (b : BlockId) : Prop where
  fresh : ∀ c ∈ done, ¬links.Climbs c b
  above : ∀ c, c ≠ b → links.Climbs b c → c ∈ done

/-- The blocks that visits enter, in order. -/
def entries : List Visit → List BlockId
  | [] => []
  | .enter b :: visits => b :: entries visits
  | .leave _ :: visits => entries visits

@[simp] theorem entries_append (vs ws : List Visit) :
    entries (vs ++ ws) = entries vs ++ entries ws := by
  fun_induction entries vs with
  | case1 => rfl
  | case2 b vs ih => simp [entries, ih]
  | case3 b vs ih => simp [entries, ih]

theorem mem_entries {b : BlockId} {vs : List Visit} : b ∈ entries vs ↔ .enter b ∈ vs := by
  fun_induction entries vs with
  | case1 => simp
  | case2 c vs ih => simp [ih]
  | case3 c vs ih => simp [ih]

/-- The blocks that are open after visits, innermost first, if those of `path` were open before. -/
def openAfter : List BlockId → List Visit → List BlockId
  | path, [] => path
  | path, .enter b :: visits => openAfter (b :: path) visits
  | path, .leave _ :: visits => openAfter path.tail visits

theorem openAfter_append (path : List BlockId) (vs ws : List Visit) :
    openAfter path (vs ++ ws) = openAfter (openAfter path vs) ws := by
  fun_induction openAfter path vs with
  | case1 path => rfl
  | case2 path b vs ih => exact ih
  | case3 path b vs ih => exact ih

/-- The visits keep the invariant, and enter only blocks below `b`. -/
def Toured (links : Links) (step : σ → Visit → Checked σ)
    (P : List BlockId → List BlockId → σ → Prop) (b : BlockId) (visits : List Visit)
    (done path : List BlockId) (s : σ) : Prop :=
  (∃ s', visits.foldlM step s = .ok s' ∧ P (done ++ entries visits) path s') ∧
    ∀ c ∈ entries visits, links.Climbs c b

namespace Correct

variable (h : d.Correct g rank)
include h

theorem idom?_of_mem_children (hc : c ∈ d.links.childrenOf b) : d.idom? c = some b := by
  obtain ⟨hget, hne⟩ := (Links.mem_childrenOf h.exact.sound).mp hc
  have hbc : b ≠ c := by
    rintro rfl
    exact Nat.lt_irrefl _ (h.exact.sound.falls hget hne)
  simp [idom?, hget, hbc]

/-- No block is below two children of one block. -/
theorem not_climbs_sibling (hc : c ∈ d.links.childrenOf b) (hc' : c' ∈ d.links.childrenOf b)
    (hne : c ≠ c') (he : d.links.Climbs e c) : ¬d.links.Climbs e c' := by
  have hs := h.exact.sound
  have hstrict : ∀ {c c'}, c ∈ d.links.childrenOf b → c' ∈ d.links.childrenOf b → c ≠ c' →
      ¬d.links.Climbs c c' := by
    intro c c' hc hc' hne hcc'
    obtain ⟨hget, -⟩ := (Links.mem_childrenOf hs).mp hc
    obtain ⟨hget', hentry⟩ := (Links.mem_childrenOf hs).mp hc'
    have hle := hs.rank_le (hcc'.tail hne hget)
    have hlt := hs.falls hget' hentry
    omega
  intro he'
  rcases he.total he' with hcc' | hcc'
  · exact hstrict hc hc' hne hcc'
  · exact hstrict hc' hc hne.symm hcc'

/-- The children of a block may be toured once the block was entered. -/
theorem unopened_child (hb : Unopened d.links done b) (hc : c ∈ d.links.childrenOf b) :
    Unopened d.links (done ++ [b]) c := by
  have hs := h.exact.sound
  obtain ⟨hget, hentry⟩ := (Links.mem_childrenOf hs).mp hc
  refine ⟨fun e he hec => ?_, fun e hne hce => ?_⟩
  · rcases List.mem_append.mp he with he | he
    · exact hb.fresh e he (hec.trans (.single hget))
    · obtain rfl := List.mem_singleton.mp he
      have := hs.rank_le hec
      have := hs.falls hget hentry
      omega
  · have hbe := hce.tail hne.symm hget
    by_cases heb : e = b
    · simp [heb]
    · exact List.mem_append_left _ (hb.above e heb hbe)

/-- The tours of some children of `b`, one after the other. -/
theorem toured_children (path : List BlockId) {visits : BlockId → List Visit}
    (hchild : ∀ {c done s}, c ∈ d.links.childrenOf b → Unopened d.links done c →
      P done (b :: path) s → Toured d.links step P c (visits c) done (b :: path) s) :
    ∀ (cs : List BlockId) {done s}, cs ⊆ d.links.childrenOf b → cs.Nodup →
      (∀ c ∈ cs, Unopened d.links done c) → P done (b :: path) s →
      Toured d.links step P b (cs.flatMap visits) done (b :: path) s := by
  intro cs
  induction cs with
  | nil =>
    intro done s _ _ _ hP
    exact ⟨⟨s, rfl, by simpa [entries] using hP⟩, by simp [entries]⟩
  | cons c cs ih =>
    intro done s hsub hnodup hopen hP
    obtain ⟨hc, hsub⟩ := List.cons_subset.mp hsub
    obtain ⟨hnot, hnodup⟩ := List.nodup_cons.mp hnodup
    obtain ⟨hget, -⟩ := (Links.mem_childrenOf h.exact.sound).mp hc
    obtain ⟨⟨s₁, h₁, hP₁⟩, hnew⟩ := hchild hc (hopen c List.mem_cons_self) hP
    have hopen₁ : ∀ c' ∈ cs, Unopened d.links (done ++ entries (visits c)) c' := by
      intro c' hc'
      have hc'open := hopen c' (List.mem_cons_of_mem _ hc')
      refine ⟨fun e he => ?_, fun e hne he => List.mem_append_left _ (hc'open.above e hne he)⟩
      rcases List.mem_append.mp he with he | he
      · exact hc'open.fresh e he
      · exact h.not_climbs_sibling hc (hsub hc') (fun heq => hnot (heq ▸ hc')) (hnew e he)
    obtain ⟨⟨s₂, h₂, hP₂⟩, hnew'⟩ := ih hsub hnodup hopen₁ hP₁
    refine ⟨⟨s₂, foldlM_append_ok_iff.mpr ⟨s₁, h₁, h₂⟩, ?_⟩, fun e he => ?_⟩
    · simpa using hP₂
    · rw [List.flatMap_cons, entries_append] at he
      rcases List.mem_append.mp he with he | he
      · exact (hnew e he).trans (.single hget)
      · exact hnew' e he

theorem toured_tourFrom
    (henter : ∀ {done path s b}, d.links.Linked b → Unopened d.links done b →
      path.head? = d.idom? b → P done path s →
      ∃ s', step s (.enter b) = .ok s' ∧ P (done ++ [b]) (b :: path) s')
    (hleave : ∀ {done path s b}, P done (b :: path) s →
      ∃ s', step s (.leave b) = .ok s' ∧ P done path s')
    (fuel : Nat) : ∀ {b done path s}, d.links.Linked b → g.size ≤ fuel + rank b →
      Unopened d.links done b → path.head? = d.idom? b → P done path s →
      Toured d.links step P b (tourFrom d.links.childrenOf fuel b) done path s := by
  have hs := h.exact.sound
  induction fuel with
  | zero =>
    intro b done path s hb hfuel
    have := h.exact.ranking.lt_size (hs.reaches_of_linked hb)
    omega
  | succ fuel ih =>
    intro b done path s hb hfuel hopen hpath hP
    obtain ⟨s₁, h₁, hP₁⟩ := henter hb hopen hpath hP
    have hchildren := h.toured_children path (fun {c done s} hc hcopen hP => by
        obtain ⟨hget, hentry⟩ := (Links.mem_childrenOf hs).mp hc
        have hfalls := hs.falls hget hentry
        refine ih ⟨b, hget⟩ (by omega) hcopen ?_ hP
        rw [List.head?_cons, h.idom?_of_mem_children hc])
      (d.links.childrenOf b) (List.Subset.refl _) (Links.nodup_childrenOf b)
      (fun c hc => h.unopened_child hopen hc) hP₁
    obtain ⟨⟨s₂, h₂, hP₂⟩, hnew⟩ := hchildren
    obtain ⟨s₃, h₃, hP₃⟩ := hleave hP₂
    refine ⟨⟨s₃, ?_, by simpa [tourFrom, entries] using hP₃⟩, fun c hc => ?_⟩
    · refine foldlM_cons_ok_iff.mpr ⟨s₁, h₁, foldlM_append_ok_iff.mpr ⟨s₂, h₂, ?_⟩⟩
      exact foldlM_cons_ok_iff.mpr ⟨s₃, h₃, rfl⟩
    · simp only [tourFrom, entries, entries_append, List.append_nil] at hc
      rcases List.mem_cons.mp hc with rfl | hc
      · exact .refl
      · exact hnew c hc

end Correct

end Dominators

namespace Analysis.Describes

open Dominators

/-- The open blocks are all the dominators of the innermost one, and so on outwards. -/
def Chained (f : Func) : List BlockId → Prop
  | [] => True
  | b :: path => (∀ c, c ∈ b :: path ↔ f.Dom c b) ∧ Chained f path

/-- Visits as a walk of their own, which notes what was visited. -/
def note (made : List Visit) (v : Visit) : Checked (List Visit) := .ok (made ++ [v])

theorem foldlM_note (vs made : List Visit) : vs.foldlM note made = .ok (made ++ vs) := by
  induction vs generalizing made with
  | nil => simp [pure, Except.pure]
  | cons v vs ih =>
    refine foldlM_cons_ok_iff.mpr ⟨_, rfl, ?_⟩
    rw [ih, List.append_assoc]
    rfl

/-- What is known of the next visit, once those of `front` were made. -/
def Due (f : Func) (front : List Visit) : Visit → Prop
  | .enter b => f.Reached b ∧ b ∉ entries front ∧
      (∀ c, c ≠ b → f.Dom c b → c ∈ entries front) ∧
      ∀ c, c ∈ openAfter [] front ↔ c ≠ b ∧ f.Dom c b
  | .leave b => ∃ path, openAfter [] front = b :: path

variable {f : Func} {a : Analysis} {rank : BlockId → Nat} {s : σ} {b c d : BlockId}
  {path : List BlockId} (h : a.Describes f rank)
include h

theorem reached_iff : Reaches a.graph.Edge .entry b ↔ f.Reached b := by
  rw [Func.Reached, h.edge_eq]

theorem climbs_iff (hb : f.Reached b) : a.dom.links.Climbs b c ↔ f.Dom c b := by
  rw [h.dom.climbs_iff (h.reached_iff.mpr hb), Func.Dom, h.edge_eq]

theorem level_lt (hdom : f.Dom c b) (hne : c ≠ b) : a.dom.level c < a.dom.level b :=
  h.dom.level_lt (h.reached_iff.mpr hdom.1) ((h.climbs_iff hdom.1).mpr hdom) hne.symm

theorem mem_reachablePreds : c ∈ a.reachablePreds b ↔ f.Edge c b ∧ f.Reached c := by
  rw [Analysis.reachablePreds, List.mem_filter, h.graph.valid.mem_preds, h.edge_eq,
    h.reachable_iff]
  rfl

theorem idom?_spec (hidom : a.dom.idom? b = some d) :
    f.Dom d b ∧ d ≠ b ∧ ∀ c, f.Dom c b → c ≠ b → f.Dom c d := by
  unfold Dominators.idom? at hidom
  split at hidom
  · next e hget =>
    split at hidom
    · cases hidom
    · next hne =>
      obtain rfl := Option.some.inj hidom
      have hb := h.dom.exact.sound.reaches hget
      rw [Func.Dom, ← h.edge_eq]
      refine ⟨(h.dom.climbs_iff hb).mp (.single hget), hne, fun c hdom hcb => ?_⟩
      rw [Func.Dom, ← h.edge_eq] at hdom ⊢
      exact h.dom.exact.sound.dominated hget hdom hcb
  · cases hidom

/-- Only the entry has no immediate dominator. -/
theorem eq_entry_of_idom? (hb : f.Reached b) (hidom : a.dom.idom? b = none) : b = .entry := by
  obtain ⟨e, hget⟩ := h.dom.linked_iff.mpr (h.reached_iff.mpr hb)
  unfold Dominators.idom? at hidom
  rw [hget] at hidom
  by_contra hentry
  have hlt := h.dom.exact.sound.falls hget hentry
  simp only at hidom
  split at hidom
  · next heq =>
    rw [heq] at hlt
    exact Nat.lt_irrefl _ hlt
  · cases hidom

/-- The tour has room for all blocks. -/
theorem size_le : a.graph.size ≤ a.dom.links.size + rank .entry := by
  rw [h.dom.exact.sound.size]
  exact Nat.le_add_right _ _

/-- Along the tour of the dominator tree a block is entered while its immediate dominator is the
innermost open block. -/
theorem foldlM_tour
    (henter : ∀ {done path s b}, f.Reached b → b ∉ done → (∀ c, c ≠ b → f.Dom c b → c ∈ done) →
      path.head? = a.dom.idom? b → P done path s →
      ∃ s', step s (.enter b) = .ok s' ∧ P (done ++ [b]) (b :: path) s')
    (hleave : ∀ {done path s b}, P done (b :: path) s →
      ∃ s', step s (.leave b) = .ok s' ∧ P done path s') (hs : P [] [] s) :
    ∃ s', a.dom.tour.foldlM step s = .ok s' ∧ P (entries a.dom.tour) [] s' := by
  have hentry := h.dom.exact.sound.entry
  obtain ⟨⟨s', hs', hP⟩, -⟩ := h.dom.toured_tourFrom (P := P)
    (fun {done path s b} hb hopen => by
      have hreach := h.dom.linked_iff.mp hb
      refine henter (h.reached_iff.mp hreach) (fun hmem => hopen.fresh b hmem .refl) ?_
      intro c hne hdom
      refine hopen.above c hne ?_
      rw [h.dom.climbs_iff hreach, h.edge_eq]
      exact hdom)
    hleave a.dom.links.size (b := .entry) ⟨.entry, hentry⟩ h.size_le
    ⟨by simp, fun c hne hc => absurd (h.dom.exact.sound.eq_entry_of_climbs hc) hne⟩
    (by simp [idom?, hentry]) hs
  rw [h.dom.tour_eq]
  exact ⟨s', hs', hP⟩

/-- The tour enters the reachable blocks. -/
theorem mem_entries_tour : b ∈ entries a.dom.tour ↔ f.Reached b := by
  rw [mem_entries, h.dom.mem_tour, Visit.block, h.reached_iff]

/-- A block is entered while its strict dominators are open, if those that are open are the
dominators of the innermost one, at each of them. -/
theorem mem_path_iff (hb : f.Reached b) (hpath : path.head? = a.dom.idom? b)
    (hchain : Chained f path) (c : BlockId) : c ∈ path ↔ c ≠ b ∧ f.Dom c b := by
  cases path with
  | nil =>
    obtain rfl := h.eq_entry_of_idom? hb hpath.symm
    simp only [List.not_mem_nil, false_iff, not_and]
    exact fun hne hdom => hne (hdom.antisymm (.root_dominates hdom.reaches_left))
  | cons d path =>
    obtain ⟨hdom, hne, hnearest⟩ := h.idom?_spec hpath.symm
    rw [hchain.1]
    constructor
    · intro hcd
      refine ⟨?_, hcd.trans hdom⟩
      rintro rfl
      exact hne (hdom.antisymm hcd)
    · exact fun hc => hnearest c hc.2 hc.1

/-- Along the tour of the dominator tree a block is entered while its strict dominators are the open
blocks. -/
theorem foldlM_tour_open
    (henter : ∀ {done path s b}, f.Reached b → b ∉ done → (∀ c, c ≠ b → f.Dom c b → c ∈ done) →
      path.head? = a.dom.idom? b → (∀ c, c ∈ path ↔ c ≠ b ∧ f.Dom c b) → P done path s →
      ∃ s', step s (.enter b) = .ok s' ∧ P (done ++ [b]) (b :: path) s')
    (hleave : ∀ {done path s b}, P done (b :: path) s →
      ∃ s', step s (.leave b) = .ok s' ∧ P done path s') (hs : P [] [] s) :
    ∃ s', a.dom.tour.foldlM step s = .ok s' ∧ P (entries a.dom.tour) [] s' := by
  obtain ⟨s', hs', hP, -⟩ := h.foldlM_tour
    (P := fun done path s => P done path s ∧ Chained f path)
    (fun {done path s b} hb hnew hdoms hpath hP => by
      have hopen := h.mem_path_iff hb hpath hP.2
      obtain ⟨s', hs', hP'⟩ := henter hb hnew hdoms hpath hopen hP.1
      refine ⟨s', hs', hP', fun c => ?_, hP.2⟩
      rw [List.mem_cons, hopen]
      by_cases hc : c = b
      · simp only [hc, true_or, ne_eq, not_true_eq_false, true_iff]
        exact Dominates.refl hb
      · simp [hc])
    (fun hP => by
      obtain ⟨s', hs', hP'⟩ := hleave hP.1
      exact ⟨s', hs', hP', hP.2.2⟩)
    ⟨hs, trivial⟩
  exact ⟨s', hs', hP⟩

/-- At any place of the tour of the dominator tree. -/
theorem due_of_tour_eq {front back : List Visit} {v : Visit}
    (hsplit : a.dom.tour = front ++ v :: back) : Due f front v := by
  -- along the walk that only notes its visits
  obtain ⟨made, hmade, -, -, hdue⟩ : ∃ made, a.dom.tour.foldlM note [] = .ok made ∧
      entries a.dom.tour = entries made ∧ [] = openAfter [] made ∧
      ∀ front v back, made = front ++ v :: back → Due f front v := by
    refine h.foldlM_tour_open
      (P := fun done path made => done = entries made ∧ path = openAfter [] made ∧
        ∀ front v back, made = front ++ v :: back → Due f front v) ?_ ?_ ⟨rfl, rfl, by simp⟩
    · intro done path made b hb hnew hdoms _ hopen hP
      obtain ⟨rfl, rfl, hdue⟩ := hP
      refine ⟨_, rfl, by simp [entries], by simp [openAfter_append, openAfter], ?_⟩
      intro front v back hmade
      rcases cut_of_concat_eq hmade with ⟨rfl, rfl, -⟩ | ⟨back, -, hmade⟩
      · exact ⟨hb, hnew, hdoms, hopen⟩
      · exact hdue front v back hmade
    · intro done path made b hP
      obtain ⟨rfl, hpath, hdue⟩ := hP
      refine ⟨_, rfl, by simp [entries], by simp [openAfter_append, openAfter, ← hpath], ?_⟩
      intro front v back hmade
      rcases cut_of_concat_eq hmade with ⟨rfl, rfl, -⟩ | ⟨back, -, hmade⟩
      · exact ⟨path, hpath.symm⟩
      · exact hdue front v back hmade
  rw [foldlM_note, List.nil_append] at hmade
  rw [← Except.ok.inj hmade] at hdue
  exact hdue front v back hsplit

theorem postordered : a.graph.Postordered a.dom.rpo := by
  have hpost := h.graph.valid.postordered (h.dom.exact.ranking.lt_size .refl |> Nat.zero_lt_of_lt)
  rwa [← h.dom.rpo] at hpost

/-- The reverse postorder holds the reachable blocks. -/
theorem mem_rpo : b ∈ a.dom.rpo ↔ f.Reached b :=
  (h.postordered.mem_iff b).trans h.reached_iff

/-- In reverse postorder every block is left as soon as it was entered. -/
theorem foldlM_rpo
    (henter : ∀ {done s b}, f.Reached b → b ∉ done → (∀ c, c ≠ b → f.Dom c b → c ∈ done) →
      P done [] s → ∃ s', step s (.enter b) = .ok s' ∧ P (done ++ [b]) [b] s')
    (hleave : ∀ {done s b}, P done [b] s → ∃ s', step s (.leave b) = .ok s' ∧ P done [] s')
    (hs : P [] [] s) :
    ∃ s', (a.dom.rpo.flatMap fun b => [.enter b, .leave b]).foldlM step s = .ok s' ∧
      P a.dom.rpo [] s' := by
  have hpost := h.postordered
  suffices hall : ∀ (back done : List BlockId) {s}, a.dom.rpo = done ++ back → P done [] s →
      ∃ s', (back.flatMap fun b => [Visit.enter b, .leave b]).foldlM step s = .ok s' ∧
        P a.dom.rpo [] s' from
    hall a.dom.rpo [] rfl hs
  intro back
  induction back with
  | nil =>
    intro done s hsplit hP
    exact ⟨s, rfl, by rwa [hsplit, List.append_nil]⟩
  | cons b back ih =>
    intro done s hsplit hP
    have hb : Reaches a.graph.Edge .entry b := (hpost.mem_iff b).mp (by simp [hsplit])
    have hnew : b ∉ done := by
      have hnodup := hpost.nodup
      rw [hsplit] at hnodup
      exact fun hmem => List.disjoint_of_nodup_append hnodup hmem List.mem_cons_self
    have hdoms : ∀ c, c ≠ b → f.Dom c b → c ∈ done := by
      intro c hne hdom
      rw [Func.Dom, ← h.edge_eq] at hdom
      have hlt := hpost.idxOf_lt_of_dominates hdom hne
      by_contra hc
      rw [hsplit, List.idxOf_append_of_notMem hc, List.idxOf_append_of_notMem hnew,
        List.idxOf_cons_self] at hlt
      omega
    obtain ⟨s₁, h₁, hP₁⟩ := henter (h.reached_iff.mp hb) hnew hdoms hP
    obtain ⟨s₂, h₂, hP₂⟩ := hleave hP₁
    obtain ⟨s₃, h₃, hP₃⟩ := ih (done ++ [b]) (by simp [hsplit]) hP₂
    exact ⟨s₃, foldlM_cons_ok_iff.mpr ⟨s₁, h₁, foldlM_cons_ok_iff.mpr ⟨s₂, h₂, h₃⟩⟩, hP₃⟩

end Analysis.Describes

end SsaOpt
