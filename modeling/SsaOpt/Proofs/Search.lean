import Mathlib.Data.List.Perm.Subperm
import Mathlib.Data.List.TakeWhile
import SsaOpt.Proofs.Tour
import SsaOpt.FlowGraph

/-! A worklist search is sound: what it finds is led to from the start. It is complete: what it
finds leads nowhere but to the barrier and to what it finds. The bound suffices because each step
finds a node that was not found before. So a search against the edges of a function finds exactly
the blocks from which control gets to the start past the barrier. -/

namespace SsaOpt

theorem exists_split_of_dropWhile {α : Type} {p : α → Bool} {l rest : List α} {x : α}
    (h : l.dropWhile p = x :: rest) :
    ∃ skipped, l = skipped ++ x :: rest ∧ (∀ y ∈ skipped, p y) ∧ ¬p x := by
  refine ⟨l.takeWhile p, ?_, fun y hy => List.mem_takeWhile_imp hy, ?_⟩
  · rw [← h, List.takeWhile_append_dropWhile]
  · have hhead := List.head_dropWhile_not p (l := l) (by simp [h])
    simpa [h] using hhead

namespace Search

variable {α : Type} {next : α → List α} {barrier start nodes : List α}

/-- The search is among `nodes`, and has fuel for all that it has not found yet. -/
structure Room (nodes : List α) (fuel : Nat) (found work : List α) : Prop where
  nodup : found.Nodup
  found_sub : found ⊆ nodes
  work_sub : work ⊆ nodes
  enough : nodes.length ≤ found.length + fuel

theorem room_start {bound : Nat} (hstart : start ⊆ nodes) (hbound : nodes.length ≤ bound) :
    Room nodes bound [] start :=
  ⟨.nil, List.nil_subset _, hstart, by simpa using hbound⟩

theorem Room.step {fuel : Nat} {found skipped rest : List α} {x : α}
    (h : Room nodes (fuel + 1) found (skipped ++ x :: rest))
    (hnext : ∀ x ∈ nodes, next x ⊆ nodes) (hx : x ∉ found) :
    Room nodes fuel (x :: found) (next x ++ rest) := by
  have hnode : x ∈ nodes := h.work_sub (by simp)
  have hrest : rest ⊆ nodes := fun y hy => h.work_sub (by simp [hy])
  have hfuel := h.enough
  refine ⟨List.nodup_cons.mpr ⟨hx, h.nodup⟩, List.cons_subset.mpr ⟨hnode, h.found_sub⟩,
    List.append_subset.mpr ⟨hnext x hnode, hrest⟩, ?_⟩
  simp only [List.length_cons]
  omega

/-- Without fuel everything has been found. -/
theorem Room.mem_found {found work : List α} (h : Room nodes 0 found work) :
    ∀ x ∈ work, x ∈ found := by
  have hperm := (h.nodup.subperm h.found_sub).perm_of_length_le h.enough
  exact fun x hx => hperm.mem_iff.mpr (h.work_sub hx)

variable [DecidableEq α]

/-- What holds of the start and of all that comes next, up to the barrier, holds of everything that
the search finds. -/
theorem forall_mem_grow {P : α → Prop} (hnext : ∀ x, P x → ∀ y ∈ next x, y ∉ barrier → P y)
    (fuel : Nat) : ∀ {found work : List α}, (∀ x ∈ found, P x) →
      (∀ x ∈ work, x ∉ barrier → P x) → ∀ x ∈ grow next barrier fuel found work, P x := by
  induction fuel with
  | zero => exact fun hfound _ => hfound
  | succ fuel ih =>
    intro found work hfound hwork
    rw [grow]
    cases hdrop : work.dropWhile fun x => x ∈ barrier || x ∈ found with
    | nil => exact hfound
    | cons x rest =>
      obtain ⟨skipped, rfl, -, hx⟩ := exists_split_of_dropWhile hdrop
      simp only [Bool.or_eq_true, decide_eq_true_eq, not_or] at hx
      have hPx := hwork x (by simp) hx.1
      refine ih (List.forall_mem_cons.mpr ⟨hPx, hfound⟩) fun y hy => ?_
      rcases List.mem_append.mp hy with hy | hy
      · exact hnext x hPx y hy
      · exact hwork y (by simp [hy])

theorem forall_mem_reach {P : α → Prop} {bound : Nat}
    (hnext : ∀ x, P x → ∀ y ∈ next x, y ∉ barrier → P y) (hstart : ∀ x ∈ start, x ∉ barrier → P x) :
    ∀ x ∈ reach next barrier bound start, P x :=
  forall_mem_grow hnext bound (by simp) hstart

/-- `found` has all of `start`, and all that comes next, up to the barrier. -/
structure Covers (next : α → List α) (barrier start found : List α) : Prop where
  start : ∀ x ∈ start, x ∈ barrier ∨ x ∈ found
  next : ∀ x ∈ found, ∀ y ∈ next x, y ∈ barrier ∨ y ∈ found

theorem covers_grow (hnext : ∀ x ∈ nodes, next x ⊆ nodes) (fuel : Nat) : ∀ {found work : List α},
    Room nodes fuel found work → (∀ x ∈ found, ∀ y ∈ next x, y ∈ barrier ∨ y ∈ found ++ work) →
    Covers next barrier (found ++ work) (grow next barrier fuel found work) := by
  induction fuel with
  | zero =>
    intro found work hroom hclosed
    have hall : ∀ x ∈ found ++ work, x ∈ found := by
      intro x hx
      rcases List.mem_append.mp hx with hx | hx
      · exact hx
      · exact hroom.mem_found x hx
    exact ⟨fun x hx => .inr (hall x hx), fun x hx y hy => (hclosed x hx y hy).imp_right (hall y)⟩
  | succ fuel ih =>
    intro found work hroom hclosed
    rw [grow]
    cases hdrop : work.dropWhile fun x => x ∈ barrier || x ∈ found with
    | nil =>
      have hall : ∀ x ∈ found ++ work, x ∈ barrier ∨ x ∈ found := by
        intro x hx
        rcases List.mem_append.mp hx with hx | hx
        · exact .inr hx
        · simpa using List.dropWhile_eq_nil_iff.mp hdrop x hx
      refine ⟨hall, fun x hx y hy => ?_⟩
      rcases hclosed x hx y hy with hy | hy
      · exact .inl hy
      · exact hall y hy
    | cons x rest =>
      obtain ⟨skipped, rfl, hskip, hx⟩ := exists_split_of_dropWhile hdrop
      simp only [Bool.or_eq_true, decide_eq_true_eq, not_or] at hskip hx
      have hmem : ∀ y ∈ found ++ (skipped ++ x :: rest),
          y ∈ barrier ∨ y ∈ x :: found ++ (next x ++ rest) := by
        intro y hy
        simp only [List.mem_append, List.mem_cons] at hy ⊢
        rcases hy with hy | hy | hy | hy
        · exact .inr (.inl (.inr hy))
        · exact (hskip y hy).imp_right fun hy => .inl (.inr hy)
        · exact .inr (.inl (.inl hy))
        · exact .inr (.inr (.inr hy))
      have hcov := ih (hroom.step hnext hx.2) (fun z hz y hy => by
        rcases List.mem_cons.mp hz with rfl | hz
        · exact .inr (by simp [hy])
        · exact (hclosed z hz y hy).elim .inl (hmem y))
      exact ⟨fun y hy => (hmem y hy).elim .inl (hcov.start y), hcov.next⟩

/-- A search that has fuel for all nodes ends by itself: with more fuel it finds the same. -/
theorem grow_eq_of_le (hnext : ∀ x ∈ nodes, next x ⊆ nodes) (fuel : Nat) :
    ∀ {more : Nat} {found work : List α}, Room nodes fuel found work → fuel ≤ more →
      grow next barrier more found work = grow next barrier fuel found work := by
  induction fuel with
  | zero =>
    intro more found work hroom _
    cases more with
    | zero => rfl
    | succ more =>
      have hdrop : (work.dropWhile fun x => x ∈ barrier || x ∈ found) = [] :=
        List.dropWhile_eq_nil_iff.mpr fun x hx => by simp [hroom.mem_found x hx]
      simp only [grow, hdrop]
  | succ fuel ih =>
    intro more found work hroom hle
    obtain ⟨more, rfl⟩ := Nat.exists_eq_succ_of_ne_zero (Nat.ne_of_gt (Nat.zero_lt_of_lt hle))
    rw [grow, grow]
    cases hdrop : work.dropWhile fun x => x ∈ barrier || x ∈ found with
    | nil => rfl
    | cons x rest =>
      obtain ⟨skipped, rfl, -, hx⟩ := exists_split_of_dropWhile hdrop
      simp only [Bool.or_eq_true, decide_eq_true_eq, not_or] at hx
      exact ih (hroom.step hnext hx.2) (Nat.le_of_succ_le_succ hle)

theorem covers_reach {bound : Nat} (hnext : ∀ x ∈ nodes, next x ⊆ nodes) (hstart : start ⊆ nodes)
    (hbound : nodes.length ≤ bound) : Covers next barrier start (reach next barrier bound start) :=
  covers_grow hnext bound (room_start hstart hbound) (by simp)

theorem reach_eq_of_le {bound more : Nat} (hnext : ∀ x ∈ nodes, next x ⊆ nodes)
    (hstart : start ⊆ nodes) (hbound : nodes.length ≤ bound) (hmore : bound ≤ more) :
    reach next barrier more start = reach next barrier bound start :=
  grow_eq_of_le hnext bound (room_start hstart hbound) hmore

end Search

namespace Analysis.Describes

variable {f : Func} {a : Analysis} {rank : BlockId → Nat} {b d : BlockId} {start : List BlockId}
  (h : a.Describes f rank)
include h

theorem reachablePreds_subset (b : BlockId) :
    a.reachablePreds b ⊆ BlockId.upTo a.graph.size := by
  intro c hc
  obtain ⟨hedge, -⟩ := h.mem_reachablePreds.mp hc
  rw [← h.edge_eq] at hedge
  exact BlockId.mem_upTo.mpr hedge.source_lt

theorem subset_upTo (hstart : ∀ t ∈ start, f.Reached t) :
    start ⊆ BlockId.upTo a.graph.size := by
  intro t ht
  have hsize : 0 < a.graph.size := Nat.zero_lt_of_lt (h.dom.exact.ranking.lt_size .refl)
  exact BlockId.mem_upTo.mpr (h.graph.valid.lt_of_reaches hsize (h.reached_iff.mpr (hstart t ht)))

/-- A search against the edges has room for all blocks, so it ends by itself. -/
theorem reach_eq_of_le {more : Nat} (hstart : ∀ t ∈ start, f.Reached t)
    (hmore : a.graph.size ≤ more) : Search.reach a.reachablePreds [d] more start =
      Search.reach a.reachablePreds [d] a.graph.size start :=
  Search.reach_eq_of_le (fun c _ => h.reachablePreds_subset c) (h.subset_upTo hstart)
    (Nat.le_of_eq (BlockId.length_upTo _)) hmore

/-- A search against the edges that does not enter `d` finds the reachable blocks from which a path
leads to the start and avoids `d`. -/
theorem mem_reach_iff (hstart : ∀ t ∈ start, f.Reached t) :
    b ∈ Search.reach a.reachablePreds [d] a.graph.size start ↔
      f.Reached b ∧ ∃ t ∈ start, ∃ p, Path f.Edge b t p ∧ d ∉ p := by
  constructor
  · refine Search.forall_mem_reach (P := fun b => f.Reached b ∧
      ∃ t ∈ start, ∃ p, Path f.Edge b t p ∧ d ∉ p) (fun b hb c hc hcd => ?_)
      (fun t ht htd => ?_) b
    · obtain ⟨-, t, ht, p, hp, hdp⟩ := hb
      obtain ⟨hedge, hreached⟩ := h.mem_reachablePreds.mp hc
      obtain ⟨q, rfl⟩ := hp.exists_eq_cons
      refine ⟨hreached, t, ht, _, (Path.start.step hedge).append hp, ?_⟩
      exact List.not_mem_cons_of_ne_of_not_mem (Ne.symm (by simpa using hcd)) hdp
    · exact ⟨hstart t ht, t, ht, [t], .start, by simpa [eq_comm] using htd⟩
  · rintro ⟨⟨q, hq⟩, t, ht, p, hp, hdp⟩
    have hcov : Search.Covers a.reachablePreds [d] start
        (Search.reach a.reachablePreds [d] a.graph.size start) :=
      Search.covers_reach (fun c _ => h.reachablePreds_subset c) (h.subset_upTo hstart)
        (Nat.le_of_eq (BlockId.length_upTo _))
    have hoff : ∀ {c} {p : List BlockId}, c ∈ p → d ∉ p → c ∉ [d] := fun hc hd hcd =>
      hd (List.mem_singleton.mp hcd ▸ hc)
    -- from the target back: what is found has its predecessors found
    suffices hback : ∀ {t p}, Path f.Edge b t p → d ∉ p →
        t ∈ Search.reach a.reachablePreds [d] a.graph.size start →
        b ∈ Search.reach a.reachablePreds [d] a.graph.size start from
      hback hp hdp ((hcov.start t ht).resolve_left (hoff hp.last_mem hdp))
    intro t p hp
    induction hp with
    | start => exact fun _ hfound => hfound
    | @step v w p hp hedge ih =>
      intro hdp hfound
      have hdp' : d ∉ p := fun hd => hdp (List.mem_append_left _ hd)
      obtain ⟨s, rfl⟩ := hp.exists_eq_cons
      have hpred := h.mem_reachablePreds.mpr ⟨hedge, (hq.append hp).reaches⟩
      exact ih hdp' ((hcov.next w hfound v hpred).resolve_left (hoff hp.last_mem hdp'))

end Analysis.Describes

end SsaOpt
