import Mathlib.Data.Set.Card
import SsaOpt.Analysis
import SsaOpt.Proofs.Search

/-! Natural loops, in terms of paths.

The loop of a header is made of the header and of the blocks from which control gets back to it
without passing through it. The search of each back edge finds these blocks, and loops of one header
are merged, so the loop depth of a block counts the headers whose loops contain it. Of two loops
that share a block one lies in the other: the header of the outer loop strictly dominates that of
the inner one, so no way around the inner loop and down to the shared block passes through it. -/

namespace SsaOpt

/-- An element at the end of a list is a duplicate if it stands in the list before. -/
theorem eraseDups_concat {α : Type} [DecidableEq α] (l : List α) (x : α) :
    (l ++ [x]).eraseDups = if x ∈ l then l.eraseDups else l.eraseDups ++ [x] := by
  rw [List.eraseDups_append]
  by_cases hx : x ∈ l <;> simp [List.removeAll, List.eraseDups_cons, hx]

namespace Func

variable {f : Func} {h k t b c : BlockId}

/-- An edge from a reachable block to a block that dominates it. -/
structure BackEdge (f : Func) (t h : BlockId) : Prop where
  reached : f.Reached t
  edge : f.Edge t h
  dom : f.Dom h t

/-- The loop of the header `h` contains `b`: control gets from `b` to the source of a back edge to
`h` and does not come to `h` on the way, or `b` is `h`. -/
def InLoop (f : Func) (h b : BlockId) : Prop :=
  ∃ t, f.BackEdge t h ∧ (b = h ∨ f.Reached b ∧ ∃ p, Path f.Edge b t p ∧ h ∉ p)

theorem BackEdge.numBlocks_pos (ht : f.BackEdge t h) : 0 < f.numBlocks :=
  Nat.zero_lt_of_lt ht.edge.source_lt

theorem BackEdge.inLoop (ht : f.BackEdge t h) : f.InLoop h h := ⟨t, ht, .inl rfl⟩

theorem InLoop.dom (hb : f.InLoop h b) : f.Dom h b := by
  obtain ⟨t, ht, rfl | ⟨hreached, p, hp, hhp⟩⟩ := hb
  · exact .refl ht.dom.reaches_left
  · obtain ⟨s, rfl⟩ := hp.exists_eq_cons
    exact ht.dom.of_path hreached hp fun hh => hhp (List.mem_cons_of_mem _ hh)

/-- From each of its blocks a loop leads to its header. -/
theorem InLoop.exists_path (hb : f.InLoop h b) :
    ∃ p, Path f.Edge b h p ∧ ∀ c ∈ p, f.InLoop h c := by
  obtain ⟨t, ht, rfl | ⟨⟨q, hq⟩, p, hp, hhp⟩⟩ := hb
  · exact ⟨_, .start, by simpa using ht.inLoop⟩
  · refine ⟨p ++ [h], hp.step ht.edge, fun c hc => ?_⟩
    rcases List.mem_append.mp hc with hc | hc
    · obtain ⟨s, rfl⟩ := hp.exists_eq_cons
      obtain ⟨x, y, hsplit⟩ := List.append_of_mem hc
      obtain ⟨hto, hfrom⟩ := hp.split hsplit
      rw [hsplit, List.mem_append, not_or] at hhp
      obtain ⟨s', hs'⟩ := hto.exists_eq_cons
      rw [hs'] at hto
      exact ⟨t, ht, .inr ⟨(hq.append hto).reaches, _, hfrom, hhp.2⟩⟩
    · exact List.mem_singleton.mp hc ▸ ht.inLoop

/-- If two loops share a block, the one with the dominating header contains the other. -/
theorem InLoop.of_dom (hb : f.InLoop h b) (hb' : f.InLoop k b) (hdom : f.Dom h k) (hne : h ≠ k)
    (hc : f.InLoop k c) : f.InLoop h c := by
  have hstrict : ¬f.Dom k h := fun hkh => hne (hdom.antisymm hkh)
  obtain ⟨t, ht, rfl | ⟨-, p, hp, hhp⟩⟩ := hb
  · exact absurd hb'.dom hstrict
  · -- around the inner loop to `k`, down to `b`, and on to the end of the outer loop
    obtain ⟨q, hq, hqk⟩ := hc.exists_path
    obtain ⟨r, hr, hkr⟩ := hb'.dom.exists_path
    obtain ⟨s, rfl⟩ := hp.exists_eq_cons
    have hhq : h ∉ q := fun hh => hstrict (hqk h hh).dom
    have hhr : h ∉ r := hdom.not_mem_of_path hne hb'.dom hr hkr
    have hhs : h ∉ s := fun hh => hhp (List.mem_cons_of_mem _ hh)
    refine ⟨t, ht, .inr ⟨hc.dom.1, q ++ r ++ s, (hq.append hr).append hp, ?_⟩⟩
    simp [hhq, hhr, hhs]

end Func

namespace NaturalLoop

/-! ## Merging by header -/

variable {l m : NaturalLoop} {ls ms : List NaturalLoop} {b : BlockId}

theorem map_header_insertMerged (l : NaturalLoop) (ms : List NaturalLoop) :
    (insertMerged l ms).map header =
      if l.header ∈ ms.map header then ms.map header else ms.map header ++ [l.header] := by
  fun_induction insertMerged l ms with
  | case1 => simp
  | case2 m rest heq => simp [heq]
  | case3 m rest hne ih =>
    have hne' : l.header ≠ m.header := fun heq => hne heq.symm
    simp only [List.map_cons, ih, List.mem_cons, hne', false_or]
    split <;> rfl

/-- A loop is new, or it is one that was there before, with the body of `l` if it has its header. -/
theorem mem_insertMerged (hnodup : (ms.map header).Nodup) (hm : m ∈ insertMerged l ms) :
    (m = l ∧ l.header ∉ ms.map header) ∨ ∃ m' ∈ ms, m'.header = m.header ∧
      ∀ b, b ∈ m.body ↔ b ∈ m'.body ∨ l.header = m.header ∧ b ∈ l.body := by
  fun_induction insertMerged l ms with
  | case1 => exact .inl ⟨List.mem_singleton.mp hm, by simp⟩
  | case2 m' rest heq =>
    refine .inr ?_
    rcases List.mem_cons.mp hm with rfl | hm
    · refine ⟨m', List.mem_cons_self, rfl, fun b => ?_⟩
      by_cases hb : b ∈ m'.body <;> simp [hb, heq]
    · have hne : l.header ≠ m.header := fun h =>
        (List.nodup_cons.mp hnodup).1 (heq ▸ h ▸ List.mem_map_of_mem hm)
      exact ⟨m, List.mem_cons_of_mem _ hm, rfl, by simp [hne]⟩
  | case3 m' rest hne ih =>
    rcases List.mem_cons.mp hm with rfl | hm
    · have hne' : l.header ≠ m.header := fun heq => hne heq.symm
      exact .inr ⟨m, List.mem_cons_self, rfl, by simp [hne']⟩
    · rcases ih (List.nodup_cons.mp hnodup).2 hm with ⟨rfl, hnew⟩ | ⟨m'', hm'', hrest⟩
      · exact .inl ⟨rfl, List.not_mem_cons_of_ne_of_not_mem (fun heq => hne heq.symm) hnew⟩
      · exact .inr ⟨m'', List.mem_cons_of_mem _ hm'', hrest⟩

/-- One loop for each header of `ls`, by first appearance, with all blocks of its loops. -/
structure Merged (ls ms : List NaturalLoop) : Prop where
  headers : ms.map header = (ls.map header).eraseDups
  nodup : (ms.map header).Nodup
  body : ∀ m ∈ ms, ∀ b, b ∈ m.body ↔ ∃ l ∈ ls, l.header = m.header ∧ b ∈ l.body

theorem Merged.mem_headers (h : Merged ls ms) : b ∈ ms.map header ↔ b ∈ ls.map header := by
  rw [h.headers, List.mem_eraseDups]

theorem Merged.insert (h : Merged ls ms) (l : NaturalLoop) :
    Merged (ls ++ [l]) (insertMerged l ms) where
  headers := by
    simp only [map_header_insertMerged, List.map_append, List.map_singleton, eraseDups_concat,
      h.headers, List.mem_eraseDups]
  nodup := by
    rw [map_header_insertMerged]
    split
    · exact h.nodup
    · next hnew =>
      exact List.nodup_append'.mpr ⟨h.nodup, List.nodup_singleton _, by simpa using hnew⟩
  body := by
    intro m hm b
    simp only [List.mem_append, List.mem_singleton, or_and_right, exists_or, exists_eq_left]
    rcases mem_insertMerged h.nodup hm with ⟨rfl, hnew⟩ | ⟨m', hm', hheader, hbody⟩
    · have hnone : ¬∃ l' ∈ ls, l'.header = m.header ∧ b ∈ l'.body := by
        rintro ⟨l', hl', heq, -⟩
        exact hnew (h.mem_headers.mpr (heq ▸ List.mem_map_of_mem hl'))
      simp [hnone]
    · rw [hbody, h.body m' hm', hheader]

theorem merged_mergeByHeader (ls : List NaturalLoop) : Merged ls (mergeByHeader ls) := by
  suffices h : ∀ (back front : List NaturalLoop) {ms}, Merged front ms →
      Merged (front ++ back) (back.foldl (fun merged l => insertMerged l merged) ms) from
    h ls [] ⟨rfl, .nil, by simp⟩
  intro back
  induction back with
  | nil => exact fun front ms h => by simpa using h
  | cons l back ih =>
    intro front ms h
    have hback := ih (front ++ [l]) (h.insert l)
    rwa [List.append_assoc] at hback

/-! ## The loops of a function -/

variable {f : Func} {a : Analysis} {rank : BlockId → Nat} {t x : BlockId}

section

variable (hd : a.Describes f rank)
include hd

theorem mem_backEdges : (t, x) ∈ backEdges a ↔ f.BackEdge t x := by
  have hedge : x ∈ a.graph.succs t ↔ f.Edge t x := hd.graph.edge_iff t x
  simp only [backEdges, List.mem_flatMap, List.mem_map, List.mem_filter, Prod.mk.injEq,
    hd.mem_rpo, hd.dominates_iff]
  constructor
  · rintro ⟨_, ht, _, ⟨hx, hdom⟩, rfl, rfl⟩
    exact ⟨ht, hedge.mp hx, hdom⟩
  · intro ht
    exact ⟨t, ht.reached, x, ⟨hedge.mpr ht.edge, ht.dom⟩, rfl, rfl⟩

/-- The search of a back edge finds the blocks from which control gets to its source. -/
theorem mem_ofBackEdge (ht : f.Reached t) : b ∈ (ofBackEdge a t x).body ↔
    b = x ∨ f.Reached b ∧ ∃ p, Path f.Edge b t p ∧ x ∉ p := by
  have hstart : ∀ c ∈ [t], f.Reached c := by simpa using ht
  simp only [ofBackEdge, List.mem_cons, hd.mem_reach_iff hstart, List.not_mem_nil, or_false,
    exists_eq_left]

theorem mem_all : l ∈ all a ↔ ∃ t x, f.BackEdge t x ∧ ofBackEdge a t x = l := by
  simp only [all, List.mem_map, Prod.exists, mem_backEdges hd]

theorem mem_headers : x ∈ (mergeByHeader (all a)).map header ↔ ∃ t, f.BackEdge t x := by
  rw [(merged_mergeByHeader _).mem_headers, List.mem_map]
  constructor
  · rintro ⟨l, hl, rfl⟩
    obtain ⟨t, x, ht, rfl⟩ := (mem_all hd).mp hl
    exact ⟨t, ht⟩
  · rintro ⟨t, ht⟩
    exact ⟨_, (mem_all hd).mpr ⟨t, x, ht, rfl⟩, rfl⟩

/-- A merged loop is the loop of its header. -/
theorem mem_body_iff (hl : l ∈ mergeByHeader (all a)) : b ∈ l.body ↔ f.InLoop l.header b := by
  rw [(merged_mergeByHeader _).body l hl]
  constructor
  · rintro ⟨l', hl', hheader, hb⟩
    obtain ⟨t, x, ht, rfl⟩ := (mem_all hd).mp hl'
    obtain rfl : x = l.header := hheader
    exact ⟨t, ht, (mem_ofBackEdge hd ht.reached).mp hb⟩
  · rintro ⟨t, ht, hb⟩
    exact ⟨_, (mem_all hd).mpr ⟨t, _, ht, rfl⟩, rfl, (mem_ofBackEdge hd ht.reached).mpr hb⟩

/-- The loops that contain a block are those of the headers whose loops contain it. -/
theorem encard_inLoop :
    {x | f.InLoop x b}.encard = (mergeByHeader (all a)).countP (b ∈ ·.body) := by
  have hset : {x | f.InLoop x b} =
      ((((mergeByHeader (all a)).filter (b ∈ ·.body)).map header).toFinset : Set BlockId) := by
    ext x
    simp only [Set.mem_ofPred_eq, List.coe_toFinset, List.mem_map, List.mem_filter,
      decide_eq_true_eq]
    constructor
    · intro hx
      obtain ⟨t, ht, -⟩ := id hx
      obtain ⟨l, hl, rfl⟩ := List.mem_map.mp ((mem_headers hd).mpr ⟨t, ht⟩)
      exact ⟨l, ⟨hl, (mem_body_iff hd hl).mpr hx⟩, rfl⟩
    · rintro ⟨l, ⟨hl, hb⟩, rfl⟩
      exact (mem_body_iff hd hl).mp hb
  have hnodup : (((mergeByHeader (all a)).filter (b ∈ ·.body)).map header).Nodup :=
    (merged_mergeByHeader _).nodup.sublist (List.filter_sublist.map header)
  rw [hset, Set.encard_coe_eq_coe_finsetCard, List.toFinset_card_of_nodup hnodup, List.length_map,
    List.countP_eq_length_filter]

/-- The depth of a block is the number of merged loops that contain it. -/
theorem getElem?_loopDepths (hb : b ∈ f.blockIds) :
    (loopDepths a)[b.index]? = some ((mergeByHeader (all a)).countP (b ∈ ·.body)) := by
  have hlt : b.index < a.graph.size := hd.graph.size ▸ BlockId.mem_upTo.mp hb
  simp [loopDepths, BlockId.tabulate, BlockId.upTo, hlt]

theorem encard_inLoop_eq_depth (hb : b ∈ f.blockIds) :
    {x | f.InLoop x b}.encard = (loopDepths a).getD b.index 0 := by
  rw [encard_inLoop hd, Array.getD_eq_getD_getElem?, getElem?_loopDepths hd hb, Option.getD_some]

end

/-- Without blocks there are no loops. -/
theorem merged_eq_nil (ha : Analysis.ofFunc f = .ok a) (h₀ : ¬0 < f.numBlocks) :
    mergeByHeader (all a) = [] := by
  simp [mergeByHeader, all, backEdges, (Analysis.walks_eq_nil ha h₀).1]

/-- **Loop depth counts natural loops.** For every function whose branch targets exist the analysis
comes to an end. The depth of a block is the number of headers whose loops contain it. There is one
merged loop for each header, in the order in which headers first appear; it has the blocks of the
loop of its header, all of which the header dominates. -/
theorem depth_counts_headers (f : Func) (h : f.TargetsExist) :
    ∃ a, Analysis.ofFunc f = .ok a ∧
      (∀ b ∈ f.blockIds, ∃ n, (loopDepths a)[b.index]? = some n ∧
        {x | f.InLoop x b}.encard = n) ∧
      (∀ l ∈ mergeByHeader (all a), ∀ b,
        (b ∈ l.body ↔ f.InLoop l.header b) ∧ (b ∈ l.body → f.Dom l.header b)) ∧
      ((mergeByHeader (all a)).map header).Nodup ∧
      (∀ x, x ∈ (mergeByHeader (all a)).map header ↔ ∃ t, f.BackEdge t x) ∧
      (mergeByHeader (all a)).map header = ((all a).map header).eraseDups := by
  obtain ⟨a, ha⟩ := Analysis.exists_ofFunc h
  have hmerged := merged_mergeByHeader (all a)
  refine ⟨a, ha, ?_⟩
  by_cases h₀ : 0 < f.numBlocks
  · obtain ⟨rank, hd⟩ := Analysis.describes ha h₀
    refine ⟨fun b hb => ⟨_, getElem?_loopDepths hd hb, encard_inLoop hd⟩, fun l hl b => ?_,
      hmerged.nodup, fun x => mem_headers hd, hmerged.headers⟩
    have hbody : b ∈ l.body ↔ f.InLoop l.header b := mem_body_iff hd hl
    exact ⟨hbody, fun hb => (hbody.mp hb).dom⟩
  · have hnone := merged_eq_nil ha h₀
    refine ⟨fun b hb => absurd (Nat.zero_lt_of_lt (BlockId.mem_upTo.mp hb)) h₀, by simp [hnone],
      hmerged.nodup, fun x => ?_, hmerged.headers⟩
    have hedge : ¬∃ t, f.BackEdge t x := by
      rintro ⟨t, ht⟩
      exact h₀ ht.numBlocks_pos
    simp [hnone, hedge]

/-- A loop with two ways back to its header, around a block that leads to itself and a loop of two
blocks, which is also entered from an unreachable block. -/
def nestedLoops : Func := .made [.i1] [
  .block, .block, .block, .block, .block, .block, .block, .block,
  .switch ⟨0⟩, .jump ⟨1⟩,
  .switch ⟨1⟩, .branch (.arg 0) ⟨2⟩ ⟨6⟩,
  .switch ⟨2⟩, .branch (.arg 0) ⟨2⟩ ⟨3⟩,
  .switch ⟨3⟩, .branch (.arg 0) ⟨4⟩ ⟨1⟩,
  .switch ⟨4⟩, .branch (.arg 0) ⟨5⟩ ⟨1⟩,
  .switch ⟨5⟩, .jump ⟨4⟩,
  .switch ⟨6⟩, .ret none,
  .switch ⟨7⟩, .jump ⟨5⟩]

/-- Four back edges, two of them to one header, make three loops; two of them contain `bb5`. -/
theorem depth_counts_headers_nestedLoops :
    nestedLoops.TargetsExist ∧ ∃ a, Analysis.ofFunc nestedLoops = .ok a ∧
      (all a).map header = [⟨2⟩, ⟨1⟩, ⟨1⟩, ⟨4⟩] ∧
      (mergeByHeader (all a)).map header = [⟨2⟩, ⟨1⟩, ⟨4⟩] ∧
      loopDepths a = #[0, 1, 2, 1, 2, 2, 0, 0] ∧ {x | nestedLoops.InLoop x ⟨5⟩}.encard = 2 ∧
      nestedLoops.InLoop ⟨1⟩ ⟨5⟩ ∧ nestedLoops.Dom ⟨1⟩ ⟨5⟩ := by
  have htargets : nestedLoops.TargetsExist := by decide
  obtain ⟨a, ha, hdepth, hbody, -, -, hheaders⟩ := depth_counts_headers _ htargets
  obtain ⟨a', ha', h⟩ := exists_ok_of_any (x := Analysis.ofFunc nestedLoops)
    (q := fun a => (all a).map header = [⟨2⟩, ⟨1⟩, ⟨1⟩, ⟨4⟩] ∧
      loopDepths a = #[0, 1, 2, 1, 2, 2, 0, 0] ∧
      ∃ l ∈ mergeByHeader (all a), l.header = ⟨1⟩ ∧ ⟨5⟩ ∈ l.body) (by decide)
  obtain rfl := Except.ok.inj (ha.symm.trans ha')
  obtain ⟨hall, hdepths, l, hl, hheader, hmem⟩ := of_decide_eq_true h
  obtain ⟨n, hn, hcard⟩ := hdepth ⟨5⟩ (by decide)
  obtain ⟨hiff, hdom⟩ := hbody l hl ⟨5⟩
  refine ⟨htargets, a, ha, hall, ?_, hdepths, ?_, hheader ▸ hiff.mp hmem, hheader ▸ hdom hmem⟩
  · rw [hheaders, hall]
    decide
  · rw [hdepths] at hn
    rw [hcard, ← Option.some.inj hn]
    rfl

/-! ## Nesting -/

/-- The body of `inner` is a proper part of that of `outer`, whose header strictly dominates the
header of `inner`. -/
structure Encloses (f : Func) (outer inner : NaturalLoop) : Prop where
  subset : inner.body ⊆ outer.body
  proper : ¬outer.body ⊆ inner.body
  dom : f.Dom outer.header inner.header
  strict : outer.header ≠ inner.header

section

variable (hd : a.Describes f rank)
include hd

theorem header_mem_body (hl : l ∈ mergeByHeader (all a)) : l.header ∈ l.body := by
  obtain ⟨t, ht⟩ := (mem_headers hd).mp (List.mem_map_of_mem hl)
  exact (mem_body_iff hd hl).mpr ht.inLoop

theorem encloses_of_dom (hl : l ∈ mergeByHeader (all a)) (hm : m ∈ mergeByHeader (all a))
    (hbl : b ∈ l.body) (hbm : b ∈ m.body) (hdom : f.Dom l.header m.header)
    (hne : l.header ≠ m.header) : Encloses f l m where
  subset c hc := by
    rw [mem_body_iff hd hl] at hbl ⊢
    rw [mem_body_iff hd hm] at hbm hc
    exact hbl.of_dom hbm hdom hne hc
  proper hsub := by
    have hback := (mem_body_iff hd hm).mp (hsub (header_mem_body hd hl))
    exact hne (hdom.antisymm hback.dom)
  dom := hdom
  strict := hne

/-- Two merged loops that share a block are nested. -/
theorem encloses_or_encloses (hl : l ∈ mergeByHeader (all a)) (hm : m ∈ mergeByHeader (all a))
    (hlm : l ≠ m) (hbl : b ∈ l.body) (hbm : b ∈ m.body) : Encloses f l m ∨ Encloses f m l := by
  have hne : l.header ≠ m.header := fun heq =>
    hlm (List.inj_on_of_nodup_map (merged_mergeByHeader _).nodup hl hm heq)
  have hdoml := ((mem_body_iff hd hl).mp hbl).dom
  have hdomm := ((mem_body_iff hd hm).mp hbm).dom
  rcases hdoml.total hdomm with hdom | hdom
  · exact .inl (encloses_of_dom hd hl hm hbl hbm hdom hne)
  · exact .inr (encloses_of_dom hd hm hl hbm hbl hdom hne.symm)

/-- The loops that contain a block, from the outermost to the innermost. -/
theorem exists_chain (b : BlockId) :
    ∃ chain : List NaturalLoop, chain.Perm ((mergeByHeader (all a)).filter (b ∈ ·.body)) ∧
      chain.Pairwise (Encloses f) := by
  -- outer headers have a lower level
  let le (l m : NaturalLoop) : Bool := a.dom.level l.header ≤ a.dom.level m.header
  have hperm := List.mergeSort_perm ((mergeByHeader (all a)).filter (b ∈ ·.body)) le
  refine ⟨_, hperm, ?_⟩
  have htrans : ∀ l m n, le l m = true → le m n = true → le l n = true := by
    intro l m n hlm hmn
    simp only [le, decide_eq_true_eq] at *
    omega
  have htotal : ∀ l m, (le l m || le m l) = true := by
    intro l m
    simp only [le, Bool.or_eq_true, decide_eq_true_eq]
    omega
  have hsorted := List.pairwise_mergeSort htrans htotal
    ((mergeByHeader (all a)).filter (b ∈ ·.body))
  have hnodup : ((mergeByHeader (all a)).filter (b ∈ ·.body)).Nodup :=
    ((merged_mergeByHeader _).nodup.of_map header).filter _
  refine (hsorted.and (hperm.nodup_iff.mpr hnodup)).imp_of_mem fun {l m} hl hm hlm => ?_
  obtain ⟨hle, hne⟩ := hlm
  obtain ⟨hl, hbl⟩ := List.mem_filter.mp (hperm.mem_iff.mp hl)
  obtain ⟨hm, hbm⟩ := List.mem_filter.mp (hperm.mem_iff.mp hm)
  rcases encloses_or_encloses hd hl hm hne (of_decide_eq_true hbl) (of_decide_eq_true hbm) with
    hlm | hml
  · exact hlm
  · have hlt := hd.level_lt hml.dom hml.strict
    have hle : a.dom.level l.header ≤ a.dom.level m.header := of_decide_eq_true hle
    omega

end

/-- **Natural loops nest.** For every function whose branch targets exist, two different merged
loops have no block in common, or the body of one is a proper part of the body of the other, and
then the header of the outer loop strictly dominates that of the inner one. So the loops that
contain a block form a chain, from the outermost to the innermost, whose length is the loop depth of
the block. -/
theorem merged_loops_nest (f : Func) (h : f.TargetsExist) :
    ∃ a, Analysis.ofFunc f = .ok a ∧
      (∀ l ∈ mergeByHeader (all a), ∀ m ∈ mergeByHeader (all a), l ≠ m →
        l.body.Disjoint m.body ∨ Encloses f l m ∨ Encloses f m l) ∧
      ∀ b ∈ f.blockIds, ∃ chain : List NaturalLoop,
        chain.Perm ((mergeByHeader (all a)).filter (b ∈ ·.body)) ∧ chain.Pairwise (Encloses f) ∧
        (loopDepths a)[b.index]? = some chain.length := by
  obtain ⟨a, ha⟩ := Analysis.exists_ofFunc h
  refine ⟨a, ha, ?_⟩
  by_cases h₀ : 0 < f.numBlocks
  · obtain ⟨rank, hd⟩ := Analysis.describes ha h₀
    refine ⟨fun l hl m hm hne => ?_, fun b hb => ?_⟩
    · by_cases hdisjoint : l.body.Disjoint m.body
      · exact .inl hdisjoint
      · obtain ⟨b, hbl, hbm⟩ : ∃ b ∈ l.body, b ∈ m.body := by
          simpa [List.Disjoint] using hdisjoint
        exact .inr (encloses_or_encloses hd hl hm hne hbl hbm)
    · obtain ⟨chain, hperm, hchain⟩ := exists_chain hd b
      refine ⟨chain, hperm, hchain, ?_⟩
      rw [getElem?_loopDepths hd hb, hperm.length_eq, List.countP_eq_length_filter]
  · refine ⟨by simp [merged_eq_nil ha h₀], fun b hb => ?_⟩
    exact absurd (Nat.zero_lt_of_lt (BlockId.mem_upTo.mp hb)) h₀

/-- The loops of `bb2` and `bb4` are apart, and both lie in the loop of `bb1`. -/
theorem merged_loops_nest_nestedLoops :
    nestedLoops.TargetsExist ∧ ∃ a left outer right, Analysis.ofFunc nestedLoops = .ok a ∧
      mergeByHeader (all a) = [left, outer, right] ∧ left.body.Disjoint right.body ∧
      Encloses nestedLoops outer left ∧ Encloses nestedLoops outer right ∧
      ∃ chain : List NaturalLoop, chain.Perm [outer, right] ∧
        chain.Pairwise (Encloses nestedLoops) ∧ (loopDepths a)[5]? = some chain.length := by
  have htargets : nestedLoops.TargetsExist := by decide
  obtain ⟨a, ha, hnest, hchain⟩ := merged_loops_nest _ htargets
  obtain ⟨a', ha', h⟩ := exists_ok_of_any (x := Analysis.ofFunc nestedLoops)
    (q := fun a => mergeByHeader (all a) = [⟨⟨2⟩, [⟨2⟩]⟩, ⟨⟨1⟩, [⟨1⟩, ⟨2⟩, ⟨3⟩, ⟨5⟩, ⟨4⟩]⟩,
      ⟨⟨4⟩, [⟨4⟩, ⟨5⟩]⟩]) (by decide)
  obtain rfl := Except.ok.inj (ha.symm.trans ha')
  have hmerged := of_decide_eq_true h
  rw [hmerged] at hnest hchain
  refine ⟨htargets, a, _, _, _, ha, hmerged, by simp, ?_, ?_, hchain ⟨5⟩ (by decide)⟩
  · rcases hnest _ (.tail _ (.head _)) _ (.head _) (by decide) with h | h | h
    · exact absurd (h (a := ⟨2⟩)) (by decide)
    · exact h
    · exact absurd h.subset (by decide)
  · rcases hnest _ (.tail _ (.head _)) _ (.tail _ (.tail _ (.head _))) (by decide) with h | h | h
    · exact absurd (h (a := ⟨4⟩)) (by decide)
    · exact h
    · exact absurd h.subset (by decide)

end NaturalLoop

end SsaOpt
