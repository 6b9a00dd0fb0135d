import SsaOpt.Dominators.Tree
import SsaOpt.Proofs.Settle

/-! Tours of the dominator tree, and the way up from a block.

In the tour of a tree the visits to the blocks below `a` are a contiguous part that begins where `a`
is entered and ends where `a` is left. So a block is below `a` exactly if its interval lies in that
of `a`. -/

namespace SsaOpt

open FlowGraph

def Visit.block : Visit → BlockId
  | .enter b => b
  | .leave b => b

namespace Links

variable {g : FlowGraph} {rank : BlockId → Nat} {links : Links}

/-- What a block climbs to forms a chain. -/
theorem Climbs.total {a b c : BlockId} (ha : links.Climbs c a) (hb : links.Climbs c b) :
    links.Climbs a b ∨ links.Climbs b a :=
  Relation.ReflTransGen.total_of_right_unique
    (fun _ _ _ h h' => Option.some.inj (h.symm.trans h')) ha hb

theorem Climbs.tail {a b d : BlockId} (h : links.Climbs b a) (hne : b ≠ a)
    (hd : links.get b = some d) : links.Climbs d a := by
  rcases h.cases_head with he | ⟨e, he, hea⟩
  · exact absurd he hne
  · obtain rfl := Option.some.inj (hd.symm.trans he)
    exact hea

theorem Climbs.linked {a b : BlockId} (hs : Sound g rank links) (h : links.Climbs b a)
    (hb : links.Linked b) : links.Linked a := by
  induction h with
  | refl => exact hb
  | tail _ he _ => exact hs.linked he

/-- The last step of a climb to another block. -/
theorem Climbs.last_step {a b : BlockId} (hs : Sound g rank links) (h : links.Climbs b a)
    (hne : b ≠ a) : ∃ c, links.Climbs b c ∧ links.get c = some a ∧ c ≠ .entry := by
  induction h with
  | refl => exact absurd rfl hne
  | @tail c a hbc hca ih =>
    by_cases hc : c = .entry
    · subst hc
      obtain rfl : BlockId.entry = a := Option.some.inj (hs.entry.symm.trans hca)
      exact ih hne
    · exact ⟨c, hbc, hca, hc⟩

theorem lt_size_of_get {b d : BlockId} (h : links.get b = some d) : b.index < links.size := by
  by_contra hlt
  have hrow : links[b.index]? = none := Array.getElem?_eq_none (Nat.not_lt.mp hlt)
  simp [Links.get, Array.getD_eq_getD_getElem?, hrow] at h

/-- The blocks whose link is the given one, except for the entry. -/
def childrenOf (links : Links) (a : BlockId) : List BlockId := links.childRows.getD a.index []

theorem childrenOf_eq_nil {a : BlockId} (ha : ¬ a.index < links.size) :
    links.childrenOf a = [] := by
  have hrow : links.childRows[a.index]? = none := by
    apply Array.getElem?_eq_none
    simpa [childRows] using ha
  simp [childrenOf, Array.getD_eq_getD_getElem?, hrow]

theorem mem_childrenOf (hs : Sound g rank links) {a c : BlockId} :
    c ∈ links.childrenOf a ↔ links.get c = some a ∧ c ≠ .entry := by
  by_cases ha : a.index < links.size
  · simp only [childrenOf, childRows, BlockId.getD_tabulate ha, List.mem_filter, BlockId.mem_upTo,
      Bool.and_eq_true, decide_eq_true_eq]
    constructor
    · rintro ⟨-, ⟨h0, -⟩, hc⟩
      refine ⟨hc, ?_⟩
      rintro rfl
      exact h0 rfl
    · rintro ⟨hc, hne⟩
      refine ⟨lt_size_of_get hc, ⟨fun h0 => hne ?_, ?_⟩, hc⟩
      · obtain ⟨c⟩ := c
        exact congrArg BlockId.mk h0
      · rintro rfl
        exact Nat.lt_irrefl _ (hs.falls hc hne)
  · rw [childrenOf_eq_nil ha]
    refine ⟨fun hc => absurd hc List.not_mem_nil, fun ⟨hc, _⟩ => ?_⟩
    obtain ⟨e, he⟩ := hs.linked hc
    exact absurd (lt_size_of_get he) ha

theorem nodup_childrenOf (a : BlockId) : (links.childrenOf a).Nodup := by
  by_cases ha : a.index < links.size
  · simp only [childrenOf, childRows, BlockId.getD_tabulate ha]
    refine List.Nodup.filter _ ?_
    exact List.Nodup.map (fun _ _ h => BlockId.mk.inj h) List.nodup_range
  · rw [childrenOf_eq_nil ha]
    exact List.nodup_nil

end Links

namespace Dominators

section Tour

variable {g : FlowGraph} {rank : BlockId → Nat} {links : Links} (h : Links.Exact g rank links)
include h

/-- The tour from `b` visits the blocks that climb to `b`, provided that the bound on its height
leaves room for all blocks of higher rank. -/
theorem mem_tourFrom (fuel : Nat) : ∀ (b : BlockId) (v : Visit), links.Linked b →
    g.size ≤ fuel + rank b →
    (v ∈ tourFrom links.childrenOf fuel b ↔ links.Linked v.block ∧ links.Climbs v.block b) := by
  induction fuel with
  | zero =>
    intro b v hb hf
    have := h.ranking.lt_size (h.sound.reaches_of_linked hb)
    omega
  | succ fuel ih =>
    intro b v hb hf
    have hself : v = .enter b ∨ v = .leave b ↔ v.block = b := by
      cases v <;> simp [Visit.block]
    have hchild : ∀ c ∈ links.childrenOf b, (v ∈ tourFrom links.childrenOf fuel c ↔
        links.Linked v.block ∧ links.Climbs v.block c) := by
      intro c hc
      obtain ⟨hget, hne⟩ := (Links.mem_childrenOf h.sound).mp hc
      have := h.sound.falls hget hne
      exact ih c v ⟨b, hget⟩ (by omega)
    simp only [tourFrom, List.mem_cons, List.mem_append, List.mem_flatMap, List.not_mem_nil,
      or_false]
    constructor
    · rintro (hv | ⟨c, hc, hv⟩ | hv)
      · have hvb := hself.mp (.inl hv)
        exact ⟨hvb ▸ hb, hvb ▸ .refl⟩
      · obtain ⟨hl, hclimb⟩ := (hchild c hc).mp hv
        exact ⟨hl, hclimb.trans (.single ((Links.mem_childrenOf h.sound).mp hc).1)⟩
      · have hvb := hself.mp (.inr hv)
        exact ⟨hvb ▸ hb, hvb ▸ .refl⟩
    · rintro ⟨hl, hclimb⟩
      by_cases hvb : v.block = b
      · rcases hself.mpr hvb with hv | hv
        · exact .inl hv
        · exact .inr (.inr hv)
      · obtain ⟨c, hvc, hcb, hne⟩ := hclimb.last_step h.sound hvb
        have hc := (Links.mem_childrenOf h.sound).mpr ⟨hcb, hne⟩
        exact .inr (.inl ⟨c, hc, (hchild c hc).mpr ⟨hl, hvc⟩⟩)

theorem nodup_tourFrom (fuel : Nat) : ∀ b : BlockId, links.Linked b → g.size ≤ fuel + rank b →
    (tourFrom links.childrenOf fuel b).Nodup := by
  induction fuel with
  | zero => exact fun _ _ _ => List.nodup_nil
  | succ fuel ih =>
    intro b hb hf
    have hroom : ∀ c ∈ links.childrenOf b, links.get c = some b ∧ rank b < rank c ∧
        g.size ≤ fuel + rank c := by
      intro c hc
      obtain ⟨hget, hne⟩ := (Links.mem_childrenOf h.sound).mp hc
      have := h.sound.falls hget hne
      exact ⟨hget, this, by omega⟩
    have hbelow : ∀ v ∈ (links.childrenOf b).flatMap (tourFrom links.childrenOf fuel),
        v.block ≠ b := by
      intro v hv
      obtain ⟨c, hc, hv⟩ := List.mem_flatMap.mp hv
      obtain ⟨hget, hlt, hroom⟩ := hroom c hc
      obtain ⟨-, hclimb⟩ := (mem_tourFrom h fuel c v ⟨b, hget⟩ hroom).mp hv
      rintro rfl
      exact absurd (h.sound.rank_le hclimb) (by omega)
    have hmiddle : ((links.childrenOf b).flatMap (tourFrom links.childrenOf fuel)).Nodup := by
      refine List.nodup_flatMap.mpr ⟨fun c hc => ?_, ?_⟩
      · obtain ⟨hget, -, hroom⟩ := hroom c hc
        exact ih c ⟨b, hget⟩ hroom
      · refine List.Pairwise.imp_of_mem ?_ (Links.nodup_childrenOf b)
        intro x y hx hy hxy v hvx hvy
        obtain ⟨hgx, hltx, hrx⟩ := hroom x hx
        obtain ⟨hgy, hlty, hry⟩ := hroom y hy
        obtain ⟨-, hcx⟩ := (mem_tourFrom h fuel x v ⟨b, hgx⟩ hrx).mp hvx
        obtain ⟨-, hcy⟩ := (mem_tourFrom h fuel y v ⟨b, hgy⟩ hry).mp hvy
        -- of two blocks above the same one, one is above the other; siblings are not
        rcases hcx.total hcy with hup | hup
        · exact absurd (h.sound.rank_le (hup.tail hxy hgx)) (by omega)
        · exact absurd (h.sound.rank_le (hup.tail (Ne.symm hxy) hgy)) (by omega)
    simp only [tourFrom]
    refine List.nodup_cons.mpr ⟨?_, List.nodup_append'.mpr ⟨hmiddle, List.nodup_singleton _, ?_⟩⟩
    · intro hv
      rcases List.mem_append.mp hv with hv | hv
      · exact hbelow _ hv rfl
      · simp at hv
    · intro v hv hv'
      obtain rfl := List.mem_singleton.mp hv'
      exact hbelow _ hv rfl

/-- The tour of a subtree is a part of the tour of the tree. -/
theorem exists_tourFrom_eq (fuel : Nat) : ∀ a b : BlockId, links.Linked a → links.Climbs a b →
    g.size ≤ fuel + rank b → ∃ pre post m, g.size ≤ m + 1 + rank a ∧
      tourFrom links.childrenOf fuel b = pre ++ tourFrom links.childrenOf (m + 1) a ++ post := by
  induction fuel with
  | zero =>
    intro a b ha hab hf
    have := h.ranking.lt_size (h.sound.reaches_of_linked (hab.linked h.sound ha))
    omega
  | succ fuel ih =>
    intro a b ha hab hf
    by_cases hne : a = b
    · subst hne
      exact ⟨[], [], fuel, hf, by simp⟩
    · obtain ⟨c, hac, hcb, hce⟩ := hab.last_step h.sound hne
      have hlt := h.sound.falls hcb hce
      obtain ⟨pre, post, m, hm, he⟩ := ih a c ha hac (by omega)
      obtain ⟨x, y, hxy⟩ := List.append_of_mem ((Links.mem_childrenOf h.sound).mpr ⟨hcb, hce⟩)
      refine ⟨.enter b :: (x.flatMap (tourFrom links.childrenOf fuel) ++ pre),
        post ++ (y.flatMap (tourFrom links.childrenOf fuel) ++ [.leave b]), m, hm, ?_⟩
      simp only [tourFrom] at he ⊢
      simp [hxy, he]

omit h in
/-- Where the visits of the subtree of `a` stand in a tour that contains it. -/
theorem idxOf_tourFrom {a : BlockId} {m : Nat} {tour pre post : List Visit}
    (hnd : tour.Nodup) (ht : tour = pre ++ tourFrom links.childrenOf (m + 1) a ++ post) :
    tour.idxOf (.enter a) = pre.length ∧
      tour.idxOf (.leave a) + 1 = pre.length + (tourFrom links.childrenOf (m + 1) a).length := by
  subst ht
  have hpre : ∀ v ∈ tourFrom links.childrenOf (m + 1) a, v ∉ pre := by
    intro v hv hv'
    rw [List.append_assoc] at hnd
    exact (List.nodup_append'.mp hnd).2.2 hv' (List.mem_append_left _ hv)
  have hnd' : (tourFrom links.childrenOf (m + 1) a).Nodup :=
    (List.nodup_append'.mp (List.nodup_append'.mp hnd).1).2.1
  have hloc : ∀ v ∈ tourFrom links.childrenOf (m + 1) a,
      (pre ++ tourFrom links.childrenOf (m + 1) a ++ post).idxOf v =
        pre.length + (tourFrom links.childrenOf (m + 1) a).idxOf v := by
    intro v hv
    rw [List.append_assoc, List.idxOf_append_of_notMem (hpre v hv),
      List.idxOf_append_of_mem hv]
  rw [hloc _ (by simp [tourFrom]), hloc _ (by simp [tourFrom])]
  refine ⟨by simp [tourFrom], ?_⟩
  simp only [tourFrom, List.nodup_cons, List.length_cons, List.length_append,
    List.length_nil] at hnd' ⊢
  have hleave : Visit.leave a ∉ (links.childrenOf a).flatMap (tourFrom links.childrenOf m) :=
    fun hv => (List.nodup_append'.mp hnd'.2).2.2 hv (List.mem_singleton_self _)
  rw [List.idxOf_cons_ne _ (by simp), List.idxOf_append_of_notMem hleave, List.idxOf_cons_self]
  omega

/-- A block is below `a` exactly if its interval in the tour lies in that of `a`. -/
theorem climbs_iff_interval {root a b : BlockId} (ha : links.Linked a) (hb : links.Linked b)
    (hra : links.Climbs a root) (hrb : links.Climbs b root) {fuel : Nat}
    (hf : g.size ≤ fuel + rank root) :
    links.Climbs b a ↔
      (tourFrom links.childrenOf fuel root).idxOf (.enter a) ≤
          (tourFrom links.childrenOf fuel root).idxOf (.enter b) ∧
        (tourFrom links.childrenOf fuel root).idxOf (.leave b) ≤
          (tourFrom links.childrenOf fuel root).idxOf (.leave a) := by
  have hnd := nodup_tourFrom h fuel root (hra.linked h.sound ha) hf
  obtain ⟨pre, post, m, hm, ht⟩ := exists_tourFrom_eq h fuel a root ha hra hf
  obtain ⟨hea, hla⟩ := idxOf_tourFrom hnd ht
  constructor
  · intro hba
    obtain ⟨pre', post', m', -, ht'⟩ := exists_tourFrom_eq h (m + 1) b a hb hba (by omega)
    have ht'' : tourFrom links.childrenOf fuel root =
        (pre ++ pre') ++ tourFrom links.childrenOf (m' + 1) b ++ (post' ++ post) := by
      rw [ht, ht']
      simp
    obtain ⟨heb, hlb⟩ := idxOf_tourFrom hnd ht''
    have hlen := congrArg List.length ht'
    simp only [List.length_append] at heb hlb hlen
    omega
  · rintro ⟨henter, hleave⟩
    obtain ⟨pre', post', m', -, ht'⟩ := exists_tourFrom_eq h fuel b root hb hrb hf
    obtain ⟨heb, hlb⟩ := idxOf_tourFrom hnd ht'
    have hpos : 0 < (tourFrom links.childrenOf (m' + 1) b).length := by simp [tourFrom]
    -- the place where `b` is entered belongs to the part of `a`
    have hat : (tourFrom links.childrenOf fuel root)[pre'.length]? = some (.enter b) := by
      rw [ht']
      simp [tourFrom]
    rw [ht, List.append_assoc, List.getElem?_append_right (by omega),
      List.getElem?_append_left (by omega)] at hat
    exact ((mem_tourFrom h (m + 1) a (.enter b) ha (by omega)).mp (List.mem_of_getElem? hat)).2

end Tour

section Climb

variable {g : FlowGraph} {rank : BlockId → Nat} {links : Links} (hs : Links.Sound g rank links)
include hs

/-- The strict ancestors of a block, once the bound leaves room for all of them. -/
theorem mem_climb (fuel : Nat) : ∀ a b : BlockId, links.Linked b → rank b ≤ fuel →
    (a ∈ climb links fuel b ↔ a ≠ b ∧ links.Climbs b a) := by
  induction fuel with
  | zero =>
    intro a b hb hf
    obtain ⟨d, hd⟩ := hb
    have he : b = .entry := by
      by_contra hne
      have := hs.falls hd hne
      omega
    subst he
    refine ⟨fun ha => absurd ha List.not_mem_nil, fun ⟨hne, hba⟩ => ?_⟩
    exact absurd (hs.eq_entry_of_climbs hba) hne
  | succ fuel ih =>
    intro a b hb hf
    obtain ⟨d, hd⟩ := hb
    simp only [climb, hd]
    by_cases hdb : d = b
    · subst hdb
      rw [if_pos rfl]
      refine ⟨fun ha => absurd ha List.not_mem_nil, fun ⟨hne, hba⟩ => absurd ?_ hne⟩
      have he : d = .entry := by
        by_contra hne
        exact Nat.lt_irrefl _ (hs.falls hd hne)
      subst he
      exact hs.eq_entry_of_climbs hba
    · have hne : b ≠ .entry := by
        rintro rfl
        exact hdb (Option.some.inj (hd.symm.trans hs.entry))
      have hlt := hs.falls hd hne
      rw [if_neg hdb, List.mem_cons, ih a d (hs.linked hd) (by omega)]
      constructor
      · rintro (rfl | ⟨-, hda⟩)
        · exact ⟨hdb, .single hd⟩
        · refine ⟨?_, .head hd hda⟩
          rintro rfl
          exact absurd (hs.rank_le hda) (by omega)
      · rintro ⟨hab, hba⟩
        by_cases had : a = d
        · exact .inl had
        · exact .inr ⟨had, hba.tail (Ne.symm hab) hd⟩

theorem climb_eq_climb (fuel : Nat) : ∀ (fuel' : Nat) (b : BlockId), links.Linked b →
    rank b ≤ fuel → rank b ≤ fuel' → climb links fuel b = climb links fuel' b := by
  have hentry : ∀ n, climb links n .entry = [] := by
    intro n
    cases n <;> simp [climb, hs.entry]
  induction fuel with
  | zero =>
    intro fuel' b hb hf _
    obtain ⟨d, hd⟩ := hb
    have he : b = .entry := by
      by_contra hne
      have := hs.falls hd hne
      omega
    rw [he, hentry, hentry]
  | succ fuel ih =>
    intro fuel' b hb hf hf'
    by_cases he : b = .entry
    · rw [he, hentry, hentry]
    · obtain ⟨d, hd⟩ := hb
      have hlt := hs.falls hd he
      obtain ⟨k, rfl⟩ : ∃ k, fuel' = k + 1 := ⟨fuel' - 1, by omega⟩
      simp only [climb, hd]
      rw [ih k d (hs.linked hd) (by omega) (by omega)]

omit hs in
/-- Ancestors are listed from the nearest up. -/
theorem pairwise_climb (fuel : Nat) : ∀ b : BlockId,
    (b :: climb links fuel b).Pairwise links.Climbs := by
  induction fuel with
  | zero => exact fun b => List.pairwise_singleton _ b
  | succ fuel ih =>
    intro b
    simp only [climb]
    cases hd : links.get b with
    | none => exact List.pairwise_singleton _ b
    | some d =>
      by_cases hdb : d = b
      · simp [hdb]
      · simp only [hdb, if_false]
        refine List.pairwise_cons.mpr ⟨fun a ha => ?_, ih d⟩
        rcases List.mem_cons.mp ha with rfl | ha
        · exact .single hd
        · exact .head hd ((List.pairwise_cons.mp (ih d)).1 a ha)

end Climb

end Dominators

end SsaOpt
