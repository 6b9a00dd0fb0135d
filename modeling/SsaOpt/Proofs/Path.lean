import Mathlib.Data.List.Nodup

/-! Paths along a relation, and dominance.

A path is the list of the nodes it visits, first to last. A node dominates another if it stands on
every path from the root to it; `Dominates` asks in addition that there is such a path. -/

namespace SsaOpt

variable {α : Type}

/-- A list to which an element was appended is cut at the element, or before it. -/
theorem cut_of_concat_eq {l x y : List α} {a b : α} (h : l ++ [b] = x ++ a :: y) :
    (x = l ∧ a = b ∧ y = []) ∨ ∃ z, y = z ++ [b] ∧ l = x ++ a :: z := by
  rcases List.eq_nil_or_concat y with rfl | ⟨z, c, rfl⟩
  · obtain ⟨rfl, hb⟩ := List.append_inj' h rfl
    exact .inl ⟨rfl, (List.singleton_inj.mp hb).symm, rfl⟩
  · rw [List.concat_eq_append, ← List.cons_append, ← List.append_assoc] at h
    obtain ⟨rfl, hc⟩ := List.append_inj' h rfl
    obtain rfl := List.singleton_inj.mp hc
    exact .inr ⟨z, List.concat_eq_append, rfl⟩

/-- A member of a list stands in it for the last time. -/
theorem exists_last_of_mem {a : α} {l : List α} (h : a ∈ l) :
    ∃ front back, l = front ++ a :: back ∧ a ∉ back := by
  obtain ⟨back, front, hl, hback⟩ := List.eq_append_cons_of_mem (List.mem_reverse.mpr h)
  refine ⟨front.reverse, back.reverse, ?_, by simpa using hback⟩
  rw [← List.reverse_reverse l, hl]
  simp

/-- `Path r u v p`: the nodes of `p` lead from `u` to `v` along `r`. -/
inductive Path (r : α → α → Prop) (u : α) : α → List α → Prop
  | start : Path r u u [u]
  | step {v w : α} {p : List α} : Path r u v p → r v w → Path r u w (p ++ [w])

/-- Some path leads from `u` to `v`. -/
def Reaches (r : α → α → Prop) (u v : α) : Prop := ∃ p, Path r u v p

/-- `b` is reachable from the root, and every path to it passes through `a`. -/
def Dominates (r : α → α → Prop) (root a b : α) : Prop :=
  Reaches r root b ∧ ∀ p, Path r root b p → a ∈ p

namespace Path

variable {r : α → α → Prop} {u v w a : α} {p q : List α}

theorem last_mem (h : Path r u v p) : v ∈ p := by
  cases h <;> simp

theorem first_mem (h : Path r u v p) : u ∈ p := by
  induction h with
  | start => simp
  | step _ _ ih => simp [ih]

theorem reaches (h : Path r u v p) : Reaches r u v := ⟨p, h⟩

/-- A path ends in its target. -/
theorem exists_eq_concat (h : Path r u v p) : ∃ s, p = s ++ [v] := by
  cases h with
  | start => exact ⟨[], rfl⟩
  | step => exact ⟨_, rfl⟩

/-- A path begins with its source. -/
theorem exists_eq_cons (h : Path r u v p) : ∃ s, p = u :: s := by
  induction h with
  | start => exact ⟨[], rfl⟩
  | step _ _ ih =>
    obtain ⟨s, rfl⟩ := ih
    exact ⟨_, List.cons_append⟩

/-- Two paths that meet are one path. -/
theorem append (h : Path r u v p) {s : List α} (h' : Path r v w (v :: s)) :
    Path r u w (p ++ s) := by
  generalize ht : v :: s = t at h'
  induction h' generalizing s with
  | start =>
    obtain rfl : s = [] := by simpa using ht
    simpa using h
  | @step x y t' hx hxy ih =>
    obtain ⟨t'', rfl⟩ := hx.exists_eq_cons
    obtain rfl : s = t'' ++ [y] := by simpa using ht
    rw [← List.append_assoc]
    exact (ih rfl).step hxy

/-- A path is cut at a node on it: the part up to the node, and the part from it on. -/
theorem split (h : Path r u v p) {x y : List α} (hp : p = x ++ a :: y) :
    Path r u a (x ++ [a]) ∧ Path r a v (a :: y) := by
  induction h generalizing y with
  | start =>
    obtain ⟨rfl, rfl, rfl⟩ : x = [] ∧ u = a ∧ y = [] := by
      cases x <;> simp_all
    exact ⟨.start, .start⟩
  | @step z w t hz hzw ih =>
    rcases cut_of_concat_eq hp with ⟨rfl, rfl, rfl⟩ | ⟨y', rfl, rfl⟩
    · exact ⟨hz.step hzw, .start⟩
    · obtain ⟨h₁, h₂⟩ := ih rfl
      exact ⟨h₁, h₂.step hzw⟩

theorem prefix_of_mem (h : Path r u v p) (ha : a ∈ p) :
    ∃ x y, p = x ++ a :: y ∧ Path r u a (x ++ [a]) := by
  obtain ⟨x, y, rfl⟩ := List.append_of_mem ha
  exact ⟨x, y, rfl, (h.split rfl).1⟩

/-- Every path contains one that visits no node twice. -/
theorem exists_nodup (h : Path r u v p) : ∃ q, Path r u v q ∧ q.Nodup ∧ q ⊆ p := by
  induction h with
  | start => exact ⟨[u], .start, List.nodup_singleton u, fun _ h => h⟩
  | @step v w t hv hvw ih =>
    obtain ⟨q, hq, hnd, hsub⟩ := ih
    by_cases hw : w ∈ q
    · obtain ⟨x, y, rfl, hx⟩ := hq.prefix_of_mem hw
      refine ⟨x ++ [w], hx, ?_, ?_⟩
      · exact hnd.sublist (by simp)
      · intro z hz
        rcases List.mem_append.mp hz with hz | hz
        · exact List.mem_append_left _ (hsub (by simp [hz]))
        · exact List.mem_append_right _ hz
    · refine ⟨q ++ [w], hq.step hvw, ?_, ?_⟩
      · exact List.nodup_append'.mpr ⟨hnd, List.nodup_singleton w, by simpa using hw⟩
      · exact List.append_subset.mpr
          ⟨fun z hz => List.mem_append_left _ (hsub hz), List.subset_append_right _ _⟩

/-- The last step of a path that is not a single node. -/
theorem last_step (h : Path r u v p) :
    (v = u ∧ p = [u]) ∨ ∃ x q, Path r u x q ∧ r x v ∧ p = q ++ [v] := by
  cases h with
  | start => exact .inl ⟨rfl, rfl⟩
  | step h hr => exact .inr ⟨_, _, h, hr, rfl⟩

/-- A path goes on from every node before its target. -/
theorem exists_next {s : List α} (h : Path r u v p) (hp : p = s ++ [v]) (ha : a ∈ s) :
    ∃ b, r a b := by
  induction h generalizing s with
  | start =>
    obtain rfl : s = [] := by simpa using hp
    cases ha
  | @step x y t hx hxy ih =>
    obtain rfl : t = s := by simpa using hp
    obtain ⟨s', rfl⟩ := hx.exists_eq_concat
    rcases List.mem_append.mp ha with ha | ha
    · exact ih rfl ha
    · exact ⟨y, List.mem_singleton.mp ha ▸ hxy⟩

end Path

namespace Reaches

variable {r : α → α → Prop} {u v w : α}

theorem refl : Reaches r u u := ⟨[u], .start⟩

theorem step (h : Reaches r u v) (hr : r v w) : Reaches r u w := by
  obtain ⟨p, hp⟩ := h
  exact ⟨_, hp.step hr⟩

end Reaches

namespace Dominates

variable {r : α → α → Prop} {root a b c : α}

theorem refl (h : Reaches r root a) : Dominates r root a a := ⟨h, fun _ hp => hp.last_mem⟩

theorem root_dominates (h : Reaches r root a) : Dominates r root root a :=
  ⟨h, fun _ hp => hp.first_mem⟩

theorem reaches_left (h : Dominates r root a b) : Reaches r root a := by
  obtain ⟨⟨p, hp⟩, hall⟩ := h
  obtain ⟨x, _, _, hx⟩ := hp.prefix_of_mem (hall p hp)
  exact ⟨_, hx⟩

theorem trans (hab : Dominates r root a b) (hbc : Dominates r root b c) :
    Dominates r root a c := by
  refine ⟨hbc.1, fun p hp => ?_⟩
  obtain ⟨x, y, rfl, hx⟩ := hp.prefix_of_mem (hbc.2 p hp)
  have ha := hab.2 _ hx
  simp only [List.mem_append, List.mem_cons, List.not_mem_nil, or_false] at ha ⊢
  exact ha.imp id .inl

theorem antisymm (hab : Dominates r root a b) (hba : Dominates r root b a) : a = b := by
  obtain ⟨p, hp⟩ := hab.1
  obtain ⟨q, hq, hnd, -⟩ := hp.exists_nodup
  obtain ⟨x, y, rfl, hx⟩ := hq.prefix_of_mem (hab.2 q hq)
  -- a path without repetition meets `b` only at its end, but the part up to `a` meets it too
  have hb := hba.2 _ hx
  obtain ⟨s, hs⟩ := hq.exists_eq_concat
  rcases List.eq_nil_or_concat y with rfl | ⟨y', z, rfl⟩
  · simpa using (List.append_inj' hs rfl).2
  · have hs' : (x ++ a :: y') ++ [z] = s ++ [b] := by simpa using hs
    obtain ⟨rfl, hz⟩ := List.append_inj' hs' rfl
    obtain rfl : z = b := by simpa using hz
    simp only [List.concat_eq_append] at hnd
    have hnd' : (x ++ [a] ++ (y' ++ [z])).Nodup := by simpa using hnd
    exact absurd (by simp) ((List.nodup_append'.mp hnd').2.2 hb)

/-- A strict dominator dominates every reachable predecessor. -/
theorem of_step (h : Dominates r root a b) (hne : a ≠ b) (hc : Reaches r root c) (hr : r c b) :
    Dominates r root a c := by
  refine ⟨hc, fun p hp => ?_⟩
  rcases List.mem_append.mp (h.2 _ (hp.step hr)) with ha | ha
  · exact ha
  · exact absurd (List.mem_singleton.mp ha) hne

/-- What dominates every reachable predecessor of a node other than the root dominates the node. -/
theorem of_forall_step (hb : Reaches r root b) (hne : b ≠ root)
    (h : ∀ c, Reaches r root c → r c b → Dominates r root a c) : Dominates r root a b := by
  refine ⟨hb, fun p hp => ?_⟩
  rcases hp.last_step with ⟨he, _⟩ | ⟨c, q, hq, hr, rfl⟩
  · exact absurd he hne
  · exact List.mem_append_left _ ((h c hq.reaches hr).2 q hq)

/-- Between a dominator and a node that it does not dominate in turn there is a path that avoids
the node. -/
theorem exists_avoiding (h : Dominates r root a b) (hne : a ≠ b) :
    ∃ p, Path r root a p ∧ b ∉ p := by
  by_contra hcon
  push Not at hcon
  exact hne (antisymm h ⟨h.reaches_left, hcon⟩)

/-- A path leads from a dominator to the node and does not come back to the dominator. -/
theorem exists_path (h : Dominates r root a b) : ∃ t, Path r a b (a :: t) ∧ a ∉ t := by
  obtain ⟨p, hp⟩ := h.1
  obtain ⟨front, t, rfl, ht⟩ := exists_last_of_mem (h.2 p hp)
  exact ⟨t, (hp.split rfl).2, ht⟩

/-- A path that has left `b` for the last time does not come to a dominator of `b` again. -/
theorem not_mem_of_path {t : List α} (hab : Dominates r root a b) (hne : a ≠ b)
    (hbc : Dominates r root b c) (hp : Path r b c (b :: t)) (hb : b ∉ t) : a ∉ t := by
  intro ha
  obtain ⟨p, hp', hbp⟩ := hab.exists_avoiding hne
  obtain ⟨t₁, t₂, rfl⟩ := List.append_of_mem ha
  obtain ⟨-, htail⟩ := hp.split (a := a) (x := b :: t₁) (y := t₂) rfl
  have havoid : b ∉ p ++ t₂ := by
    simp only [List.mem_append, List.mem_cons, not_or] at hb ⊢
    exact ⟨hbp, hb.2.2⟩
  exact havoid (hbc.2 _ (hp'.append htail))

/-- What stands on every path to `c` stands on every path to `b`, if it is not on some path from `b`
to `c`. -/
theorem of_path {t : List α} (hac : Dominates r root a c) (hb : Reaches r root b)
    (hp : Path r b c (b :: t)) (ha : a ∉ t) : Dominates r root a b := by
  refine ⟨hb, fun p hp' => ?_⟩
  exact (List.mem_append.mp (hac.2 _ (hp'.append hp))).resolve_right ha

/-- Of two dominators of one node, one dominates the other. -/
theorem total (hac : Dominates r root a c) (hbc : Dominates r root b c) :
    Dominates r root a b ∨ Dominates r root b a := by
  obtain ⟨t, ht, hat⟩ := hac.exists_path
  by_cases hb : b ∈ t
  · -- behind the last `a` the path comes to `b`, and from there it avoids `a`
    obtain ⟨t₁, t₂, rfl⟩ := List.append_of_mem hb
    obtain ⟨-, htail⟩ := ht.split (a := b) (x := a :: t₁) (y := t₂) rfl
    simp only [List.mem_append, List.mem_cons, not_or] at hat
    exact .inl (hac.of_path hbc.reaches_left htail hat.2.2)
  · exact .inr (hbc.of_path hac.reaches_left ht hb)

end Dominates

end SsaOpt
