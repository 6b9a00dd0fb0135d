import SsaOpt.Proofs.Circles

/-! What a sweep places. It takes the floating instructions that are not pinned, each after all
that read it; pinned is what feeds, through any number of others, an instruction that touches a
phi. -/

namespace SsaOpt

open Relation

namespace Func

variable {f : Func} {x y : InstId}

/-- A chain of readers leads from the instruction to one that touches a phi. -/
def Pinned (f : Func) (x : InstId) : Prop :=
  ∃ y, ReflTransGen f.Feeds x y ∧ Motion.touchesPhi f y

theorem Pinned.of_feeds (h : f.Feeds x y) (hy : f.Pinned y) : f.Pinned x := by
  obtain ⟨z, hz, htouch⟩ := hy
  exact ⟨z, .head h hz, htouch⟩

theorem pinned_iff : f.Pinned x ↔ Motion.touchesPhi f x ∨ ∃ y, f.Feeds x y ∧ f.Pinned y := by
  constructor
  · rintro ⟨z, hz, htouch⟩
    rcases hz.cases_head with rfl | ⟨y, hxy, hyz⟩
    · exact .inl htouch
    · exact .inr ⟨y, hxy, z, hyz, htouch⟩
  · rintro (htouch | ⟨y, hxy, hy⟩)
    · exact ⟨x, .refl, htouch⟩
    · exact .of_feeds hxy hy

end Func

namespace Motion

open Func

variable {f : Func} {order : List InstId} {x : InstId}

/-! ## Order and pins -/

/-- What is pinned feeds an instruction that reads a phi or is read by one. -/
theorem pinned_iff_chain (hf : f.Consistent) : f.Pinned x ↔ ∃ y, ReflTransGen f.Feeds x y ∧
    ((∃ d ∈ f.reads y, f.isPhi d) ∨ ∃ i, y ∈ f.reads i ∧ f.isPhi i) := by
  simp only [Func.Pinned, touchesPhi_iff hf]

/-- What is not pinned feeds no such instruction. -/
theorem not_pinned_of_chains (hf : f.Consistent)
    (h : ∀ {y}, ReflTransGen f.Feeds x y →
      (∀ d ∈ f.reads y, ¬f.isPhi d) ∧ ∀ i, y ∈ f.reads i → ¬f.isPhi i) : ¬f.Pinned x := by
  rw [pinned_iff_chain hf]
  intro hpin
  obtain ⟨y, hchain, ⟨d, hd, hphi⟩ | ⟨i, hi, hphi⟩⟩ := hpin
  · exact (h hchain).1 d hd hphi
  · exact (h hchain).2 i hi hphi

theorem mem_floating {i : InstId} :
    i ∈ f.placed.filter (fun i => (f.op? i).any floats) ↔ f.Floating i := List.mem_filter

/-- All floating instructions, each after all that read it. -/
structure Ordered (f : Func) (order : List InstId) : Prop where
  nodup : order.Nodup
  mem_iff : ∀ {i}, i ∈ order ↔ f.Floating i
  readersFirst : ∀ {pre i post k}, order = pre ++ i :: post → f.Feeds i k → k ∈ pre

theorem ordered_of_consumersFirst (hf : f.Consistent)
    (h : consumersFirst f (f.placed.filter fun i => (f.op? i).any floats) = .ok order) :
    Ordered f order := by
  obtain ⟨order', hdrained, heq⟩ := exists_drained (f := f) (hf.placed_nodup.filter _)
  rw [heq] at h
  split at h
  · next hlen =>
    obtain rfl := Except.ok.inj h
    have hmem : ∀ {i}, i ∈ order' ↔ f.Floating i := (hdrained.perm hlen).mem_iff.trans mem_floating
    have hnodup : order'.Nodup := hdrained.nodup
    refine ⟨hnodup, hmem, fun {pre i post k} hsplit hfeeds => ?_⟩
    have hk := hmem.mpr hfeeds.target
    rw [hsplit] at hk hnodup
    obtain ⟨-, hpost, -⟩ := List.nodup_append.mp hnodup
    have hi := (List.nodup_cons.mp hpost).1
    rcases List.mem_append.mp hk with hk | hk
    · exact hk
    · -- a reader after `i` would stand before what it reads
      rcases List.mem_cons.mp hk with rfl | hk
      · exact absurd (hdrained.mem_of_feeds mem_floating hsplit hfeeds) hi
      · obtain ⟨l₁, l₂, rfl⟩ := List.append_of_mem hk
        have hsplit' : order' = (pre ++ i :: l₁) ++ k :: l₂ := by simp [hsplit]
        have := hdrained.mem_of_feeds mem_floating hsplit' hfeeds
        exact absurd (by simp [this]) hi
  · cases h

/-- The pins after the first part of the order: what touches a phi, and of the first part also what
feeds such an instruction. -/
def PinsOf (f : Func) (order pre pins : List InstId) : Prop :=
  ∀ x, x ∈ pins ↔ x ∈ order ∧ (touchesPhi f x ∨ x ∈ pre ∧ f.Pinned x)

theorem PinsOf.step {pre post pins : List InstId} {i : InstId} (hf : f.Consistent)
    (ho : Ordered f order) (hsplit : order = pre ++ i :: post) (h : PinsOf f order pre pins) :
    PinsOf f order (pre ++ [i]) (if (users f i).any (· ∈ pins) then i :: pins else pins) := by
  have hi : i ∈ order := by simp [hsplit]
  have hany : (users f i).any (· ∈ pins) = true ↔ ∃ k, f.Feeds i k ∧ f.Pinned k := by
    simp only [List.any_eq_true, decide_eq_true_eq, mem_users_iff hf]
    constructor
    · rintro ⟨k, hread, hk⟩
      obtain ⟨hk, hpin⟩ := (h k).mp hk
      refine ⟨k, ⟨ho.mem_iff.mp hi, ho.mem_iff.mp hk, hread⟩, ?_⟩
      rcases hpin with htouch | ⟨-, hpin⟩
      · exact ⟨k, .refl, htouch⟩
      · exact hpin
    · rintro ⟨k, hfeeds, hpin⟩
      refine ⟨k, hfeeds.reads, (h k).mpr ⟨ho.mem_iff.mpr hfeeds.target, .inr ⟨?_, hpin⟩⟩⟩
      exact ho.readersFirst hsplit hfeeds
  intro x
  split
  · next hread =>
    have hpin : f.Pinned i := pinned_iff.mpr (.inr (hany.mp hread))
    rw [List.mem_cons, h x, List.mem_append, List.mem_singleton]
    by_cases hx : x = i
    · subst hx
      simp [hi, hpin]
    · simp [hx]
  · next hread =>
    rw [h x, List.mem_append, List.mem_singleton]
    by_cases hx : x = i
    · subst hx
      have : f.Pinned x → touchesPhi f x := fun hpin =>
        (pinned_iff.mp hpin).resolve_right fun hk => hread (hany.mpr hk)
      tauto
    · simp [hx]

/-- One pass over the order finds everything that is pinned. -/
theorem mem_pinned_iff (hf : f.Consistent) (ho : Ordered f order) :
    x ∈ pinned f order ↔ f.Floating x ∧ f.Pinned x := by
  suffices hall : ∀ (post pre pins : List InstId), order = pre ++ post → PinsOf f order pre pins →
      PinsOf f order order (post.foldl
        (fun pins i => if (users f i).any (· ∈ pins) then i :: pins else pins) pins) by
    have hstart : PinsOf f order [] (order.filter (touchesPhi f)) := by
      intro x
      simp
    rw [pinned, hall order [] _ rfl hstart x, ← ho.mem_iff]
    refine and_congr_right fun hx => ⟨?_, fun hpin => .inr ⟨hx, hpin⟩⟩
    rintro (htouch | ⟨-, hpin⟩)
    · exact ⟨x, .refl, htouch⟩
    · exact hpin
  intro post
  induction post with
  | nil =>
    intro pre pins hsplit h
    rw [List.append_nil] at hsplit
    rwa [List.foldl_nil, hsplit] at *
  | cons i post ih =>
    intro pre pins hsplit h
    exact ih (pre ++ [i]) _ (by simp [hsplit]) (h.step hf ho hsplit)

/-! ## Schedules -/

/-- The floating instructions that are not pinned, each after all that read it. -/
structure Scheduled (f : Func) (is : List InstId) : Prop where
  nodup : is.Nodup
  mem_iff : ∀ {i}, i ∈ is ↔ f.Floating i ∧ ¬f.Pinned i
  readersFirst : ∀ {pre i post k}, is = pre ++ i :: post → f.Feeds i k → k ∈ pre

theorem schedule_spec {is : List InstId} (hf : f.Consistent) (h : schedule f = .ok is) :
    Scheduled f is := by
  obtain ⟨order, horder, rfl⟩ := (schedule_eq_ok_iff hf).mp h
  have ho := ordered_of_consumersFirst hf horder
  have hmem : ∀ {i}, i ∈ order.filter (· ∉ pinned f order) ↔ f.Floating i ∧ ¬f.Pinned i := by
    intro i
    simp only [List.mem_filter, ho.mem_iff, decide_eq_true_eq, mem_pinned_iff hf ho]
    tauto
  refine ⟨ho.nodup.filter _, hmem, fun {pre i post k} hsplit hfeeds => ?_⟩
  -- the reader of an instruction that is not pinned is not pinned either
  have hi := hmem.mp (by rw [hsplit]; simp : i ∈ order.filter (· ∉ pinned f order))
  have hk := hmem.mpr ⟨hfeeds.target, fun hpin => hi.2 (.of_feeds hfeeds hpin)⟩
  obtain ⟨l₁, l₂, rfl, hl₁, hl₂⟩ := List.filter_eq_append_iff.mp hsplit
  obtain ⟨l₃, l₄, rfl, hl₃, -, -⟩ := List.filter_eq_cons_iff.mp hl₂
  have hbefore := ho.readersFirst (by simp : l₁ ++ (l₃ ++ i :: l₄) = (l₁ ++ l₃) ++ i :: l₄) hfeeds
  rw [← hl₁]
  refine List.mem_filter.mpr ⟨?_, (List.mem_filter.mp hk).2⟩
  rcases List.mem_append.mp hbefore with h | h
  · exact h
  · exact absurd (List.mem_filter.mp hk).2 (hl₃ k h)

/-- A circle leaves nothing to place. -/
theorem schedule_of_circle (hf : f.Consistent) (hcircle : ¬f.Acyclic) :
    schedule f = .error .floatingCycle := by
  unfold schedule
  rw [floating_eq hf]
  show (consumersFirst f _ >>= _) = _
  rw [(consumersFirst_spec (hf.placed_nodup.filter _) mem_floating).2 hcircle]
  rfl

theorem exists_schedule_iff (hf : f.Consistent) : (∃ is, schedule f = .ok is) ↔ f.Acyclic := by
  constructor
  · rintro ⟨is, h⟩
    by_contra hcircle
    rw [schedule_of_circle hf hcircle] at h
    cases h
  · intro hacyclic
    obtain ⟨order, horder⟩ := (consumersFirst_spec (hf.placed_nodup.filter _) mem_floating).1
      hacyclic
    exact ⟨_, (schedule_eq_ok_iff hf).mpr ⟨order, horder, rfl⟩⟩

end Motion

end SsaOpt
