import Mathlib.Data.List.Forall2
import SsaOpt.Rejection

/-! Computations that may end early: what the success of a sequence or of a traversal says about
its parts. -/

namespace SsaOpt

variable {ε α β : Type}

theorem bind_eq_ok_iff {x : Except ε α} {k : α → Except ε β} {b : β} :
    (x >>= k) = .ok b ↔ ∃ a, x = .ok a ∧ k a = .ok b := by
  cases x <;> simp [bind, Except.bind]

theorem exists_ok_bind {x : Except ε α} {k : α → Except ε β} {a : α} (hx : x = .ok a)
    (hk : ∃ b, k a = .ok b) : ∃ b, (x >>= k) = .ok b :=
  hk.imp fun _ hb => bind_eq_ok_iff.mpr ⟨a, hx, hb⟩

theorem pure_eq_ok_iff {a b : α} : (pure a : Except ε α) = .ok b ↔ a = b := by
  simp [pure, Except.pure]

theorem not_throw_eq_ok {e : ε} {a : α} : (throw e : Except ε α) ≠ .ok a := by
  simp [throw, throwThe, MonadExceptOf.throw]

/-- The results of a list of computations that all succeed. -/
theorem mapM_ok_iff {f : α → Except ε β} {l : List α} {ys : List β} :
    l.mapM f = .ok ys ↔ List.Forall₂ (fun x y => f x = .ok y) l ys := by
  induction l generalizing ys with
  | nil => cases ys <;> simp [pure, Except.pure]
  | cons x l ih =>
    rw [List.mapM_cons, bind_eq_ok_iff]
    constructor
    · rintro ⟨y, hy, h⟩
      obtain ⟨zs, hzs, h⟩ := bind_eq_ok_iff.mp h
      obtain rfl := pure_eq_ok_iff.mp h
      exact .cons hy (ih.mp hzs)
    · rintro (_ | ⟨hy, hzs⟩)
      exact ⟨_, hy, bind_eq_ok_iff.mpr ⟨_, ih.mpr hzs, rfl⟩⟩

theorem foldlM_cons_ok_iff {step : β → α → Except ε β} {a : α} {l : List α} {b c : β} :
    (a :: l).foldlM step b = .ok c ↔ ∃ b', step b a = .ok b' ∧ l.foldlM step b' = .ok c := by
  rw [List.foldlM_cons, bind_eq_ok_iff]

theorem foldlM_append_ok_iff {step : β → α → Except ε β} {l l' : List α} {b c : β} :
    (l ++ l').foldlM step b = .ok c ↔
      ∃ b', l.foldlM step b = .ok b' ∧ l'.foldlM step b' = .ok c := by
  rw [List.foldlM_append, bind_eq_ok_iff]

/-- What every step keeps, a successful fold keeps. -/
theorem foldlM_keeps {step : β → α → Except ε β} {P : β → Prop} {l : List α}
    (hstep : ∀ b a b', a ∈ l → P b → step b a = .ok b' → P b') {b c : β} (hb : P b)
    (h : l.foldlM step b = .ok c) : P c := by
  induction l generalizing b with
  | nil => exact pure_eq_ok_iff.mp h ▸ hb
  | cons a l ih =>
    obtain ⟨b', hb', h⟩ := foldlM_cons_ok_iff.mp h
    exact ih (fun b a b' ha => hstep b a b' (List.mem_cons_of_mem _ ha))
      (hstep b a b' List.mem_cons_self hb hb') h

/-- A fold succeeds if every step does. The invariant may speak of the entries that the fold has
been through and of those still to come. -/
theorem exists_foldlM {step : β → α → Except ε β} {P : List α → List α → β → Prop}
    (hstep : ∀ {front a back b}, P front (a :: back) b →
      ∃ b', step b a = .ok b' ∧ P (front ++ [a]) back b') {l : List α} {b : β} (hb : P [] l b) :
    ∃ c, l.foldlM step b = .ok c ∧ P l [] c := by
  suffices h : ∀ (back front : List α) (b : β), P front back b →
      ∃ c, back.foldlM step b = .ok c ∧ P (front ++ back) [] c from h l [] b hb
  intro back
  induction back with
  | nil =>
    intro front b hb
    exact ⟨b, rfl, by rwa [List.append_nil]⟩
  | cons a back ih =>
    intro front b hb
    obtain ⟨b', hb', hP⟩ := hstep hb
    obtain ⟨c, hc, hP⟩ := ih (front ++ [a]) b' hP
    refine ⟨c, foldlM_cons_ok_iff.mpr ⟨b', hb', hc⟩, ?_⟩
    rwa [List.append_assoc] at hP

theorem mem_filterAuxM {test : α → Except ε Bool} {l acc r : List α}
    (h : List.filterAuxM test l acc = .ok r) {a : α} :
    a ∈ r ↔ a ∈ acc ∨ a ∈ l ∧ test a = .ok true := by
  induction l generalizing acc with
  | nil =>
    obtain rfl := pure_eq_ok_iff.mp h
    simp
  | cons b l ih =>
    obtain ⟨keep, hkeep, h⟩ := bind_eq_ok_iff.mp h
    rw [ih h]
    by_cases hab : a = b
    · subst hab
      cases keep <;> simp [hkeep]
    · cases keep <;> simp [hab]

theorem exists_filterM {test : α → Except ε Bool} {l : List α} (h : ∀ a ∈ l, ∃ r, test a = .ok r) :
    ∃ r, l.filterM test = .ok r := by
  suffices hall : ∀ (l acc : List α), (∀ a ∈ l, ∃ r, test a = .ok r) →
      ∃ r, List.filterAuxM test l acc = .ok r by
    obtain ⟨r, hr⟩ := hall l [] h
    exact ⟨r.reverse, bind_eq_ok_iff.mpr ⟨r, hr, rfl⟩⟩
  intro l
  induction l with
  | nil => exact fun acc _ => ⟨acc, rfl⟩
  | cons a l ih =>
    intro acc h
    obtain ⟨keep, hkeep⟩ := h a List.mem_cons_self
    obtain ⟨r, hr⟩ := ih (cond keep (a :: acc) acc) fun b hb => h b (List.mem_cons_of_mem _ hb)
    exact ⟨r, bind_eq_ok_iff.mpr ⟨keep, hkeep, hr⟩⟩

theorem exists_filterMapM {test : α → Except ε (Option β)} {l : List α}
    (h : ∀ a ∈ l, ∃ r, test a = .ok r) : ∃ r, l.filterMapM test = .ok r := by
  suffices hall : ∀ (l : List α) (acc : List β), (∀ a ∈ l, ∃ r, test a = .ok r) →
      ∃ r, List.filterMapM.loop test l acc = .ok r from hall l [] h
  intro l
  induction l with
  | nil => exact fun acc _ => ⟨acc.reverse, rfl⟩
  | cons a l ih =>
    intro acc h
    have htail : ∀ b ∈ l, ∃ r, test b = .ok r := fun b hb => h b (List.mem_cons_of_mem _ hb)
    obtain ⟨o, ho⟩ := h a List.mem_cons_self
    cases o with
    | none =>
      obtain ⟨r, hr⟩ := ih acc htail
      exact ⟨r, bind_eq_ok_iff.mpr ⟨none, ho, hr⟩⟩
    | some b =>
      obtain ⟨r, hr⟩ := ih (b :: acc) htail
      exact ⟨r, bind_eq_ok_iff.mpr ⟨some b, ho, hr⟩⟩

/-- A filter whose test never fails is an ordinary filter. -/
theorem filterM_eq_ok {test : α → Except ε Bool} {p : α → Bool} {l : List α}
    (h : ∀ a ∈ l, test a = .ok (p a)) : l.filterM test = .ok (l.filter p) := by
  suffices hall : ∀ (l acc : List α), (∀ a ∈ l, test a = .ok (p a)) →
      List.filterAuxM test l acc = .ok ((l.filter p).reverse ++ acc) by
    refine bind_eq_ok_iff.mpr ⟨_, hall l [] h, ?_⟩
    rw [List.append_nil, List.reverse_reverse]
    rfl
  intro l
  induction l with
  | nil => exact fun acc _ => rfl
  | cons a l ih =>
    intro acc h
    refine bind_eq_ok_iff.mpr ⟨p a, h a List.mem_cons_self, ?_⟩
    rw [ih _ fun b hb => h b (List.mem_cons_of_mem _ hb)]
    cases hp : p a <;> simp [hp]

/-- A filter with a fallible test lets through what passes the test. -/
theorem mem_filterM {test : α → Except ε Bool} {l r : List α} (h : l.filterM test = .ok r)
    {a : α} : a ∈ r ↔ a ∈ l ∧ test a = .ok true := by
  obtain ⟨r', hr', h⟩ := bind_eq_ok_iff.mp h
  obtain rfl := pure_eq_ok_iff.mp h
  rw [List.mem_reverse, mem_filterAuxM hr']
  simp

theorem mem_filterMapM {test : α → Except ε (Option β)} {l : List α} {r : List β}
    (h : l.filterMapM test = .ok r) {b : β} : b ∈ r ↔ ∃ a ∈ l, test a = .ok (some b) := by
  suffices hall : ∀ (l : List α) (acc r : List β), List.filterMapM.loop test l acc = .ok r →
      (b ∈ r ↔ b ∈ acc ∨ ∃ a ∈ l, test a = .ok (some b)) by
    simpa using hall l [] r h
  intro l
  induction l with
  | nil =>
    intro acc r h
    obtain rfl := pure_eq_ok_iff.mp h
    simp
  | cons a l ih =>
    intro acc r h
    obtain ⟨o, ho, h⟩ := bind_eq_ok_iff.mp h
    cases o with
    | none => simp [ih acc r h, ho]
    | some b' =>
      rw [ih (b' :: acc) r h]
      simp [ho, eq_comm, or_assoc, or_left_comm]

theorem exists_ok_of_any {x : Except ε α} {q : α → Bool} (h : x.toOption.any q = true) :
    ∃ a, x = .ok a ∧ q a = true := by
  cases x with
  | error e => cases h
  | ok a => exact ⟨a, rfl, h⟩

theorem ofOption_eq_ok_iff {o : Option α} {a : α} : Checked.ofOption o = .ok a ↔ o = some a := by
  cases o <;> simp [Checked.ofOption]

/-- A computation that can only fault succeeds in a context that can also reject. -/
theorem lift_eq_ok_iff {x : Checked α} {a : α} :
    (liftM x : Except Halt α) = .ok a ↔ x = .ok a := by
  cases x <;> simp [liftM, monadLift, MonadLift.monadLift, Except.mapError]

/-! ## Checks that decide -/

/-- The check succeeds exactly if `P` holds, and it never faults. -/
structure Decides (x : Except Halt Unit) (P : Prop) : Prop where
  ok_iff : x = .ok () ↔ P
  not_fault : ∀ e, x ≠ .error (.fault e)

namespace Decides

variable {x : Except Halt Unit} {P Q : Prop}

theorem accept (h : P) : Decides (pure ()) P where
  ok_iff := iff_of_true rfl h
  not_fault := by simp [pure, Except.pure]

theorem reject {r : Rejection} (h : ¬P) : Decides (.error (.rejected r)) P where
  ok_iff := iff_of_false (by simp) h
  not_fault := by simp

theorem congr (h : Decides x P) (hPQ : P ↔ Q) : Decides x Q := ⟨h.ok_iff.trans hPQ, h.not_fault⟩

/-- What a check establishes may be used by the checks that follow it. -/
theorem andThen {k : Unit → Except Halt Unit} (hx : Decides x P) (hk : P → Decides (k ()) Q) :
    Decides (x >>= k) (P ∧ Q) := by
  cases x with
  | error e =>
    have hP : ¬P := fun hP => by cases hx.ok_iff.mpr hP
    exact ⟨iff_of_false (by simp [bind, Except.bind]) fun h => hP h.1, hx.not_fault⟩
  | ok u =>
    have hP : P := hx.ok_iff.mp rfl
    exact (hk hP).congr (by simp [hP])

theorem lift {y : Checked α} {a : α} {k : α → Except Halt Unit} (hy : y = .ok a)
    (hk : Decides (k a) P) : Decides ((liftM y : Except Halt α) >>= k) P := by
  rw [lift_eq_ok_iff.mpr hy]
  exact hk

theorem guard {c : Prop} [Decidable c] {r : Rejection} (hx : ¬c → Decides x P) :
    Decides (if c then .error (.rejected r) else x) (¬c ∧ P) := by
  split
  · next hc => exact reject fun h => h.1 hc
  · next hc => exact (hx hc).congr (by simp [hc])

theorem forM {k : α → Except Halt Unit} {R : α → Prop} {l : List α}
    (h : ∀ a ∈ l, Decides (k a) (R a)) : Decides (l.forM k) (∀ a ∈ l, R a) := by
  induction l with
  | nil => exact accept (by simp)
  | cons a l ih =>
    have hl := ih fun b hb => h b (List.mem_cons_of_mem _ hb)
    exact (andThen (h a List.mem_cons_self) fun _ => hl).congr List.forall_mem_cons.symm

end Decides

end SsaOpt
