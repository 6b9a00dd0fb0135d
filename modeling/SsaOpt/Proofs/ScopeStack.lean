import Mathlib.Data.Finmap
import SsaOpt.Proofs.Checked
import SsaOpt.Proofs.Layers

/-! A table with scopes refines a stack of finite maps.

The stack has one map for each open scope, innermost first, and at the bottom one for what was bound
outside of all scopes. The table keeps a single map and a journal; its layers are what the keys are
bound to in the whole stack, in the stack without its top, and so on down to the bottom map. -/

namespace SsaOpt

namespace ScopedTable

/-- What can be done to a table. -/
inductive Step (κ ν : Type) where
  | push
  | pop
  | insert (k : κ) (v : ν)
deriving DecidableEq, Repr

/-- The number of open scopes after some steps, `n` of them open before; none if a scope is to be
closed and none is open. -/
def depth? {κ ν : Type} : Nat → List (Step κ ν) → Option Nat
  | n, [] => some n
  | n, .push :: steps => depth? (n + 1) steps
  | 0, .pop :: _ => none
  | n + 1, .pop :: steps => depth? n steps
  | n, .insert _ _ :: steps => depth? n steps

/-- Every scope that the steps close is open then. -/
def PopsOpen {κ ν : Type} (steps : List (Step κ ν)) : Prop := (depth? 0 steps).isSome

/-- The steps close the scopes that they open, and no others. -/
def Balanced {κ ν : Type} (steps : List (Step κ ν)) : Prop := depth? 0 steps = some 0

variable {κ ν : Type}

instance (steps : List (Step κ ν)) : Decidable (PopsOpen steps) :=
  inferInstanceAs (Decidable ((depth? 0 steps).isSome = true))

instance (steps : List (Step κ ν)) : Decidable (Balanced steps) :=
  inferInstanceAs (Decidable (depth? 0 steps = some 0))

variable [DecidableEq κ]

def step (t : ScopedTable κ ν) : Step κ ν → Checked (ScopedTable κ ν)
  | .push => .ok t.pushScope
  | .pop => t.popScope
  | .insert k v => .ok (t.insert k v)

/-- The table after some steps, empty at first. -/
def run (steps : List (Step κ ν)) : Checked (ScopedTable κ ν) := steps.foldlM step {}

end ScopedTable

open ScopedTable

/-- Finite maps, the innermost first. -/
abbrev MapStack (κ ν : Type) := List (Finmap fun _ : κ => ν)

namespace MapStack

variable {κ ν : Type} [DecidableEq κ]

/-- What the key is bound to in the innermost map that binds it. -/
def binding (s : MapStack κ ν) (k : κ) : Option ν := s.findSome? (Finmap.lookup k)

/-- Bind the key in the top map. -/
def write (k : κ) (v : ν) : MapStack κ ν → MapStack κ ν
  | [] => []
  | m :: outer => m.insert k v :: outer

def step (s : MapStack κ ν) : Step κ ν → MapStack κ ν
  | .push => ∅ :: s
  | .pop => s.tail
  | .insert k v => s.write k v

/-- The stack after some steps, at first with nothing but the bottom map. -/
def after (steps : List (Step κ ν)) : MapStack κ ν := steps.foldl step [∅]

/-- The bindings of the stack, then those without its top map, and so on. -/
def views : MapStack κ ν → List (κ → Option ν)
  | [] => []
  | m :: outer => binding (m :: outer) :: views outer

theorem length_views (s : MapStack κ ν) : s.views.length = s.length := by
  induction s with
  | nil => rfl
  | cons m outer ih => simp [views, ih]

theorem length_write (s : MapStack κ ν) (k : κ) (v : ν) : (s.write k v).length = s.length := by
  cases s <;> rfl

theorem binding_cons (m : Finmap fun _ : κ => ν) (s : MapStack κ ν) (k : κ) :
    binding (m :: s) k = (m.lookup k).or (s.binding k) := by
  unfold binding
  rw [List.findSome?_cons]
  cases m.lookup k <;> rfl

theorem binding_insert (m : Finmap fun _ : κ => ν) (s : MapStack κ ν) (k k' : κ) (v : ν) :
    binding (m.insert k v :: s) k' = if k' = k then some v else binding (m :: s) k' := by
  rw [binding_cons, binding_cons]
  split
  · next hk => rw [hk, Finmap.lookup_insert, Option.some_or]
  · next hk => rw [Finmap.lookup_insert_of_ne _ hk]

end MapStack

namespace ScopedTable

variable {κ ν : Type} {n d : Nat} {steps front back inner : List (Step κ ν)}

/-! ## Open scopes -/

theorem depth?_append (n : Nat) (front back : List (Step κ ν)) :
    depth? n (front ++ back) = (depth? n front).bind fun d => depth? d back := by
  fun_induction depth? n front with
  | case1 n => rfl
  | case2 n front ih => exact ih
  | case3 front => rfl
  | case4 n front ih => exact ih
  | case5 n k v front ih => exact ih

/-- Scopes that were open before stay open. -/
theorem depth?_add (m : Nat) (h : depth? n steps = some d) :
    depth? (m + n) steps = some (m + d) := by
  fun_induction depth? n steps with
  | case1 n => rw [depth?, Option.some.inj h]
  | case2 n steps ih => exact ih h
  | case3 steps => cases h
  | case4 n steps ih => exact ih h
  | case5 n k v steps ih => exact ih h

theorem PopsOpen.of_prefix (h : PopsOpen steps) (hfront : front <+: steps) : PopsOpen front := by
  obtain ⟨back, rfl⟩ := hfront
  unfold PopsOpen at h ⊢
  rw [depth?_append] at h
  exact Option.isSome_of_isSome_bind h

theorem depth?_append_eq_some {e : Nat} :
    depth? n (front ++ back) = some e ↔ ∃ d, depth? n front = some d ∧ depth? d back = some e := by
  rw [depth?_append, Option.bind_eq_some_iff]

/-- For each open scope there is the step that opened it, and since then the steps were balanced. -/
theorem exists_opening (h : depth? 0 front = some (d + 1)) : ∃ before inner,
    front = before ++ .push :: inner ∧ Balanced inner ∧ depth? 0 before = some d := by
  induction hlen : front.length using Nat.strong_induction_on generalizing front d with
  | _ len ih =>
    rcases List.eq_nil_or_concat front with rfl | ⟨init, x, rfl⟩
    · cases h
    · rw [List.concat_eq_append] at h hlen ⊢
      rw [List.length_append, List.length_singleton] at hlen
      obtain ⟨e, hinit, hx⟩ := depth?_append_eq_some.mp h
      cases x with
      | push =>
        obtain rfl : e = d := Nat.succ.inj (Option.some.inj hx)
        exact ⟨init, [], rfl, rfl, hinit⟩
      | insert k v =>
        obtain rfl : e = d + 1 := Option.some.inj hx
        obtain ⟨before, inner, rfl, hinner, hbefore⟩ := ih init.length (by omega) hinit rfl
        refine ⟨before, inner ++ [.insert k v], by simp, ?_, hbefore⟩
        exact depth?_append_eq_some.mpr ⟨0, hinner, rfl⟩
      | pop =>
        -- the scope just closed lies within the one that is still open
        obtain rfl : e = d + 1 + 1 := by
          cases e with
          | zero => cases hx
          | succ e => rw [Option.some.inj hx]
        obtain ⟨mid, last, rfl, hlast, hmid⟩ := ih init.length (by omega) hinit rfl
        rw [List.length_append, List.length_cons] at hlen
        obtain ⟨before, inner, rfl, hinner, hbefore⟩ := ih mid.length (by omega) hmid rfl
        refine ⟨before, inner ++ .push :: (last ++ [.pop]), by simp, ?_, hbefore⟩
        refine depth?_append_eq_some.mpr ⟨0, hinner, ?_⟩
        exact depth?_append_eq_some.mpr ⟨1, depth?_add 1 hlast, rfl⟩

/-! ## Refinement -/

variable [DecidableEq κ] {t : ScopedTable κ ν} {s : MapStack κ ν}

/-- The layers of the table are the bindings of the stack from the top down. -/
structure Refines (t : ScopedTable κ ν) (s : MapStack κ ν) : Prop where
  nested : t.Nested
  layers : t.layers = s.views

theorem Refines.find?_eq (h : t.Refines s) : t.find? = s.binding := by
  have hlayers := h.layers
  cases s with
  | nil => cases hlayers
  | cons m outer => exact (List.cons.inj hlayers).1

theorem refines_empty : Refines ({} : ScopedTable κ ν) [∅] := ⟨nested_empty, rfl⟩

theorem Refines.push (h : t.Refines s) : t.pushScope.Refines (∅ :: s) where
  nested := h.nested.pushScope
  layers := by
    rw [layers_pushScope, h.layers, h.find?_eq]
    rfl

theorem Refines.insert (h : t.Refines s) (k : κ) (v : ν) :
    (t.insert k v).Refines (s.write k v) where
  nested := h.nested.insert k v
  layers := by
    rw [layers_insert h.nested, h.layers]
    have hfind := h.find?_eq
    cases s with
    | nil => cases h.layers
    | cons m outer =>
      refine congrArg₂ List.cons (funext fun k' => ?_) rfl
      rw [find?_insert, hfind, MapStack.binding_insert]

/-- A scope is open if the stack has a map above the bottom one. -/
theorem Refines.pop (h : t.Refines s) (hopen : 1 < s.length) :
    ∃ t', t.popScope = .ok t' ∧ t'.Refines s.tail := by
  have hlen : t.marks.length + 1 = s.length := by
    rw [← s.length_views, ← h.layers, ScopedTable.layers, List.length_cons, List.length_map]
  obtain ⟨t', ht'⟩ : ∃ t', t.popScope = .ok t' := by
    cases hmarks : t.marks with
    | nil =>
      rw [hmarks, List.length_nil] at hlen
      omega
    | cons mark marks => simp [popScope, hmarks]
  obtain ⟨hlayers, hnested, -⟩ := layers_popScope h.nested ht'
  refine ⟨t', ht', hnested, ?_⟩
  rw [hlayers, h.layers]
  cases s <;> rfl

/-- Steps from related states, with `n` scopes open, lead to related states. -/
theorem Refines.foldlM (h : t.Refines s) (hs : s.length = n + 1) (hd : depth? n steps = some d) :
    ∃ t', steps.foldlM step t = .ok t' ∧ t'.Refines (steps.foldl MapStack.step s) := by
  fun_induction depth? n steps generalizing t s with
  | case1 n => exact ⟨t, rfl, h⟩
  | case2 n steps ih =>
    have hs' : List.length (∅ :: s) = n + 1 + 1 := by rw [List.length_cons, hs]
    exact ih h.push hs' hd
  | case3 steps => cases hd
  | case4 n steps ih =>
    have hs' : s.tail.length = n + 1 := by rw [List.length_tail, hs, Nat.add_sub_cancel]
    obtain ⟨t₁, ht₁, h₁⟩ := h.pop (by omega)
    obtain ⟨t', ht', h'⟩ := ih h₁ hs' hd
    exact ⟨t', foldlM_cons_ok_iff.mpr ⟨t₁, ht₁, ht'⟩, h'⟩
  | case5 n k v steps ih => exact ih (h.insert k v) ((s.length_write k v).trans hs) hd

theorem PopsOpen.exists_run (h : PopsOpen steps) :
    ∃ t, run steps = .ok t ∧ t.Refines (MapStack.after steps) := by
  obtain ⟨d, hd⟩ := Option.isSome_iff_exists.mp h
  exact refines_empty.foldlM rfl hd

/-- Steps that close only what they open do not touch the maps below the top. -/
theorem foldl_step_append (hd : depth? n steps = some d) (top below : MapStack κ ν)
    (htop : top.length = n + 1) : ∃ top' : MapStack κ ν, top'.length = d + 1 ∧
      steps.foldl MapStack.step (top ++ below) = top' ++ below := by
  fun_induction depth? n steps generalizing top with
  | case1 n => exact ⟨top, by rw [htop, Option.some.inj hd], rfl⟩
  | case2 n steps ih => exact ih hd (∅ :: top) (by simp [htop])
  | case3 steps => cases hd
  | case4 n steps ih =>
    cases top with
    | nil => cases htop
    | cons m top => exact ih hd top (Nat.succ.inj htop)
  | case5 n k v steps ih =>
    cases top with
    | nil => cases htop
    | cons m top => exact ih hd (m.insert k v :: top) htop

/-- Closing a scope brings back the stack in which it was opened. -/
theorem Balanced.after_eq (h : Balanced inner) (before : List (Step κ ν)) :
    MapStack.after (before ++ .push :: inner ++ [.pop]) = MapStack.after before := by
  unfold MapStack.after
  rw [List.foldl_append, List.foldl_append, List.foldl_cons]
  obtain ⟨top, htop, heq⟩ := foldl_step_append h [∅] (before.foldl MapStack.step [∅]) rfl
  show MapStack.step (inner.foldl MapStack.step ([∅] ++ _)) .pop = _
  rw [heq]
  obtain ⟨m, rfl⟩ := List.length_eq_one_iff.mp htop
  rfl

/-- **A table with scopes is a stack of finite maps.** Take steps that close only open scopes. After
each of them the table has every key bound as the innermost map of the stack that binds it has it:
opening a scope adds an empty map, closing one discards the top map, and a key is bound in the top
map, which is the bottom one if no scope is open. Each closing step has an opening step to which it
belongs, with balanced steps in between, and the table then binds all keys as it did before that
step. -/
theorem run_refines_stack {steps : List (Step κ ν)} (h : PopsOpen steps) :
    (∀ done, done <+: steps →
      ∃ t, run done = .ok t ∧ ∀ k, t.find? k = (MapStack.after done).binding k) ∧
    (∀ front, front ++ [.pop] <+: steps →
      ∃ before inner, front = before ++ .push :: inner ∧ Balanced inner) ∧
    ∀ before inner, before ++ .push :: inner ++ [.pop] <+: steps → Balanced inner →
      ∃ t t', run before = .ok t ∧ run (before ++ .push :: inner ++ [.pop]) = .ok t' ∧
        ∀ k, t'.find? k = t.find? k := by
  refine ⟨fun done hdone => ?_, fun front hfront => ?_, fun before inner hdone hinner => ?_⟩
  · obtain ⟨t, ht, hrefines⟩ := (h.of_prefix hdone).exists_run
    exact ⟨t, ht, congrFun hrefines.find?_eq⟩
  · obtain ⟨e, he⟩ := Option.isSome_iff_exists.mp (h.of_prefix hfront)
    obtain ⟨d, hd, hpop⟩ := depth?_append_eq_some.mp he
    cases d with
    | zero => cases hpop
    | succ d =>
      obtain ⟨before, inner, hsplit, hinner, -⟩ := exists_opening hd
      exact ⟨before, inner, hsplit, hinner⟩
  · obtain ⟨t', ht', hrefines'⟩ := (h.of_prefix hdone).exists_run
    have hbefore : before <+: steps := by
      rw [List.append_assoc] at hdone
      exact (List.prefix_append _ _).trans hdone
    obtain ⟨t, ht, hrefines⟩ := (h.of_prefix hbefore).exists_run
    refine ⟨t, t', ht, ht', fun k => ?_⟩
    rw [hrefines'.find?_eq, hrefines.find?_eq, hinner.after_eq]

/-- A key is bound outside of all scopes, and again in a scope. -/
def shadowed : List (Step Nat Nat) := [.insert 1 10, .push, .insert 1 11, .insert 2 20]

/-- The key is bound twice more, before and after a scope of its own that hides another key. -/
def shadowing : List (Step Nat Nat) := [.insert 1 12, .push, .insert 2 21, .pop, .insert 1 13]

/-- While the inner scope is open the key has its last binding, and afterwards the one before. -/
theorem run_refines_stack_shadowing :
    PopsOpen (shadowed ++ .push :: shadowing ++ [.pop]) ∧ Balanced shadowing ∧
      (∃ t, run (shadowed ++ .push :: shadowing) = .ok t ∧ t.find? 1 = some 13 ∧
        (MapStack.after (shadowed ++ .push :: shadowing)).binding 1 = some 13) ∧
      ∃ t t', run shadowed = .ok t ∧ run (shadowed ++ .push :: shadowing ++ [.pop]) = .ok t' ∧
        t.find? 1 = some 11 ∧ ∀ k, t'.find? k = t.find? k := by
  have hopen : PopsOpen (shadowed ++ .push :: shadowing ++ [.pop]) := by decide
  have hbalanced : Balanced shadowing := by decide
  obtain ⟨hbinding, -, hrestores⟩ := run_refines_stack hopen
  obtain ⟨t₁, ht₁, hfind₁⟩ := hbinding (shadowed ++ .push :: shadowing) (List.prefix_append _ _)
  obtain ⟨t, t', ht, ht', hback⟩ := hrestores _ _ (List.prefix_refl _) hbalanced
  have hinner : t₁.find? 1 = some 13 := by
    obtain ⟨u, hu, hfind⟩ := exists_ok_of_any (x := run (shadowed ++ .push :: shadowing))
      (q := fun t => t.find? 1 = some 13) (by decide)
    obtain rfl := Except.ok.inj (ht₁.symm.trans hu)
    exact of_decide_eq_true hfind
  have houter : t.find? 1 = some 11 := by
    obtain ⟨u, hu, hfind⟩ := exists_ok_of_any (x := run shadowed)
      (q := fun t => t.find? 1 = some 11) (by decide)
    obtain rfl := Except.ok.inj (ht.symm.trans hu)
    exact of_decide_eq_true hfind
  exact ⟨hopen, hbalanced, ⟨t₁, ht₁, hinner, hfind₁ 1 ▸ hinner⟩, t, t', ht, ht', houter, hback⟩

end ScopedTable

end SsaOpt
