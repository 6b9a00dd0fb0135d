import Mathlib.Data.List.Nodup
import SsaOpt.Proofs.Arena

/-! What each edit of a function does to the views of its arenas. -/

namespace SsaOpt

/-- A list around the first occurrence of an entry. -/
theorem exists_split_of_idxOf? {α : Type} [DecidableEq α] {l : List α} {a : α} {k : Nat}
    (h : l.idxOf? a = some k) :
    ∃ front back, l = front ++ a :: back ∧ a ∉ front ∧ front.length = k := by
  obtain ⟨hk, hat, hbefore⟩ := List.idxOf?_eq_some_iff.mp h
  refine ⟨l.take k, l.drop (k + 1), ?_, ?_, List.length_take_of_le (Nat.le_of_lt hk)⟩
  · rw [← hat, ← List.drop_eq_getElem_cons hk, List.take_append_drop]
  · intro ha
    obtain ⟨m, hm, hma⟩ := List.mem_take_iff_getElem.mp ha
    exact hbefore m (by omega) hma

/-- In a list without repetition an entry has one place. -/
theorem split_unique {α : Type} {front back front' back' : List α} {a : α}
    (hnodup : (front ++ a :: back).Nodup) (h : front ++ a :: back = front' ++ a :: back') :
    front = front' ∧ back = back' := by
  have hfront : a ∉ front := fun ha => List.disjoint_of_nodup_append hnodup ha List.mem_cons_self
  have hback : a ∉ back := (List.nodup_cons.mp (List.nodup_append.mp hnodup).2.1).1
  obtain ⟨h₁, -, h₂⟩ := (List.append_cons_inj_of_notMem hfront hback).mp h
  exact ⟨h₁, h₂⟩

/-- Overwriting an entry with the last one erases it, up to order. -/
theorem swapRemove_perm {α : Type} [DecidableEq α] {l : List α} {a : α} {k : Nat}
    (h : l.idxOf? a = some k) : (swapRemove l k).Perm (l.erase a) := by
  obtain ⟨front, back, rfl, hfresh, rfl⟩ := exists_split_of_idxOf? h
  rw [List.erase_append_right _ hfresh, List.erase_cons_head]
  rcases List.eq_nil_or_concat back with rfl | ⟨middle, last, rfl⟩
  · simp [swapRemove]
  · have hl : front ++ a :: middle.concat last = (front ++ a :: middle) ++ [last] := by simp
    have hswap : swapRemove (front ++ a :: middle.concat last) front.length =
        front ++ last :: middle := by
      rw [hl, swapRemove, List.getLast?_concat]
      simp only [List.append_assoc, List.cons_append]
      rw [List.set_append_right _ _ (Nat.le_refl _), Nat.sub_self, List.set_cons_zero,
        ← List.cons_append, ← List.append_assoc, List.dropLast_concat]
    rw [hswap, List.concat_eq_append]
    exact (@List.perm_append_comm _ [last] middle).append_left front

theorem insertIdx_length_append {α : Type} (front back : List α) (a : α) :
    (front ++ back).insertIdx front.length a = front ++ a :: back := by
  induction front with
  | nil => rfl
  | cons _ _ ih => simpa using ih

namespace Func

variable {f g : Func} {i j d : InstId} {b : BlockId} {o : Operand} {u : Use} {x : Instruction}

/-- The two functions differ in use edges only. -/
structure SameBody (f g : Func) : Prop where
  blocks : g.blocks = f.blocks
  bare : ∀ i, g.bare? i = f.bare? i
  signature : g.signature = f.signature

theorem SameBody.refl (f : Func) : SameBody f f := ⟨rfl, fun _ => rfl, rfl⟩

theorem SameBody.trans {h : Func} (hfg : SameBody f g) (hgh : SameBody g h) : SameBody f h :=
  ⟨hgh.blocks.trans hfg.blocks, fun i => (hgh.bare i).trans (hfg.bare i),
    hgh.signature.trans hfg.signature⟩

theorem SameBody.homeOf (h : SameBody f g) (i : InstId) : g.homeOf i = f.homeOf i := by
  simp [Func.homeOf, h.bare]

theorem SameBody.listOf (h : SameBody f g) (b : BlockId) : g.listOf b = f.listOf b := by
  simp [Func.listOf, h.blocks]

/-! ## Edges -/

theorem sameBody_modifyInst {h : Instruction → Instruction} (hh : ∀ x, (h x).bare = x.bare) :
    SameBody f (f.modifyInst i h) :=
  ⟨rfl, fun _ => bare?_modifyInst_of_bare hh, rfl⟩

theorem linkOperand_spec (h : f.linkOperand o u = .ok g) :
    SameBody f g ∧
      ∀ d, g.usesOf d = if o = .inst d then f.usesOf d ++ [u] else f.usesOf d := by
  cases o with
  | inst e =>
    obtain ⟨x, hx, h⟩ := bind_eq_ok_iff.mp h
    obtain rfl := pure_eq_ok_iff.mp h
    refine ⟨sameBody_modifyInst fun _ => rfl, fun d => ?_⟩
    rw [usesOf_modifyInst (k := (· ++ [u])) (fun _ => rfl) hx]
    simp
  | arg | global | lit =>
    obtain rfl := pure_eq_ok_iff.mp h
    exact ⟨.refl f, by simp⟩

theorem exists_linkOperand (h : ∀ d, o = .inst d → ∃ x, f.inst d = .ok x) (u : Use) :
    ∃ g, f.linkOperand o u = .ok g := by
  cases o with
  | inst d =>
    obtain ⟨x, hx⟩ := h d rfl
    exact ⟨_, bind_eq_ok_iff.mpr ⟨x, hx, rfl⟩⟩
  | arg | global | lit => exact ⟨f, rfl⟩

theorem unlinkOperand_spec (h : f.unlinkOperand o u = .ok g) :
    SameBody f g ∧
      ∀ d, (g.usesOf d).Perm (if o = .inst d then (f.usesOf d).erase u else f.usesOf d) := by
  cases o with
  | inst e =>
    obtain ⟨x, hx, h⟩ := bind_eq_ok_iff.mp h
    have huses := usesOf_of_inst hx
    split at h
    · next hnone =>
      obtain rfl := pure_eq_ok_iff.mp h
      refine ⟨.refl f, fun d => ?_⟩
      split
      · next hd =>
        obtain rfl : e = d := by simpa using hd
        rw [List.erase_of_not_mem (huses ▸ List.idxOf?_eq_none_iff.mp hnone)]
      · rfl
    · next k hk =>
      obtain rfl := pure_eq_ok_iff.mp h
      refine ⟨sameBody_modifyInst fun _ => rfl, fun d => ?_⟩
      rw [usesOf_modifyInst (k := (swapRemove · k)) (fun _ => rfl) hx]
      by_cases hd : e = d
      · subst hd
        simpa using swapRemove_perm (huses ▸ hk)
      · simp [hd]
  | arg | global | lit =>
    obtain rfl := pure_eq_ok_iff.mp h
    exact ⟨.refl f, by simp⟩

theorem exists_unlinkOperand (h : ∀ d, o = .inst d → ∃ x, f.inst d = .ok x) (u : Use) :
    ∃ g, f.unlinkOperand o u = .ok g := by
  cases o with
  | inst d =>
    obtain ⟨x, hx⟩ := h d rfl
    cases hk : x.uses.idxOf? u with
    | none => exact ⟨_, bind_eq_ok_iff.mpr ⟨x, hx, by simp only [hk]; rfl⟩⟩
    | some k => exact ⟨_, bind_eq_ok_iff.mpr ⟨x, hx, by simp only [hk]; rfl⟩⟩
  | arg | global | lit => exact ⟨f, rfl⟩

/-! ## Operands -/

theorem pushOperand_spec (h : f.pushOperand i o = .ok g) :
    g.blocks = f.blocks ∧
      (∀ j, g.bare? j = if i = j then
        (f.bare? j).map fun x => { x with operands := x.operands ++ [o] } else f.bare? j) ∧
      ∀ d, g.usesOf d = if o = .inst d then f.usesOf d ++ [⟨i, (f.operandsOf i).length⟩]
        else f.usesOf d := by
  obtain ⟨x, hx, h⟩ := bind_eq_ok_iff.mp h
  obtain ⟨hbody, huses⟩ := linkOperand_spec h
  refine ⟨hbody.blocks, fun j => ?_, fun d => ?_⟩
  · rw [hbody.bare, bare?_modifyInst]
    exact fun _ => rfl
  · rw [huses, usesOf_modifyInst_of_uses, operandsOf_of_inst hx]
    exact fun _ => rfl

theorem redirect_spec (h : f.redirect u o = .ok g) :
    g.blocks = f.blocks ∧
      (∀ j, g.bare? j = if u.user = j then
        (f.bare? j).map fun x => { x with operands := x.operands.set u.index o } else f.bare? j) ∧
      ∀ d, g.usesOf d = if o = .inst d then f.usesOf d ++ [u] else f.usesOf d := by
  obtain ⟨x, hx, h⟩ := bind_eq_ok_iff.mp h
  split at h
  · obtain ⟨hbody, huses⟩ := linkOperand_spec h
    refine ⟨hbody.blocks, fun j => ?_, fun d => ?_⟩
    · rw [hbody.bare, bare?_modifyInst]
      exact fun _ => rfl
    · rw [huses, usesOf_modifyInst_of_uses]
      exact fun _ => rfl
  · exact absurd h not_throw_eq_ok

theorem redirect_signature (h : f.redirect u o = .ok g) : g.signature = f.signature := by
  obtain ⟨x, -, h⟩ := bind_eq_ok_iff.mp h
  split at h
  · exact (linkOperand_spec h).1.signature
  · exact absurd h not_throw_eq_ok

theorem exists_redirect (hu : u.index < (f.operandsOf u.user).length)
    (h : ∀ d, o = .inst d → (f.bare? d).isSome) : ∃ g, f.redirect u o = .ok g := by
  have hsome : (f.bare? u.user).isSome := by
    cases hb : f.bare? u.user with
    | none => simp [operandsOf, hb] at hu
    | some y => rfl
  obtain ⟨x, hx⟩ := exists_inst_of_bare hsome
  rw [operandsOf_of_inst hx] at hu
  obtain ⟨g, hg⟩ := exists_linkOperand (f := f.modifyInst u.user fun x =>
    { x with operands := x.operands.set u.index o })
    (fun d hd => exists_inst_of_bare (by simpa using h d hd)) u
  exact ⟨g, bind_eq_ok_iff.mpr ⟨x, hx, by rw [if_pos hu]; exact hg⟩⟩

/-- The operands of `j` after the slots named by some edges were made to read `o`. -/
def redirected (j : InstId) (o : Operand) (us : List Use) (os : List Operand) : List Operand :=
  us.foldl (fun os u => if u.user = j then os.set u.index o else os) os

theorem getElem?_redirected {us : List Use} {os : List Operand} {k : Nat} :
    (redirected j o us os)[k]? = if ⟨j, k⟩ ∈ us then os[k]?.map fun _ => o else os[k]? := by
  induction us generalizing os with
  | nil => rfl
  | cons u us ih =>
    obtain ⟨user, index⟩ := u
    rw [redirected, List.foldl_cons, ← redirected, ih]
    by_cases huser : user = j
    · subst huser
      rw [if_pos rfl, List.getElem?_set]
      by_cases hk : index = k
      · subst hk
        by_cases hlt : index < os.length <;> simp [hlt]
      · have hne : k ≠ index := fun h => hk h.symm
        simp [hk, hne]
    · have hne : j ≠ user := fun h => huser h.symm
      simp [huser, hne]

theorem redirectAll_spec {us : List Use} (h : us.foldlM (fun f u => f.redirect u o) f = .ok g) :
    g.blocks = f.blocks ∧
      (∀ j, g.bare? j =
        (f.bare? j).map fun x => { x with operands := redirected j o us x.operands }) ∧
      ∀ d, g.usesOf d = if o = .inst d then f.usesOf d ++ us else f.usesOf d := by
  induction us generalizing f with
  | nil =>
    obtain rfl := pure_eq_ok_iff.mp h
    exact ⟨rfl, fun j => by simp [redirected], by simp⟩
  | cons u us ih =>
    obtain ⟨f₁, h₁, h⟩ := foldlM_cons_ok_iff.mp h
    obtain ⟨hblocks, hbare, huses⟩ := redirect_spec h₁
    obtain ⟨hblocks', hbare', huses'⟩ := ih h
    refine ⟨hblocks'.trans hblocks, fun j => ?_, fun d => ?_⟩
    · rw [hbare', hbare]
      by_cases huser : u.user = j
      · simp [huser, redirected, Function.comp_def]
      · simp [huser, redirected]
    · rw [huses', huses]
      split <;> simp

theorem exists_redirectAll {us : List Use}
    (hus : ∀ u ∈ us, u.index < (f.operandsOf u.user).length)
    (h : ∀ d, o = .inst d → (f.bare? d).isSome) :
    ∃ g, us.foldlM (fun f u => f.redirect u o) f = .ok g := by
  induction us generalizing f with
  | nil => exact ⟨f, rfl⟩
  | cons u us ih =>
    obtain ⟨f₁, h₁⟩ := exists_redirect (hus u List.mem_cons_self) h
    have hbare := (redirect_spec h₁).2.1
    obtain ⟨g, hg⟩ := ih (f := f₁)
      (fun v hv => by
        have := hus v (List.mem_cons_of_mem _ hv)
        simp only [operandsOf, hbare] at this ⊢
        split
        · cases hv : f.bare? v.user <;> simp_all
        · exact this)
      (fun d hd => by
        rw [hbare]
        split <;> simp [h d hd])
    exact ⟨g, foldlM_cons_ok_iff.mpr ⟨f₁, h₁, hg⟩⟩

theorem replaceUses_spec {n : Nat} (hf : f.Consistent) (ho : o ≠ .inst i)
    (h : f.replaceUses i o = .ok (n, g)) :
    g.blocks = f.blocks ∧
      (∀ j, g.bare? j =
        (f.bare? j).map fun x => { x with operands := x.operands.map (Operand.subst i o) }) ∧
      ∀ d, g.usesOf d = if d = i then [] else
        if o = .inst d then f.usesOf d ++ f.usesOf i else f.usesOf d := by
  rw [replaceUses, if_neg ho] at h
  obtain ⟨x, hx, h⟩ := bind_eq_ok_iff.mp h
  obtain ⟨g', h', h⟩ := bind_eq_ok_iff.mp h
  obtain ⟨-, rfl⟩ := Prod.mk.inj (pure_eq_ok_iff.mp h)
  obtain ⟨hblocks, hbare, huses⟩ := redirectAll_spec h'
  rw [← usesOf_of_inst hx] at hbare huses
  refine ⟨hblocks, fun j => ?_, fun d => ?_⟩
  · rw [hbare, bare?_modifyInst_of_bare (by exact fun _ => rfl)]
    cases hj : f.bare? j with
    | none => rfl
    | some y =>
      -- the edges recorded on `i` name exactly the slots that read it
      have hslots : ∀ k, ⟨j, k⟩ ∈ f.usesOf i ↔ y.operands[k]? = some (.inst i) := by
        intro k
        simp [hf.mem_uses, slot, operandsOf, hj]
      have hops : redirected j o (f.usesOf i) y.operands =
          y.operands.map (Operand.subst i o) := by
        apply List.ext_getElem?
        intro k
        rw [getElem?_redirected, List.getElem?_map]
        cases hk : y.operands[k]? with
        | none => simp
        | some p =>
          simp only [hslots, hk, Option.some.injEq, Option.map_some, Operand.subst]
          split <;> rfl
      simp [hops]
  · rw [huses, usesOf_modifyInst (k := fun _ => []) (fun _ => rfl) hx]
    by_cases hd : d = i
    · subst hd
      simp [ho]
    · have hd' : i ≠ d := fun h => hd h.symm
      simp [hd, hd']

theorem slot_replaceUses {n : Nat} (hf : f.Consistent) (ho : o ≠ .inst i)
    (h : f.replaceUses i o = .ok (n, g)) (u : Use) :
    g.slot u = (f.slot u).map (Operand.subst i o) := by
  simp only [slot, operandsOf, (replaceUses_spec hf ho h).2.1]
  cases f.bare? u.user <;> simp

/-- The answer is the number of edges that were recorded on `i`. -/
theorem replaceUses_count {n : Nat} (ho : o ≠ .inst i) (h : f.replaceUses i o = .ok (n, g)) :
    n = (f.usesOf i).length := by
  rw [replaceUses, if_neg ho] at h
  obtain ⟨x, hx, h⟩ := bind_eq_ok_iff.mp h
  obtain ⟨g', -, h⟩ := bind_eq_ok_iff.mp h
  obtain ⟨hn, -⟩ := Prod.mk.inj (pure_eq_ok_iff.mp h)
  rw [usesOf_of_inst hx, hn]

theorem replaceUses_signature {n : Nat} (h : f.replaceUses i o = .ok (n, g)) :
    g.signature = f.signature := by
  rw [replaceUses] at h
  split at h
  · obtain ⟨-, rfl⟩ := Prod.mk.inj (pure_eq_ok_iff.mp h)
    rfl
  · obtain ⟨x, -, h⟩ := bind_eq_ok_iff.mp h
    obtain ⟨g', h', h⟩ := bind_eq_ok_iff.mp h
    obtain ⟨-, rfl⟩ := Prod.mk.inj (pure_eq_ok_iff.mp h)
    exact foldlM_keeps (P := fun g => g.signature = f.signature)
      (fun _ _ _ _ hg hstep => (redirect_signature hstep).trans hg) rfl h'

theorem exists_replaceUses (hf : f.Consistent) (hi : (f.bare? i).isSome)
    (ho : ∀ d, o = .inst d → (f.bare? d).isSome) : ∃ n g, f.replaceUses i o = .ok (n, g) := by
  rw [replaceUses]
  split
  · exact ⟨0, f, rfl⟩
  · obtain ⟨x, hx⟩ := exists_inst_of_bare hi
    have hslots : ∀ u ∈ x.uses, u.index <
        ((f.modifyInst i fun x => { x with uses := [] }).operandsOf u.user).length := by
      intro u hu
      rw [← usesOf_of_inst hx, hf.mem_uses] at hu
      rw [operandsOf, bare?_modifyInst_of_bare (by exact fun _ => rfl)]
      exact (List.getElem?_eq_some_iff.mp hu).1
    obtain ⟨g, hg⟩ := exists_redirectAll hslots fun d hd => by simpa using ho d hd
    exact ⟨_, g, bind_eq_ok_iff.mpr ⟨x, hx, bind_eq_ok_iff.mpr ⟨g, hg, rfl⟩⟩⟩

/-! ## Places -/

/-- `g` is `f` with `i`, which stood in no block, put into `b` between two parts of its list. -/
structure Placed (f : Func) (i : InstId) (b : BlockId) (front back : List InstId) (g : Func) :
    Prop where
  free : f.homeOf i = none
  split : f.listOf b = front ++ back
  size : g.numBlocks = f.numBlocks
  bare : ∀ j, g.bare? j =
    if i = j then (f.bare? j).map fun x => { x with home := some b } else f.bare? j
  uses : ∀ d, g.usesOf d = f.usesOf d
  lists : ∀ c, g.listOf c = if b = c then front ++ i :: back else f.listOf c
  known : (f.bare? i).isSome
  signature : g.signature = f.signature

theorem placed_of_insert {front back : List InstId} {w : List InstId → List InstId}
    {y : BasicBlock} (hx : f.inst i = .ok x) (hfree : ¬x.home.isSome) (hy : f.block b = .ok y)
    (hsplit : f.listOf b = front ++ back) (hw : w y.insts = front ++ i :: back) :
    Placed f i b front back
      ((f.modifyBlock b fun x => { x with insts := w x.insts }).modifyInst i
        fun x => { x with home := some b }) where
  free := by rw [homeOf_of_inst hx]; simpa using hfree
  split := hsplit
  size := by simp
  bare j := by rw [bare?_modifyInst (by exact fun _ => rfl), bare?_modifyBlock]
  uses d := by rw [usesOf_modifyInst_of_uses (by exact fun _ => rfl), usesOf_modifyBlock]
  lists c := by
    rw [listOf_modifyInst, listOf_modifyBlock (k := w) (by exact fun _ => rfl) hy]
    split
    · next hbc => rw [← hbc, listOf_of_block hy, hw]
    · rfl
  known := by simp [bare?_of_inst hx]
  signature := rfl

theorem insertAt_spec {front back : List InstId} (hsplit : f.listOf b = front ++ back)
    (h : f.insertAt i b front.length = .ok g) : Placed f i b front back g := by
  obtain ⟨x, hx, h⟩ := bind_eq_ok_iff.mp h
  split at h
  · exact absurd h not_throw_eq_ok
  · next hfree =>
    obtain ⟨y, hy, h⟩ := bind_eq_ok_iff.mp h
    obtain rfl := pure_eq_ok_iff.mp h
    refine placed_of_insert (w := fun l => l.insertIdx front.length i) hx hfree hy hsplit ?_
    rw [← listOf_of_block hy, hsplit, insertIdx_length_append]

theorem append_spec (h : f.append i b = .ok g) : Placed f i b (f.listOf b) [] g := by
  obtain ⟨x, hx, h⟩ := bind_eq_ok_iff.mp h
  split at h
  · exact absurd h not_throw_eq_ok
  · next hfree =>
    obtain ⟨y, hy, h⟩ := bind_eq_ok_iff.mp h
    obtain rfl := pure_eq_ok_iff.mp h
    refine placed_of_insert (w := (· ++ [i])) hx hfree hy (by simp) ?_
    rw [listOf_of_block hy]

theorem position?_spec {k : Nat} (h : f.position? i = .ok (some k)) :
    ∃ b front back, f.homeOf i = some b ∧ f.listOf b = front ++ i :: back ∧ front.length = k := by
  obtain ⟨x, hx, h⟩ := bind_eq_ok_iff.mp h
  split at h
  · simp [pure, Except.pure] at h
  · next b hb =>
    obtain ⟨y, hy, h⟩ := bind_eq_ok_iff.mp h
    obtain ⟨front, back, hsplit, -, hlen⟩ := exists_split_of_idxOf? (pure_eq_ok_iff.mp h)
    exact ⟨b, front, back, by rw [homeOf_of_inst hx, hb], by rw [listOf_of_block hy, hsplit], hlen⟩

theorem Consistent.position?_eq (hf : f.Consistent) {pre post : List InstId}
    (h : f.listOf b = pre ++ i :: post) : f.position? i = .ok (some pre.length) := by
  have hi : i ∈ f.listOf b := by simp [h]
  have hhome := (hf.mem_list b i).mp hi
  obtain ⟨x, hx⟩ := hf.exists_inst hi
  obtain ⟨y, hy⟩ := exists_block_of_mem hi
  rw [homeOf_of_inst hx] at hhome
  cases hk : y.insts.idxOf? i with
  | none => exact absurd (listOf_of_block hy ▸ hi) (List.idxOf?_eq_none_iff.mp hk)
  | some k =>
    obtain ⟨front, back, hsplit, -, rfl⟩ := exists_split_of_idxOf? hk
    rw [← listOf_of_block hy, h] at hsplit
    obtain ⟨rfl, -⟩ := split_unique (h ▸ hf.list_nodup b) hsplit
    simp only [position?, hx, bind, Except.bind, hhome, hy, hk]
    rfl

theorem insertBefore_spec {t : InstId} (h : f.insertBefore i t = .ok g) :
    ∃ b front back, f.listOf b = front ++ t :: back ∧ Placed f i b front (t :: back) g := by
  obtain ⟨x, hx, h⟩ := bind_eq_ok_iff.mp h
  obtain ⟨p, hp, h⟩ := bind_eq_ok_iff.mp h
  cases p with
  | none => exact absurd h (by cases x.home <;> exact not_throw_eq_ok)
  | some k =>
    obtain ⟨b, front, back, hb, hsplit, rfl⟩ := position?_spec hp
    rw [homeOf_of_inst hx] at hb
    rw [hb] at h
    exact ⟨b, front, back, hsplit, insertAt_spec hsplit h⟩

theorem exists_insertBefore {t : InstId} (hf : f.Consistent) (hi : (f.bare? i).isSome)
    (hhome : f.homeOf i = none) (ht : t ∈ f.listOf b) : ∃ g, f.insertBefore i t = .ok g := by
  obtain ⟨pre, post, hsplit⟩ := List.append_of_mem ht
  obtain ⟨x, hx⟩ := exists_inst_of_bare hi
  obtain ⟨y, hy⟩ := hf.exists_inst ht
  obtain ⟨z, hz⟩ := exists_block_of_mem ht
  rw [homeOf_of_inst hx] at hhome
  have hhome' : y.home = some b := by rw [← homeOf_of_inst hy, (hf.mem_list b t).mp ht]
  simp only [insertBefore, hy, hhome', hf.position?_eq hsplit, insertAt, hx, hhome, hz, bind,
    Except.bind]
  exact ⟨_, rfl⟩

/-- `g` is `f` with `i` taken out of its block, if it stood in one. -/
structure Detached (f : Func) (i : InstId) (g : Func) : Prop where
  size : g.numBlocks = f.numBlocks
  bare : ∀ j, g.bare? j =
    if i = j then (f.bare? j).map fun x => { x with home := none } else f.bare? j
  uses : ∀ d, g.usesOf d = f.usesOf d
  lists : ∀ c, g.listOf c = (f.listOf c).filter (· ≠ i)
  signature : g.signature = f.signature

theorem detach_spec (hi : ∀ b, i ∈ f.listOf b ↔ f.homeOf i = some b)
    (h : f.detach i = .ok g) : Detached f i g := by
  obtain ⟨x, hx, h⟩ := bind_eq_ok_iff.mp h
  -- outside its home no list has `i`
  have hother : ∀ c, x.home ≠ some c → (f.listOf c).filter (· ≠ i) = f.listOf c := by
    intro c hc
    rw [List.filter_eq_self]
    intro j hj
    have : j ≠ i := by
      rintro rfl
      exact hc (by rw [← homeOf_of_inst hx, (hi c).mp hj])
    simpa using this
  split at h
  · next hnone =>
    obtain rfl := pure_eq_ok_iff.mp h
    refine ⟨rfl, fun j => ?_, fun _ => rfl, fun c => (hother c (by simp [hnone])).symm, rfl⟩
    split
    · next hij =>
      subst hij
      simp only [bare?_of_inst hx, Option.map_some, Option.some.injEq]
      rw [Instruction.bare, hnone]
    · rfl
  · next b hb =>
    obtain ⟨y, hy, h⟩ := bind_eq_ok_iff.mp h
    obtain rfl := pure_eq_ok_iff.mp h
    refine ⟨by simp, fun j => ?_, fun d => ?_, fun c => ?_, rfl⟩
    · rw [bare?_modifyBlock, bare?_modifyInst (by exact fun _ => rfl)]
    · rw [usesOf_modifyBlock, usesOf_modifyInst_of_uses (by exact fun _ => rfl)]
    · rw [listOf_modifyBlock (k := List.filter (· ≠ i)) (by exact fun _ => rfl)
        (by exact hy), listOf_modifyInst]
      split
      · rfl
      · next hbc => exact (hother c (by rw [hb]; simpa using hbc)).symm

theorem exists_detach (hi : ∀ b, i ∈ f.listOf b ↔ f.homeOf i = some b)
    (hknown : (f.bare? i).isSome) : ∃ g, f.detach i = .ok g := by
  obtain ⟨x, hx⟩ := exists_inst_of_bare hknown
  cases hhome : x.home with
  | none => exact ⟨f, bind_eq_ok_iff.mpr ⟨x, hx, by rw [hhome]; rfl⟩⟩
  | some b =>
    have hmem : i ∈ f.listOf b := (hi b).mpr (by rw [homeOf_of_inst hx, hhome])
    obtain ⟨y, hy⟩ := exists_block_of_mem hmem
    simp only [detach, hx, hhome, hy, bind, Except.bind]
    exact ⟨_, rfl⟩

/-- `g` is `f` with `i`, which nothing reads, deleted. -/
structure Erased (f : Func) (i : InstId) (g : Func) : Prop where
  unread : f.usesOf i = []
  size : g.numBlocks = f.numBlocks
  bare : ∀ j, g.bare? j = if i = j then
    (f.bare? j).map fun x => { x with operands := [], home := none, erased := true } else f.bare? j
  uses_nodup : ∀ d, (g.usesOf d).Nodup
  mem_uses : ∀ d u, u ∈ g.usesOf d ↔ u ∈ f.usesOf d ∧ u.user ≠ i
  lists : ∀ c, g.listOf c = (f.listOf c).filter (· ≠ i)
  signature : g.signature = f.signature

theorem Erased.slot_eq (h : Erased f i g) (u : Use) :
    g.slot u = if i = u.user then none else f.slot u := by
  simp only [slot, operandsOf, h.bare]
  split
  · cases f.bare? u.user <;> simp
  · rfl

/-- Forgetting the edges of some slots of `i`. -/
theorem unlinkAll_spec {slots : List (Operand × Nat)} (hf : ∀ d, (f.usesOf d).Nodup)
    (h : slots.foldlM (fun f (o, k) => f.unlinkOperand o ⟨i, k⟩) f = .ok g) :
    SameBody f g ∧ ∀ d, (g.usesOf d).Nodup ∧
      ∀ u, u ∈ g.usesOf d ↔ u ∈ f.usesOf d ∧ ∀ k, (.inst d, k) ∈ slots → u ≠ ⟨i, k⟩ := by
  induction slots generalizing f with
  | nil =>
    obtain rfl := pure_eq_ok_iff.mp h
    exact ⟨.refl f, fun d => ⟨hf d, by simp⟩⟩
  | cons s slots ih =>
    obtain ⟨o, k⟩ := s
    obtain ⟨f₁, h₁, h⟩ := foldlM_cons_ok_iff.mp h
    obtain ⟨hbody, huses⟩ := unlinkOperand_spec h₁
    have hf₁ : ∀ d, (f₁.usesOf d).Nodup ∧
        ∀ u, u ∈ f₁.usesOf d ↔ u ∈ f.usesOf d ∧ (o = .inst d → u ≠ ⟨i, k⟩) := by
      intro d
      rw [(huses d).nodup_iff]
      simp only [(huses d).mem_iff]
      split
      · next ho => simpa [ho, (hf d).mem_erase_iff, and_comm] using (hf d).erase _
      · next ho => simpa [ho] using hf d
    obtain ⟨hbody', huses'⟩ := ih (fun d => (hf₁ d).1) h
    refine ⟨hbody.trans hbody', fun d => ⟨(huses' d).1, fun u => ?_⟩⟩
    rw [(huses' d).2, (hf₁ d).2, and_assoc]
    refine and_congr_right fun _ => ⟨?_, ?_⟩
    · rintro ⟨hhead, htail⟩ m hm
      rcases List.mem_cons.mp hm with hm | hm
      · obtain ⟨ho, rfl⟩ := Prod.mk.inj hm
        exact hhead ho.symm
      · exact htail m hm
    · intro hall
      exact ⟨fun ho => hall k (ho ▸ List.mem_cons_self),
        fun m hm => hall m (List.mem_cons_of_mem _ hm)⟩

/-- An instruction without operands still stands where it stood. -/
theorem mem_list_of_cleared (hf : f.Consistent)
    (h : SameBody (f.modifyInst i fun x => { x with operands := [] }) g) (b : BlockId) :
    i ∈ g.listOf b ↔ g.homeOf i = some b := by
  rw [h.listOf, h.homeOf, listOf_modifyInst, hf.mem_list, homeOf, homeOf,
    bare?_modifyInst (by exact fun _ => rfl), if_pos rfl, Option.bind_map]
  rfl

theorem erase_spec (hf : f.Consistent) (h : f.erase i = .ok g) : Erased f i g := by
  obtain ⟨x, hx, h⟩ := bind_eq_ok_iff.mp h
  split at h
  · exact absurd h not_throw_eq_ok
  · next hunread =>
    obtain ⟨f₁, h₁, h⟩ := bind_eq_ok_iff.mp h
    obtain ⟨f₂, h₂, h⟩ := bind_eq_ok_iff.mp h
    obtain rfl := pure_eq_ok_iff.mp h
    have huses₀ : ∀ d, (f.modifyInst i fun x => { x with operands := [] }).usesOf d =
      f.usesOf d := fun d => usesOf_modifyInst_of_uses fun _ => rfl
    obtain ⟨hbody, huses⟩ := unlinkAll_spec (by simpa [huses₀] using hf.uses_nodup) h₁
    have hbare₁ : ∀ j, f₁.bare? j =
        if i = j then (f.bare? j).map fun x => { x with operands := [] } else f.bare? j :=
      fun j => (hbody.bare j).trans (bare?_modifyInst fun _ => rfl)
    have hd := detach_spec (mem_list_of_cleared hf hbody) h₂
    refine ⟨?_, ?_, fun j => ?_, fun d => ?_, fun d u => ?_, fun c => ?_,
      hd.signature.trans hbody.signature⟩
    · rw [usesOf_of_inst hx]
      simpa using hunread
    · rw [numBlocks_modifyInst, hd.size, numBlocks, hbody.blocks]
      rfl
    · rw [bare?_modifyInst (by exact fun _ => rfl), hd.bare, hbare₁]
      split <;> simp [Function.comp_def]
    · rw [usesOf_modifyInst_of_uses (by exact fun _ => rfl), hd.uses]
      exact (huses d).1
    · rw [usesOf_modifyInst_of_uses (by exact fun _ => rfl), hd.uses, (huses d).2, huses₀]
      refine and_congr_right fun hu => ⟨fun hall hui => ?_, fun hui k _ h => hui (h ▸ rfl)⟩
      obtain ⟨user, k⟩ := u
      subst hui
      rw [hf.mem_uses, slot, operandsOf_of_inst hx] at hu
      exact hall k (List.mem_zipIdx_iff_getElem?.mpr hu) rfl
    · rw [listOf_modifyInst, hd.lists, hbody.listOf, listOf_modifyInst]

theorem exists_unlinkAll {slots : List (Operand × Nat)}
    (h : ∀ d k, (.inst d, k) ∈ slots → (f.bare? d).isSome) :
    ∃ g, slots.foldlM (fun f (o, k) => f.unlinkOperand o ⟨i, k⟩) f = .ok g := by
  induction slots generalizing f with
  | nil => exact ⟨f, rfl⟩
  | cons s slots ih =>
    obtain ⟨o, k⟩ := s
    obtain ⟨f₁, h₁⟩ := exists_unlinkOperand (f := f) (o := o)
      (fun d hd => exists_inst_of_bare (h d k (hd ▸ List.mem_cons_self))) ⟨i, k⟩
    obtain ⟨g, hg⟩ := ih (f := f₁) fun d k hd => by
      rw [(unlinkOperand_spec h₁).1.bare]
      exact h d k (List.mem_cons_of_mem _ hd)
    exact ⟨g, foldlM_cons_ok_iff.mpr ⟨f₁, h₁, hg⟩⟩

theorem exists_erase (hf : f.Consistent) (hi : (f.bare? i).isSome) (hunread : f.usesOf i = []) :
    ∃ g, f.erase i = .ok g := by
  obtain ⟨x, hx⟩ := exists_inst_of_bare hi
  have hops : ∀ d k, (.inst d, k) ∈ x.operands.zipIdx →
      ((f.modifyInst i fun x => { x with operands := [] }).bare? d).isSome := by
    intro d k hd
    have hslot : f.slot ⟨i, k⟩ = some (.inst d) := by
      rw [slot, operandsOf_of_inst hx]
      exact List.mem_zipIdx_iff_getElem?.mp hd
    obtain ⟨y, hy⟩ := exists_inst_of_mem_uses ((hf.mem_uses d _).mpr hslot)
    simp [bare?_of_inst hy]
  obtain ⟨f₁, h₁⟩ := exists_unlinkAll (i := i) hops
  have hbody := (unlinkAll_spec (fun d => by
    rw [usesOf_modifyInst_of_uses (by exact fun _ => rfl)]
    exact hf.uses_nodup d) h₁).1
  obtain ⟨f₂, h₂⟩ := exists_detach (mem_list_of_cleared hf hbody) (by simpa [hbody.bare] using hi)
  have hempty : x.uses = [] := by rw [← usesOf_of_inst hx, hunread]
  refine ⟨f₂.modifyInst i fun x => { x with erased := true }, bind_eq_ok_iff.mpr ⟨x, hx, ?_⟩⟩
  rw [hempty]
  exact bind_eq_ok_iff.mpr ⟨f₁, h₁, bind_eq_ok_iff.mpr ⟨f₂, h₂, rfl⟩⟩

end Func

end SsaOpt
