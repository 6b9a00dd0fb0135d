import SsaOpt.Proofs.Expressions
import SsaOpt.Proofs.Literals

/-! Expressions identify the instructions that may stand for each other.

The operands of a commutative operator are put in order. The order is total and antisymmetric, so
two pairs of operands are put in the same order exactly if they are the same or one is the other
swapped. Everything else about a pure instruction is in its expression as it is, or follows from its
opcode. -/

namespace SsaOpt

/-- The opcode is that of an operator whose operands may be swapped. -/
def Opcode.isCommutative : Opcode → Bool
  | .binary op => op.isCommutative
  | .compare op => op.isCommutative
  | _ => false

/-- The instructions do the same to the same operands. If the opcode is commutative, the operands
of one may be those of the other swapped. -/
structure Instruction.Interchangeable (x y : Instruction) : Prop where
  op : x.op = y.op
  ty : x.ty = y.ty
  operands : List.Forall₂ Operand.Same x.operands y.operands ∨
    x.op.isCommutative ∧
      ∃ lhs rhs, y.operands = [lhs, rhs] ∧ List.Forall₂ Operand.Same x.operands [rhs, lhs]

namespace Expression

variable {f g : Func} {i j : InstId} {x y : Instruction} {op : Opcode}

theorem ordered_swap (lhs rhs : Operand) : ordered true lhs rhs = ordered true rhs lhs := by
  by_cases heq : lhs = rhs
  · rw [heq]
  · unfold ordered
    rcases Operand.precedes_or_precedes heq with hlt | hlt
    · simp [hlt, Operand.precedes_asymm hlt]
    · simp [hlt, Operand.precedes_asymm hlt]

/-- Putting operands in order forgets which of the two came first, and nothing else. -/
theorem ordered_eq_iff {commutative : Bool} {lhs rhs lhs' rhs' : Operand} :
    ordered commutative lhs rhs = ordered commutative lhs' rhs' ↔
      lhs = lhs' ∧ rhs = rhs' ∨ commutative ∧ lhs = rhs' ∧ rhs = lhs' := by
  constructor
  · intro h
    rcases ordered_cases commutative lhs rhs with h₁ | ⟨hc, h₁⟩ <;>
      rcases ordered_cases commutative lhs' rhs' with h₂ | ⟨hc', h₂⟩ <;>
      rw [h₁, h₂] at h <;> obtain ⟨hl, hr⟩ := Prod.mk.inj h
    · exact .inl ⟨hl, hr⟩
    · exact .inr ⟨hc', hl, hr⟩
    · exact .inr ⟨hc, hr, hl⟩
    · exact .inl ⟨hr, hl⟩
  · intro h
    rcases h with ⟨rfl, rfl⟩ | ⟨hc, rfl, rfl⟩
    · rfl
    · rw [hc]
      exact ordered_swap lhs rhs

theorem forall₂_same_iff {os os' : List Operand} : List.Forall₂ Operand.Same os os' ↔ os = os' := by
  have hsame : Operand.Same = Eq := by
    funext o o'
    exact propext Operand.same_iff_eq
  rw [hsame, List.forall₂_eq_eq_eq]

/-- The two operands of an operator, in the order in which its expression has them. -/
theorem ordered_eq_iff_same {lhs rhs lhs' rhs' : Operand} {commutative : Bool} :
    ordered commutative lhs rhs = ordered commutative lhs' rhs' ↔
      List.Forall₂ Operand.Same [lhs, rhs] [lhs', rhs'] ∨ commutative ∧
        ∃ l r, [lhs', rhs'] = [l, r] ∧ List.Forall₂ Operand.Same [lhs, rhs] [r, l] := by
  rw [ordered_eq_iff]
  simp only [forall₂_same_iff, List.cons.injEq, and_true]
  grind

theorem opcode?_of_ofInst? {k : Expression} (hx : f.inst i = .ok x) (hpure : x.op.isPure)
    (htakes : x.op.takes x.operands.length) (hk : ofInst? f i = .ok (some k)) :
    k.opcode? = some x.op := by
  obtain ⟨k?, hk?, hexp⟩ := ofInst?_spec (Func.bare?_of_inst hx) htakes
  exact (hexp k (Except.ok.inj (hk?.symm.trans hk))).opcode hpure

/-- The expression of a pure instruction, read off its data. -/
def ofPure? (x : Instruction) : Option Expression :=
  match x.op, x.operands with
  | .binary op, [lhs, rhs] =>
    some (.binary op x.ty (ordered op.isCommutative lhs rhs).1 (ordered op.isCommutative lhs rhs).2)
  | .compare op, [lhs, rhs] =>
    some (.compare op (ordered op.isCommutative lhs rhs).1 (ordered op.isCommutative lhs rhs).2)
  | .cast op, [source] => some (.cast op x.ty source)
  | .select, [cond, onTrue, onFalse] => some (.select x.ty cond onTrue onFalse)
  | .elementPtr, operands => some (.elementPtr operands)
  | _, _ => none

theorem exists_ofPure? (hx : f.inst i = .ok x) (hpure : x.op.isPure)
    (htakes : x.op.takes x.operands.length) :
    ∃ k, ofInst? f i = .ok (some k) ∧ ofPure? x = some k := by
  obtain ⟨op, ty, os, uses, home, erased⟩ := x
  simp only [ofInst?, Func.operand, hx, bind, Except.bind]
  cases op with
  | binary | compare =>
    obtain ⟨lhs, rhs, rfl⟩ := List.length_eq_two.mp (of_decide_eq_true htakes)
    exact ⟨_, rfl, rfl⟩
  | cast =>
    obtain ⟨source, rfl⟩ := List.length_eq_one_iff.mp (of_decide_eq_true htakes)
    exact ⟨_, rfl, rfl⟩
  | select =>
    obtain ⟨cond, onTrue, onFalse, rfl⟩ := List.length_eq_three.mp (of_decide_eq_true htakes)
    exact ⟨_, rfl, rfl⟩
  | elementPtr => exact ⟨_, rfl, rfl⟩
  | load | store | call | alloca | phi | memPhi | jump | branch | ret => cases hpure

/-- Pure instructions with one opcode have one expression exactly if types and operands agree. -/
theorem ofPure?_eq_iff {ty ty' : Ty} {os os' : List Operand} (hpure : op.isPure)
    (htakes : op.takes os.length) (htakes' : op.takes os'.length) (hgives : op.gives ty)
    (hgives' : op.gives ty') :
    ofPure? { op, ty, operands := os } = ofPure? { op, ty := ty', operands := os' } ↔
      ty = ty' ∧ (List.Forall₂ Operand.Same os os' ∨ op.isCommutative ∧
        ∃ lhs rhs, os' = [lhs, rhs] ∧ List.Forall₂ Operand.Same os [rhs, lhs]) := by
  cases op with
  | binary op =>
    obtain ⟨l, r, rfl⟩ := List.length_eq_two.mp (of_decide_eq_true htakes)
    obtain ⟨l', r', rfl⟩ := List.length_eq_two.mp (of_decide_eq_true htakes')
    simp only [ofPure?, Option.some.injEq, binary.injEq, true_and, ← Prod.ext_iff]
    exact and_congr_right fun _ => ordered_eq_iff_same
  | compare op =>
    obtain ⟨l, r, rfl⟩ := List.length_eq_two.mp (of_decide_eq_true htakes)
    obtain ⟨l', r', rfl⟩ := List.length_eq_two.mp (of_decide_eq_true htakes')
    obtain rfl : ty = .i1 := of_decide_eq_true hgives
    obtain rfl : ty' = .i1 := of_decide_eq_true hgives'
    simp only [ofPure?, Option.some.injEq, compare.injEq, true_and, ← Prod.ext_iff]
    exact ordered_eq_iff_same
  | cast op =>
    obtain ⟨o, rfl⟩ := List.length_eq_one_iff.mp (of_decide_eq_true htakes)
    obtain ⟨o', rfl⟩ := List.length_eq_one_iff.mp (of_decide_eq_true htakes')
    simp [ofPure?, Operand.same_iff_eq, Opcode.isCommutative]
  | select =>
    obtain ⟨c, t, e, rfl⟩ := List.length_eq_three.mp (of_decide_eq_true htakes)
    obtain ⟨c', t', e', rfl⟩ := List.length_eq_three.mp (of_decide_eq_true htakes')
    simp [ofPure?, Operand.same_iff_eq, Opcode.isCommutative]
  | elementPtr =>
    obtain rfl : ty = .ptr := of_decide_eq_true hgives
    obtain rfl : ty' = .ptr := of_decide_eq_true hgives'
    simp [ofPure?, forall₂_same_iff, Opcode.isCommutative]
  | load | store | call | alloca | phi | memPhi | jump | branch | ret => cases hpure

/-- **Expressions identify the interchangeable pure instructions.** Take two pure instructions, of
one function or of two, with the operands and types that they are built with. Both have an
expression, and the two are equal exactly if the instructions have one opcode, one type and the same
operands, or, if the opcode is commutative, the same operands after a swap. Literals are the same if
they have one type and one bit pattern. So every literal is the same as itself, also one that is not
a number, and the two zeros of a floating-point type differ. -/
theorem ofInst?_eq_iff_interchangeable {f g : Func} {i j : InstId} {x y : Instruction}
    (hx : f.inst i = .ok x) (hy : g.inst j = .ok y) (hxpure : x.op.isPure) (hypure : y.op.isPure)
    (hxtakes : x.op.takes x.operands.length) (hytakes : y.op.takes y.operands.length)
    (hxgives : x.op.gives x.ty) (hygives : y.op.gives y.ty) :
    (∃ k k', ofInst? f i = .ok (some k) ∧ ofInst? g j = .ok (some k') ∧
      (k = k' ↔ x.Interchangeable y)) ∧
    (∀ l : Literal, (Operand.lit l).Same (.lit l)) ∧
    ¬(Operand.lit (.f32 0)).Same (.lit (.f32 0x80000000)) ∧
    ¬(Operand.lit (.f64 0)).Same (.lit (.f64 0x8000000000000000)) := by
  refine ⟨?_, fun l => .refl _, ?_, ?_⟩
  · obtain ⟨k, hk, hkx⟩ := exists_ofPure? hx hxpure hxtakes
    obtain ⟨k', hk', hky⟩ := exists_ofPure? hy hypure hytakes
    refine ⟨k, k', hk, hk', ?_⟩
    by_cases hop : x.op = y.op
    · have hiff := ofPure?_eq_iff hxpure hxtakes (hop ▸ hytakes) hxgives (hop ▸ hygives)
      have hdata : ofPure? { op := x.op, ty := y.ty, operands := y.operands } = some k' := by
        rw [hop]
        exact hky
      rw [hdata, show ofPure? { op := x.op, ty := x.ty, operands := x.operands } = some k from hkx,
        Option.some.injEq] at hiff
      exact hiff.trans ⟨fun h => ⟨hop, h.1, h.2⟩, fun h => ⟨h.ty, h.operands⟩⟩
    · refine iff_of_false (fun heq => hop ?_) fun h => hop h.op
      rw [← Option.some.injEq, ← opcode?_of_ofInst? hx hxpure hxtakes hk, heq]
      exact opcode?_of_ofInst? hy hypure hytakes hk'
  · rw [Operand.same_iff_eq]
    decide
  · rw [Operand.same_iff_eq]
    decide

/-- The sum of an argument and zero, and the sum of a literal and the argument. -/
def zeroSums (l : Literal) : Func := .made [.f64] [
  .block, .switch ⟨0⟩, .binary .add .f64 (.arg 0) (.lit (.f64 0)),
  .binary .add .f64 (.lit l) (.arg 0), .ret none]

/-- The sums may stand for each other if the literal is the same zero, and not if it is the other
one, although the two are equal as numbers. -/
theorem ofInst?_eq_iff_interchangeable_zeroSums :
    (∃ x y, (zeroSums (.f64 0)).inst ⟨0⟩ = .ok x ∧ (zeroSums (.f64 0)).inst ⟨1⟩ = .ok y ∧
      ofInst? (zeroSums (.f64 0)) ⟨0⟩ = ofInst? (zeroSums (.f64 0)) ⟨1⟩ ∧ x.Interchangeable y) ∧
    ∃ x y, (zeroSums (.f64 0x8000000000000000)).inst ⟨0⟩ = .ok x ∧
      (zeroSums (.f64 0x8000000000000000)).inst ⟨1⟩ = .ok y ∧
      Literal.numericEq (.f64 0) (.f64 0x8000000000000000) = true ∧ ¬x.Interchangeable y := by
  have hbuilt : ∀ l ∈ [Literal.f64 0, .f64 0x8000000000000000], ∀ i ∈ [(⟨0⟩ : InstId), ⟨1⟩],
      ((zeroSums l).inst i).toOption.any fun x =>
        x.op.isPure ∧ x.op.takes x.operands.length ∧ x.op.gives x.ty := by decide
  have hsums : ∀ l ∈ [Literal.f64 0, .f64 0x8000000000000000], ∃ x y,
      (zeroSums l).inst ⟨0⟩ = .ok x ∧ (zeroSums l).inst ⟨1⟩ = .ok y ∧
        (ofInst? (zeroSums l) ⟨0⟩ = ofInst? (zeroSums l) ⟨1⟩ ↔ x.Interchangeable y) := by
    intro l hl
    obtain ⟨x, hx, hq⟩ := exists_ok_of_any (hbuilt l hl ⟨0⟩ (by simp))
    obtain ⟨y, hy, hq'⟩ := exists_ok_of_any (hbuilt l hl ⟨1⟩ (by simp))
    obtain ⟨hpure, htakes, hgives⟩ := of_decide_eq_true hq
    obtain ⟨hpure', htakes', hgives'⟩ := of_decide_eq_true hq'
    obtain ⟨⟨k, k', hk, hk', hiff⟩, -⟩ :=
      ofInst?_eq_iff_interchangeable hx hy hpure hpure' htakes htakes' hgives hgives'
    refine ⟨x, y, hx, hy, ?_⟩
    rw [hk, hk', Except.ok.injEq, Option.some.injEq, hiff]
  obtain ⟨x, y, hx, hy, hiff⟩ := hsums (.f64 0) (by simp)
  obtain ⟨x', y', hx', hy', hiff'⟩ := hsums (.f64 0x8000000000000000) (by simp)
  have hsame : ofInst? (zeroSums (.f64 0)) ⟨0⟩ = ofInst? (zeroSums (.f64 0)) ⟨1⟩ := by decide
  exact ⟨⟨x, y, hx, hy, hsame, hiff.mp hsame⟩, x', y', hx', hy', by decide,
    fun h => absurd (hiff'.mpr h) (by decide)⟩

end Expression

end SsaOpt
