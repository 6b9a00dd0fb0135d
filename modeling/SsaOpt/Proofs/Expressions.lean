import SsaOpt.Proofs.Pruning
import SsaOpt.Values.Expression

/-! The meaning of expressions. An instruction computes what its expression says, so instructions
with equal expressions compute equal values. -/

namespace SsaOpt

namespace Interpretation

/-- The operators that are flagged commutative are. -/
structure Commutes (I : Interpretation) : Prop where
  binary : ∀ {op : BinaryOp} (ty : Ty) (v w : I.Value), op.isCommutative →
    I.compute (.binary op) ty [v, w] = I.compute (.binary op) ty [w, v]
  compare : ∀ {op : CompareOp} (ty : Ty) (v w : I.Value), op.isCommutative →
    I.compute (.compare op) ty [v, w] = I.compute (.compare op) ty [w, v]

theorem onIntegers_comm {op : BinaryOp} (h : op.isCommutative) (m n : Int) :
    onIntegers op m n = onIntegers op n m := by
  cases op with
  | add => exact Int.add_comm m n
  | mul => exact Int.mul_comm m n
  | and => exact congrArg _ (Nat.and_comm ..)
  | or => exact congrArg _ (Nat.or_comm ..)
  | xor => exact congrArg _ (Nat.xor_comm ..)
  | _ => cases h

theorem holds_comm {op : CompareOp} (h : op.isCommutative) (m n : Int) :
    holds op m n = holds op n m := by
  cases op with
  | eq => simp [holds, eq_comm]
  | ne => simp [holds, eq_comm]
  | _ => cases h

theorem computeIntegers_binary_comm {op : BinaryOp} (h : op.isCommutative) (m n : Int) :
    computeIntegers (.binary op) [m, n] = computeIntegers (.binary op) [n, m] := by
  have htrap : op.canTrap = false := by cases op <;> first | rfl | cases h
  simp [computeIntegers, htrap, onIntegers_comm h m n]

theorem computeIntegers_compare_comm {op : CompareOp} (h : op.isCommutative) (m n : Int) :
    computeIntegers (.compare op) [m, n] = computeIntegers (.compare op) [n, m] := by
  simp [computeIntegers, holds_comm h m n]

theorem integers_commutes : integers.Commutes where
  binary _ m n h := computeIntegers_binary_comm h m n
  compare _ m n h := computeIntegers_compare_comm h m n

end Interpretation

namespace Expression

open Interpretation

variable {f g : Func} {i : InstId} {z : Instruction} {k : Expression}

/-- The expression is that of a pure instruction. -/
def isPure : Expression → Bool
  | .load .. | .effect _ => false
  | _ => true

/-- The opcode of the pure instructions with the expression. -/
def opcode? : Expression → Option Opcode
  | .binary op .. => some (.binary op)
  | .compare op .. => some (.compare op)
  | .cast op .. => some (.cast op)
  | .select .. => some .select
  | .elementPtr .. => some .elementPtr
  | .load .. | .effect _ => none

/-- The operands of a pure instruction with the expression, in some order. -/
def operands : Expression → List Operand
  | .binary _ _ lhs rhs | .compare _ lhs rhs => [lhs, rhs]
  | .cast _ _ source => [source]
  | .select _ cond onTrue onFalse => [cond, onTrue, onFalse]
  | .elementPtr operands => operands
  | .load .. | .effect _ => []

/-- The value of an expression, given the values of the instructions that it reads. -/
def value (I : Interpretation) (args : Nat → I.Value) (regs : InstId → I.Value) :
    Expression → Option I.Value
  | .binary op ty lhs rhs => I.compute (.binary op) ty [I.eval args regs lhs, I.eval args regs rhs]
  | .compare op lhs rhs => I.compute (.compare op) .i1 [I.eval args regs lhs, I.eval args regs rhs]
  | .cast op ty source => I.compute (.cast op) ty [I.eval args regs source]
  | .select ty cond onTrue onFalse =>
    I.compute .select ty ([cond, onTrue, onFalse].map (I.eval args regs))
  | .elementPtr operands => I.compute .elementPtr .ptr (operands.map (I.eval args regs))
  | .load .. | .effect _ => none

theorem ordered_cases (commutative : Bool) (lhs rhs : Operand) :
    ordered commutative lhs rhs = (lhs, rhs) ∨
      commutative ∧ ordered commutative lhs rhs = (rhs, lhs) := by
  unfold ordered
  split
  · next h => exact .inr ⟨(Bool.and_eq_true_iff.mp h).1, rfl⟩
  · exact .inl rfl

/-- What `k`, the expression of `z`, says about it. -/
structure Explains (k : Expression) (z : Instruction) : Prop where
  pure : k.isPure = z.op.isPure
  opcode : z.op.isPure → k.opcode? = some z.op
  operands : z.op.isPure → ∀ o, o ∈ k.operands ↔ o ∈ z.operands
  value : z.op.isPure → z.op.gives z.ty → ∀ {I : Interpretation}, I.Commutes → ∀ args regs,
    k.value I args regs = I.compute z.op z.ty (I.inputs args regs z)

/-- An instruction with the operands that it takes has an expression that explains it, or none. -/
theorem ofInst?_spec (hz : f.bare? i = some z) (hlen : z.op.takes z.operands.length) :
    ∃ k?, ofInst? f i = .ok k? ∧ ∀ k, k? = some k → k.Explains z := by
  obtain ⟨⟨op, ty, os, uses, home, erased⟩, hw, rfl⟩ := Func.bare?_eq_some_iff.mp hz
  have hsome : ∀ {k : Expression} {z : Instruction}, k.Explains z → ∃ k?,
      (.ok (some k) : Checked (Option Expression)) = .ok k? ∧ ∀ k, k? = some k → k.Explains z :=
    fun hk => ⟨_, rfl, fun _ heq => Option.some.inj heq ▸ hk⟩
  have hmem : ∀ {commutative : Bool} (l r o : Operand),
      o ∈ [(ordered commutative l r).1, (ordered commutative l r).2] ↔ o ∈ [l, r] := by
    intro commutative l r o
    rcases ordered_cases commutative l r with h | ⟨-, h⟩ <;> rw [h]
    simp [or_comm]
  simp only [ofInst?, Func.operand, hw, bind, Except.bind]
  cases op with
  | binary op =>
    obtain ⟨l, r, rfl⟩ := List.length_eq_two.mp (of_decide_eq_true hlen)
    refine hsome ⟨rfl, fun _ => rfl, fun _ o => ?_, fun _ _ I hI args regs => ?_⟩
    · exact hmem l r o
    · rcases ordered_cases op.isCommutative l r with h | ⟨hc, h⟩ <;> rw [h]
      · rfl
      · exact hI.binary ty _ _ hc
  | compare op =>
    obtain ⟨l, r, rfl⟩ := List.length_eq_two.mp (of_decide_eq_true hlen)
    refine hsome ⟨rfl, fun _ => rfl, fun _ o => ?_, fun _ hty I hI args regs => ?_⟩
    · exact hmem l r o
    · obtain rfl : ty = .i1 := of_decide_eq_true hty
      rcases ordered_cases op.isCommutative l r with h | ⟨hc, h⟩ <;> rw [h]
      · rfl
      · exact hI.compare .i1 _ _ hc
  | cast op =>
    obtain ⟨o, rfl⟩ := List.length_eq_one_iff.mp (of_decide_eq_true hlen)
    exact hsome ⟨rfl, fun _ => rfl, fun _ _ => .rfl, fun _ _ I hI args regs => rfl⟩
  | select =>
    obtain ⟨c, t, e, rfl⟩ := List.length_eq_three.mp (of_decide_eq_true hlen)
    exact hsome ⟨rfl, fun _ => rfl, fun _ _ => .rfl, fun _ _ I hI args regs => rfl⟩
  | elementPtr =>
    refine hsome ⟨rfl, fun _ => rfl, fun _ _ => .rfl, fun _ hty I hI args regs => ?_⟩
    obtain rfl : ty = .ptr := of_decide_eq_true hty
    rfl
  | load =>
    obtain ⟨o, rfl⟩ := List.length_eq_one_iff.mp (of_decide_eq_true hlen)
    exact hsome ⟨rfl, (fun h => by cases h), (fun h => by cases h), fun h => by cases h⟩
  | store | call =>
    exact hsome ⟨rfl, (fun h => by cases h), (fun h => by cases h), fun h => by cases h⟩
  | alloca | phi | memPhi | jump | branch | ret =>
    exact ⟨none, rfl, fun k hk => by cases hk⟩

/-- In a valid function the expression of an instruction that stands in a block explains it. -/
theorem exists_explains {b : BlockId} (hf : f.Valid) (hlayout : f.LaidOut) (hi : i ∈ f.listOf b)
    (hk : ofInst? f i = .ok (some k)) :
    ∃ z, f.bare? i = some z ∧ z.erased = false ∧ k.Explains z := by
  obtain ⟨z, hz, hlive⟩ := hf.exists_live hi
  obtain ⟨k?, hk?, hexp⟩ := ofInst?_spec hz (hlayout hz hlive)
  exact ⟨z, hz, hlive, hexp k (Except.ok.inj (hk?.symm.trans hk))⟩

theorem not_isPhi_of_ofInst? (h : ofInst? f i = .ok (some k)) : ¬f.isPhi i := by
  obtain ⟨z, hz, h⟩ := bind_eq_ok_iff.mp h
  rw [Func.isPhi_eq, Func.op?_of_inst hz]
  intro hphi
  cases hop : z.op with
  | phi | memPhi =>
    rw [hop] at h
    cases pure_eq_ok_iff.mp h
  | _ =>
    rw [hop] at hphi
    cases hphi

/-- The expression of an instruction depends on its data alone. -/
theorem ofInst?_congr (h : g.bare? i = f.bare? i) : ofInst? g i = ofInst? f i := by
  have hinst : ∀ {f : Func} {z}, f.insts[i.index]? = some z → f.inst i = .ok z :=
    Func.inst_eq_ok_iff.mpr
  unfold Func.bare? at h
  cases hf : f.insts[i.index]? with
  | none =>
    rw [hf, Option.map_none, Option.map_eq_none_iff] at h
    simp [ofInst?, Func.inst, hf, h, Checked.ofOption, bind, Except.bind]
  | some z =>
    rw [hf, Option.map_some, Option.map_eq_some_iff] at h
    obtain ⟨z', hg, h⟩ := h
    obtain ⟨op, ty, os, uses, home, erased⟩ := z
    obtain ⟨op', ty', os', uses', home', erased'⟩ := z'
    obtain ⟨rfl, rfl, rfl, -⟩ := Instruction.mk.inj h
    simp only [ofInst?, Func.operand, hinst hf, hinst hg, bind, Except.bind]

end Expression

end SsaOpt
