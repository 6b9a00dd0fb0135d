import SsaOpt.Literal

/-! Handles of blocks and instructions, operands, and use edges.

Operands are totally ordered through `sortKey`: literals first, by type and then by value, then
arguments, globals and instruction results. -/

namespace SsaOpt

/-- A basic block of a function, numbered in creation order. -/
structure BlockId where
  index : Nat
deriving DecidableEq, Repr

/-- An instruction of a function, numbered in creation order. It also names the value produced. -/
structure InstId where
  index : Nat
deriving DecidableEq, Repr

instance : ToString BlockId := ⟨fun b => s!"bb{b.index}"⟩

instance : ToString InstId := ⟨fun i => s!"%{i.index}"⟩

/-- The block where control enters. -/
def BlockId.entry : BlockId := ⟨0⟩

/-- The first `n` blocks, in order. -/
def BlockId.upTo (n : Nat) : List BlockId := (List.range n).map BlockId.mk

/-- One entry for each of the first `n` blocks. -/
def BlockId.tabulate {α : Type} (n : Nat) (g : BlockId → α) : Array α :=
  ((BlockId.upTo n).map g).toArray

theorem BlockId.mem_upTo {n : Nat} {b : BlockId} : b ∈ BlockId.upTo n ↔ b.index < n := by
  constructor
  · intro h
    obtain ⟨k, hk, rfl⟩ := List.mem_map.mp h
    exact List.mem_range.mp hk
  · intro h
    exact List.mem_map.mpr ⟨b.index, List.mem_range.mpr h, rfl⟩

@[simp] theorem BlockId.length_upTo (n : Nat) : (BlockId.upTo n).length = n := by
  simp [BlockId.upTo]

@[simp] theorem BlockId.size_tabulate {α : Type} (n : Nat) (g : BlockId → α) :
    (BlockId.tabulate n g).size = n := by
  simp [BlockId.tabulate]

theorem BlockId.getD_tabulate {α : Type} {n : Nat} {b : BlockId} (h : b.index < n)
    (g : BlockId → α) (default : α) : (BlockId.tabulate n g).getD b.index default = g b := by
  simp [BlockId.tabulate, BlockId.upTo, h]

theorem BlockId.getD_set {α : Type} {xs : Array α} {b : BlockId} (hb : b.index < xs.size) (v : α)
    (c : BlockId) (default : α) :
    (xs.setIfInBounds b.index v).getD c.index default =
      if c = b then v else xs.getD c.index default := by
  obtain ⟨b⟩ := b
  obtain ⟨c⟩ := c
  simp only [Array.getD_eq_getD_getElem?, Array.getElem?_setIfInBounds, BlockId.mk.injEq]
  by_cases h : b = c
  · subst h
    simp_all
  · simp [h, Ne.symm h]

inductive Operand where
  | inst (i : InstId)
  | arg (n : Nat)
  | global (n : Nat)
  | lit (l : Literal)
deriving DecidableEq, Repr

namespace Operand

def inst? : Operand → Option InstId
  | .inst i => some i
  | _ => none

def lit? : Operand → Option Literal
  | .lit l => some l
  | _ => none

/-- An integer literal. -/
def isIntegerLit (o : Operand) : Bool := o.lit?.any Literal.isInteger

/-- Class and number, compared in this order. -/
def sortKey : Operand → Nat × Int
  | .lit (.i1 b) => (0, if b then 1 else 0)
  | .lit (.i32 n) => (1, n.toInt)
  | .lit (.i64 n) => (2, n.toInt)
  | .lit (.f32 bits) => (3, bits.toNat)
  | .lit (.f64 bits) => (4, bits.toNat)
  | .arg n => (5, n)
  | .global n => (6, n)
  | .inst i => (7, i.index)

/-- Strict order by `sortKey`. -/
def precedes (a b : Operand) : Bool :=
  a.sortKey.1 < b.sortKey.1 || (a.sortKey.1 = b.sortKey.1 && a.sortKey.2 < b.sortKey.2)

/-- Operands in increasing order; equal ones keep their places. -/
def sort (os : List Operand) : List Operand := os.mergeSort fun a b => !b.precedes a

/-- Equality that compares floating-point literals as numbers. -/
def numericEq : Operand → Operand → Bool
  | .lit a, .lit b => a.numericEq b
  | a, b => a = b

def render : Operand → String
  | .inst i => toString i
  | .arg n => s!"%arg{n}"
  | .global n => s!"@g{n}"
  | .lit l => l.render

theorem sortKey_injective {a b : Operand} (h : a.sortKey = b.sortKey) : a = b := by
  rcases a with i | n | n | (x | x | x | x | x) <;>
    rcases b with j | m | m | (y | y | y | y | y) <;> simp only [sortKey, Prod.mk.injEq] at h <;> try omega
  · have hij : i.index = j.index := by omega
    obtain ⟨i⟩ := i
    exact congrArg Operand.inst (congrArg InstId.mk hij)
  · have hnm : n = m := by omega
    exact congrArg _ hnm
  · have hnm : n = m := by omega
    exact congrArg _ hnm
  · cases x <;> cases y <;> simp_all
  · exact congrArg _ (congrArg _ (Int32.toInt_inj.mp h.2))
  · exact congrArg _ (congrArg _ (Int64.toInt_inj.mp h.2))
  · exact congrArg _ (congrArg _ (UInt32.toNat_inj.mp (by omega)))
  · exact congrArg _ (congrArg _ (UInt64.toNat_inj.mp (by omega)))

theorem precedes_or_precedes {a b : Operand} (h : a ≠ b) :
    a.precedes b = true ∨ b.precedes a = true := by
  have hk : a.sortKey.1 = b.sortKey.1 → a.sortKey.2 ≠ b.sortKey.2 :=
    fun h₁ h₂ => h (sortKey_injective (Prod.ext h₁ h₂))
  simp only [precedes, Bool.or_eq_true, Bool.and_eq_true, decide_eq_true_eq]
  omega

theorem precedes_asymm {a b : Operand} (h : a.precedes b = true) : b.precedes a = false := by
  simp only [precedes, Bool.or_eq_true, Bool.and_eq_true, decide_eq_true_eq,
    Bool.or_eq_false_iff, Bool.and_eq_false_iff, decide_eq_false_iff_not] at *
  omega

end Operand

instance : ToString Operand := ⟨Operand.render⟩

/-- Operand slot `index` of `user` reads the instruction that records this edge. -/
structure Use where
  user : InstId
  index : Nat
deriving DecidableEq, Repr

instance : ToString Use := ⟨fun u => s!"{u.user}#{u.index}"⟩

end SsaOpt
