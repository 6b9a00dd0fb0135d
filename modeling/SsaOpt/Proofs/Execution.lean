import SsaOpt.Proofs.Validity

/-! Execution of functions under any reading of their opcodes.

A run is a sequence of block visits. On entry to a block all its phis are assigned at once from the
edge taken; then the other instructions are executed in order. A visit records the memory
operations, the traps and the transfer of control that it performs. -/

namespace SsaOpt

/-- A reading of the opcodes. Pure instructions compute a value from their type and operands, or
trap; loads, stores, calls and allocations act on a memory that nothing else sees. -/
structure Interpretation where
  Value : Type
  Memory : Type
  /-- What is read where nothing was written. -/
  undefined : Value
  literal : Literal → Value
  global : Nat → Value
  /-- No result means a trap. -/
  compute : Opcode → Ty → List Value → Option Value
  perform : Opcode → Ty → List Value → Memory → Value × Memory
  isTrue : Value → Bool

namespace Interpretation

/-- Values of instructions, and the memory. -/
structure State (I : Interpretation) where
  regs : InstId → I.Value
  memory : I.Memory

/-- What can be observed of an instruction, with the values of its operands. -/
inductive Event (I : Interpretation) where
  | effect (i : InstId) (op : Opcode) (ty : Ty) (operands : List I.Value)
  | trap (i : InstId) (op : Opcode) (operands : List I.Value)
  /-- A jump or a branch to a block, or a return. -/
  | transfer (i : InstId) (op : Opcode) (operands : List I.Value) (dest : Option BlockId)

variable {I : Interpretation}

def Event.isTrap : I.Event → Bool
  | .trap .. => true
  | _ => false

/-- What an instruction does. -/
inductive Effect (I : Interpretation) where
  /-- Its value and the memory after it; the next instruction follows. -/
  | value (events : List I.Event) (v : I.Value) (memory : I.Memory)
  | goto (e : I.Event) (dest : BlockId)
  | stop (e : I.Event)

/-- What instruction `i` does, given the values of its operands. -/
def effect (I : Interpretation) (i : InstId) (op : Opcode) (ty : Ty) (vs : List I.Value)
    (m : I.Memory) : I.Effect :=
  match op with
  | .binary _ | .compare _ | .cast _ | .select | .elementPtr =>
    match I.compute op ty vs with
    | some v => .value [] v m
    | none => .stop (.trap i op vs)
  | .load | .store | .call _ | .alloca _ =>
    .value [.effect i op ty vs] (I.perform op ty vs m).1 (I.perform op ty vs m).2
  | .jump dest => .goto (.transfer i op vs (some dest)) dest
  | .branch onTrue onFalse =>
    let dest := if I.isTrue (vs.headD I.undefined) then onTrue else onFalse
    .goto (.transfer i op vs (some dest)) dest
  | .ret => .stop (.transfer i op vs none)
  -- phis are assigned on entry to their block
  | .phi _ | .memPhi _ => .value [] I.undefined m

/-- The value of an operand. -/
def eval (I : Interpretation) (args : Nat → I.Value) (regs : InstId → I.Value) :
    Operand → I.Value
  | .inst i => regs i
  | .arg n => args n
  | .global n => I.global n
  | .lit l => I.literal l

/-- The values that an instruction reads. -/
def inputs (I : Interpretation) (args : Nat → I.Value) (regs : InstId → I.Value)
    (x : Instruction) : List I.Value :=
  x.operands.map (I.eval args regs)

/-- Division and remainder trap exactly on a zero divisor, and nothing else traps. -/
structure TrapsOnZero (I : Interpretation) (isZero : I.Value → Prop) : Prop where
  literal : ∀ {l : Literal} {n : Int}, l.toInt? = some n → (isZero (I.literal l) ↔ n = 0)
  compute : ∀ {op : Opcode} {ty : Ty} {vs : List I.Value}, op.isPure →
    (I.compute op ty vs = none ↔
      ∃ d, op = .binary d ∧ d.canTrap ∧ ∃ z, vs[1]? = some z ∧ isZero z)

/-- No visit of the run traps. -/
def Quiet (visits : List (BlockId × List I.Event)) : Prop :=
  ∀ v ∈ visits, ∀ e ∈ v.2, e.isTrap = false

instance (visits : List (BlockId × List I.Event)) : Decidable (Quiet visits) :=
  inferInstanceAs (Decidable (∀ _ ∈ _, _))

def State.write (s : I.State) (i : InstId) (v : I.Value) (m : I.Memory) : I.State :=
  ⟨fun j => if j = i then v else s.regs j, m⟩

end Interpretation

namespace Func

open Interpretation

variable (I : Interpretation) (f : Func) (args : Nat → I.Value)

/-- Execute instructions in order, up to one that transfers control or traps. -/
def execute : List InstId → I.State → List I.Event × Option (BlockId × I.State)
  | [], _ => ([], none)
  | i :: rest, s =>
    match f.bare? i with
    | none => ([], none)
    | some x =>
      match I.effect i x.op x.ty (I.inputs args s.regs x) s.memory with
      | .value es v m =>
        let r := execute rest (s.write i v m)
        (es ++ r.1, r.2)
      | .goto e dest => ([e], some (dest, s))
      | .stop e => ([e], none)

/-- The operand of phi data that belongs to the edge taken. -/
def incomingOperand (origin : Option BlockId) (x : Instruction) : Option Operand := do
  let k ← (← x.op.incoming?).idxOf? (← origin)
  x.operands[k]?

/-- The value that a phi gets from the edge taken. -/
def phiValue (origin : Option BlockId) (regs : InstId → I.Value) (i : InstId) : I.Value :=
  (((f.bare? i).bind (incomingOperand origin)).map (I.eval args regs)).getD I.undefined

/-- Assign the phis of a block, all at once. -/
def enter (origin : Option BlockId) (b : BlockId) (s : I.State) : I.State :=
  { s with regs := fun i =>
      if i ∈ f.listOf b ∧ f.isPhi i then f.phiValue I args origin s.regs i else s.regs i }

/-- One visit of a block: what happens in it, and where control goes. -/
def visit (origin : Option BlockId) (b : BlockId) (s : I.State) :
    List I.Event × Option (BlockId × I.State) :=
  f.execute I args ((f.listOf b).filter fun i => !f.isPhi i) (f.enter I args origin b s)

/-- The first `k` block visits of a run that comes to `b`, each with its events. -/
def traceFrom : Nat → Option BlockId → BlockId → I.State → List (BlockId × List I.Event)
  | 0, _, _, _ => []
  | k + 1, origin, b, s =>
    let r := f.visit I args origin b s
    (b, r.1) :: match r.2 with
      | none => []
      | some (next, s') => traceFrom k (some b) next s'

/-- The first `k` block visits of a call with the given arguments and memory. -/
def trace (memory : I.Memory) (k : Nat) : List (BlockId × List I.Event) :=
  f.traceFrom I args k none .entry ⟨fun _ => I.undefined, memory⟩

end Func

/-! ## The integers -/

namespace Interpretation

/-- Binary operators on integers that never trap; the bits are those of natural numbers. -/
def onIntegers : BinaryOp → Int → Int → Int
  | .add, m, n => m + n
  | .sub, m, n => m - n
  | .mul, m, n => m * n
  | .sdiv, m, n | .udiv, m, n => m.tdiv n
  | .srem, m, n | .urem, m, n => m.tmod n
  | .and, m, n => (m.toNat &&& n.toNat : Nat)
  | .or, m, n => (m.toNat ||| n.toNat : Nat)
  | .xor, m, n => (m.toNat ^^^ n.toNat : Nat)
  | .shl, m, n => m * Nat.pow 2 n.toNat
  | .ashr, m, n | .lshr, m, n => m / Nat.pow 2 n.toNat

def holds : CompareOp → Int → Int → Bool
  | .eq, m, n => m = n
  | .ne, m, n => m ≠ n
  | .slt, m, n | .ult, m, n => m < n
  | .sle, m, n | .ule, m, n => m ≤ n
  | .sgt, m, n | .ugt, m, n => n < m
  | .sge, m, n | .uge, m, n => n ≤ m

/-- What pure instructions compute on integers. -/
def computeIntegers (op : Opcode) (vs : List Int) : Option Int :=
  match op, vs with
  | .binary d, vs =>
    if d.canTrap && vs[1]? = some 0 then none
    else some (onIntegers d (vs[0]?.getD 0) (vs[1]?.getD 0))
  | .compare c, vs => some (if holds c (vs[0]?.getD 0) (vs[1]?.getD 0) then 1 else 0)
  | .select, c :: m :: n :: _ => some (if c = 0 then n else m)
  | .elementPtr, vs => some (vs.foldl (· + ·) 0)
  | _, vs => some (vs[0]?.getD 0)

theorem computeIntegers_eq_none_iff {op : Opcode} {vs : List Int} : computeIntegers op vs = none ↔
    ∃ d, op = .binary d ∧ d.canTrap ∧ ∃ z, vs[1]? = some z ∧ z = 0 := by
  cases op with
  | binary d => simp [computeIntegers]
  | select => rcases vs with _ | ⟨c, _ | ⟨m, _ | ⟨n, vs⟩⟩⟩ <;> simp [computeIntegers]
  | _ => simp [computeIntegers]

/-- Integers of any size, in a memory of integers. A call returns zero and an allocation gives the
address zero. -/
def integers : Interpretation where
  Value := Int
  Memory := Int → Int
  undefined := 0
  literal l := l.toInt?.getD 0
  global n := n
  compute op _ vs := computeIntegers op vs
  perform op _ vs m := match op, vs with
    | .load, address :: _ => (m address, m)
    | .store, v :: address :: _ => (0, fun n => if n = address then v else m n)
    | _, _ => (0, m)
  isTrue n := n ≠ (0 : Int)

/-- A vector of arguments, followed by zeros. -/
def integerArgs (ns : List Int) : Nat → integers.Value := fun n => ns.getD n (0 : Int)

def zeroMemory : integers.Memory := fun _ => (0 : Int)

theorem integers_trapsOnZero : integers.TrapsOnZero fun n => n = (0 : Int) where
  literal {l n} hn := by simp [integers, hn]
  compute _ := computeIntegers_eq_none_iff

end Interpretation

end SsaOpt
