import SsaOpt.Operand

/-! When two literals are the same operand: if they have one type and one bit pattern, or one type
and denote one integer. Numeric equality is neither finer nor coarser. It takes the two zeros of a
floating-point type for one number, and a number that is none for different from itself. -/

namespace SsaOpt

/-- The type of a literal. -/
def Literal.ty : Literal → Ty
  | .i1 _ => .i1
  | .i32 _ => .i32
  | .i64 _ => .i64
  | .f32 _ => .f32
  | .f64 _ => .f64

/-- Of each type there is one literal for an integer. -/
theorem Literal.eq_of_toInt?_eq {l l' : Literal} {n : Int} (hl : l.toInt? = some n)
    (hl' : l'.toInt? = some n) (hty : l.ty = l'.ty) : l = l' := by
  have hn := hl.trans hl'.symm
  cases l <;> cases l' <;> simp only [Literal.ty, reduceCtorEq] at hty <;>
    simp only [Literal.toInt?, Option.some.injEq, reduceCtorEq] at hl hn
  case i1.i1 v w => cases v <;> cases w <;> simp_all
  case i32.i32 => exact congrArg _ (Int32.toInt_inj.mp hn)
  case i64.i64 => exact congrArg _ (Int64.toInt_inj.mp hn)

/-- The bit pattern of a literal, as a number. Integers are in two's complement. -/
def Literal.bits : Literal → Nat
  | .i1 b => b.toNat
  | .i32 n => n.toBitVec.toNat
  | .i64 n => n.toBitVec.toNat
  | .f32 bits => bits.toNat
  | .f64 bits => bits.toNat

/-- Of each type there is one literal for a bit pattern. -/
theorem Literal.eq_of_bits_eq {l l' : Literal} (hty : l.ty = l'.ty) (hbits : l.bits = l'.bits) :
    l = l' := by
  cases l <;> cases l' <;> simp only [Literal.ty, reduceCtorEq] at hty <;>
    simp only [Literal.bits] at hbits
  case i1.i1 v w => cases v <;> cases w <;> simp_all
  case i32.i32 => exact congrArg _ (Int32.toBitVec_inj.mp (BitVec.eq_of_toNat_eq hbits))
  case i64.i64 => exact congrArg _ (Int64.toBitVec_inj.mp (BitVec.eq_of_toNat_eq hbits))
  case f32.f32 => exact congrArg _ (UInt32.toNat_inj.mp hbits)
  case f64.f64 => exact congrArg _ (UInt64.toNat_inj.mp hbits)

namespace Operand

/-- The integer that a literal operand denotes. -/
def toInt? (o : Operand) : Option Int := o.lit?.bind Literal.toInt?

/-- The type that a literal operand has. -/
def litTy? (o : Operand) : Option Ty := o.lit?.map Literal.ty

theorem exists_lit_of_toInt? {o : Operand} {n : Int} (h : o.toInt? = some n) :
    ∃ l, o = .lit l ∧ l.toInt? = some n := by
  cases o with
  | lit l => exact ⟨l, rfl, h⟩
  | inst | arg | global => cases h

theorem eq_of_toInt?_eq {o o' : Operand} {n : Int} (ho : o.toInt? = some n)
    (ho' : o'.toInt? = some n) (hty : o.litTy? = o'.litTy?) : o = o' := by
  obtain ⟨l, rfl, hl⟩ := exists_lit_of_toInt? ho
  obtain ⟨l', rfl, hl'⟩ := exists_lit_of_toInt? ho'
  exact congrArg _ (Literal.eq_of_toInt?_eq hl hl' (Option.some.inj hty))

/-- The operands are one instruction, argument or global, or literals of one type and one bit
pattern. -/
inductive Same : Operand → Operand → Prop
  | inst (i : InstId) : Same (.inst i) (.inst i)
  | arg (n : Nat) : Same (.arg n) (.arg n)
  | global (n : Nat) : Same (.global n) (.global n)
  | lit {l l' : Literal} (hty : l.ty = l'.ty) (hbits : l.bits = l'.bits) : Same (.lit l) (.lit l')

theorem Same.refl (o : Operand) : o.Same o := by
  cases o with
  | inst i => exact .inst i
  | arg n => exact .arg n
  | global n => exact .global n
  | lit l => exact .lit rfl rfl

/-- Operands are compared by identity. -/
theorem same_iff_eq {o o' : Operand} : o.Same o' ↔ o = o' := by
  constructor
  · intro h
    cases h with
    | inst | arg | global => rfl
    | lit hty hbits => exact congrArg _ (Literal.eq_of_bits_eq hty hbits)
  · intro h
    exact h ▸ .refl o

end Operand

end SsaOpt
