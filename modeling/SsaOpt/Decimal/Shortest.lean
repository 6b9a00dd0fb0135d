/-! The shortest decimal that reads back as a given binary floating-point value.

A finite value is `mantissa * 2 ^ exponent`. Every real in an interval around it rounds to it; the
ends belong to the interval exactly when the mantissa is even. On the decimal grids of one digit,
two digits, and so on, the two neighbours of the value are tried, and the first grid on which one
of them lies in the interval gives the answer. All arithmetic is exact. -/

namespace SsaOpt.Decimal

/-- Field widths of a binary interchange format, and the number of decimal digits that always
suffice to tell its values apart. -/
structure Format where
  exponentBits : Nat
  fractionBits : Nat
  enoughDigits : Nat

def single : Format := ⟨8, 23, 9⟩

def double : Format := ⟨11, 52, 17⟩

namespace Format

/-- The encoded exponent field. -/
def exponentField (fmt : Format) (bits : Nat) : Nat :=
  bits / Nat.pow 2 fmt.fractionBits % Nat.pow 2 fmt.exponentBits

/-- The encoded fraction field. -/
def fractionField (fmt : Format) (bits : Nat) : Nat := bits % Nat.pow 2 fmt.fractionBits

def isNegative (fmt : Format) (bits : Nat) : Bool :=
  bits / Nat.pow 2 (fmt.fractionBits + fmt.exponentBits) % 2 = 1

/-- The exponent field of infinities and NaNs. -/
def isSpecial (fmt : Format) (bits : Nat) : Bool :=
  fmt.exponentField bits = Nat.pow 2 fmt.exponentBits - 1

def isNaN (fmt : Format) (bits : Nat) : Bool :=
  fmt.isSpecial bits && fmt.fractionField bits != 0

/-- Either zero. -/
def isZero (fmt : Format) (bits : Nat) : Bool :=
  fmt.exponentField bits = 0 && fmt.fractionField bits = 0

/-- Exponent of the least positive value. -/
def leastExponent (fmt : Format) : Int :=
  2 - (Nat.pow 2 (fmt.exponentBits - 1) : Nat) - fmt.fractionBits

/-- Numeric equality: a NaN equals nothing, the two zeros are equal. -/
def numericEq (fmt : Format) (a b : Nat) : Bool :=
  !fmt.isNaN a && !fmt.isNaN b && (a = b || (fmt.isZero a && fmt.isZero b))

end Format

/-- The magnitude `mantissa * 2 ^ exponent` of a finite value. -/
structure Binary where
  mantissa : Nat
  exponent : Int
  /-- The gap to the value below is half the gap to the value above. -/
  narrowBelow : Bool
deriving DecidableEq, Repr

/-- Decode the magnitude of a finite value. -/
def Binary.ofBits (fmt : Format) (bits : Nat) : Binary :=
  let e := fmt.exponentField bits
  let f := fmt.fractionField bits
  if e = 0 then ⟨f, fmt.leastExponent, false⟩
  else ⟨Nat.pow 2 fmt.fractionBits + f, fmt.leastExponent + e - 1, f = 0 && e > 1⟩

/-- The decimal `digits * 10 ^ exponent`. -/
structure Numeral where
  digits : Nat
  exponent : Int
deriving DecidableEq, Repr

/-- Compare `a * 10 ^ i` with `n * 2 ^ j`. -/
def compareScaled (a : Nat) (i : Int) (n : Nat) (j : Int) : Ordering :=
  compare (a * Nat.pow 10 i.toNat * Nat.pow 2 (-j).toNat)
    (n * Nat.pow 2 j.toNat * Nat.pow 10 (-i).toNat)

/-- The decimal lies among the reals that round to `x`. -/
def Binary.readsBack (x : Binary) (d : Numeral) : Bool :=
  let low := if x.narrowBelow then 4 * x.mantissa - 1 else 4 * x.mantissa - 2
  let high := 4 * x.mantissa + 2
  let closed := x.mantissa % 2 = 0
  let fromLow := compareScaled d.digits d.exponent low (x.exponent - 2)
  let fromHigh := compareScaled d.digits d.exponent high (x.exponent - 2)
  (fromLow = .gt || (closed && fromLow = .eq)) && (fromHigh = .lt || (closed && fromHigh = .eq))

/-- The value as a fraction of natural numbers. -/
def Binary.fraction (x : Binary) : Nat × Nat :=
  (x.mantissa * Nat.pow 2 x.exponent.toNat, Nat.pow 2 (-x.exponent).toNat)

/-- Number of decimal digits. -/
def digitCount (n : Nat) : Nat := (Nat.toDigits 10 n).length

/-- The decimal exponent of the leading digit of a positive value. -/
def Binary.leadingExponent (x : Binary) : Int :=
  let (n, d) := x.fraction
  if d ≤ n then (digitCount (n / d) : Int) - 1
  else
    let t := digitCount (d / n)
    if d ≤ n * Nat.pow 10 (t - 1) then 1 - (t : Int) else -(t : Int)

/-- The neighbour of the value on the grid `10 ^ exponent` that reads back. Of two such neighbours
the nearer is taken, and the upper one when they are equally near. -/
def Binary.onGrid? (x : Binary) (exponent : Int) : Option Numeral :=
  let (n, d) := x.fraction
  let n := n * Nat.pow 10 (-exponent).toNat
  let d := d * Nat.pow 10 exponent.toNat
  let below : Numeral := ⟨n / d, exponent⟩
  let above : Numeral := ⟨n / d + 1, exponent⟩
  match x.readsBack below, x.readsBack above with
  | true, true => if 2 * (n % d) < d then some below else some above
  | true, false => some below
  | false, true => some above
  | false, false => none

/-- The exact decimal value. -/
def Binary.exact (x : Binary) : Numeral :=
  if 0 ≤ x.exponent then ⟨x.mantissa * Nat.pow 2 x.exponent.toNat, 0⟩
  else ⟨x.mantissa * Nat.pow 5 (-x.exponent).toNat, x.exponent⟩

/-- Drop trailing zeros of the digits; `fuel` bounds their number. -/
def Numeral.stripZeros : Nat → Numeral → Numeral
  | 0, d => d
  | fuel + 1, d =>
    if d.digits ≠ 0 ∧ d.digits % 10 = 0 then stripZeros fuel ⟨d.digits / 10, d.exponent + 1⟩ else d

/-- The shortest decimal that reads back as the positive value `x`. -/
def Binary.shortest (x : Binary) (enoughDigits : Nat) : Numeral :=
  let lead := x.leadingExponent
  let found := (List.range enoughDigits).findSome? fun (k : Nat) => x.onGrid? (lead - k)
  let d := found.getD x.exact
  d.stripZeros (digitCount d.digits)

end SsaOpt.Decimal
