import SsaOpt.Decimal.Shortest

/-! How a floating-point value is written: positionally near one, with an exponent elsewhere. -/

namespace SsaOpt.Decimal

/-- Where positional notation is used, and the texts of the special values. -/
structure Layout where
  /-- Least decimal exponent of the leading digit written positionally. -/
  plainFrom : Int
  /-- First decimal exponent of the leading digit written with an exponent again. -/
  plainBelow : Int
  nan : String
  infinity : String

def zeros (n : Nat) : String := String.ofList (List.replicate n '0')

/-- Positional text; it always shows a digit after the point. -/
def Numeral.plain (d : Numeral) : String :=
  let s := toString d.digits
  let n := (s.length : Int) + d.exponent
  if 0 ≤ d.exponent then s ++ zeros d.exponent.toNat ++ ".0"
  else if 0 < n then
    String.ofList (s.toList.take n.toNat) ++ "." ++ String.ofList (s.toList.drop n.toNat)
  else "0." ++ zeros (-n).toNat ++ s

/-- One digit, the rest after a point if there is a rest, and the exponent. -/
def Numeral.scientific (d : Numeral) : String :=
  let s := toString d.digits
  let e := (s.length : Int) - 1 + d.exponent
  let rest := String.ofList (s.toList.drop 1)
  String.ofList (s.toList.take 1) ++ (if rest.isEmpty then "" else "." ++ rest) ++ "e" ++ toString e

/-- The magnitude of a finite value. -/
def Layout.magnitude (l : Layout) (fmt : Format) (bits : Nat) : String :=
  if fmt.isZero bits then "0.0"
  else
    let d := (Binary.ofBits fmt bits).shortest fmt.enoughDigits
    let e := (toString d.digits).length - 1 + d.exponent
    if l.plainFrom ≤ e ∧ e < l.plainBelow then d.plain else d.scientific

/-- The text of a value; a NaN shows neither sign nor payload. -/
def Layout.render (l : Layout) (fmt : Format) (bits : Nat) : String :=
  if fmt.isNaN bits then l.nan
  else
    let text := if fmt.isSpecial bits then l.infinity else l.magnitude fmt bits
    if fmt.isNegative bits then "-" ++ text else text

end SsaOpt.Decimal
