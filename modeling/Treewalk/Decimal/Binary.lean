/-!
Double-precision numbers taken apart. A finite double is a significand times a
power of two; the significand of a normal double has 53 bits, and the smallest
exponent is that of the subnormal ones.
-/
namespace Treewalk

/-- A finite double stands for `±significand * 2 ^ exponent`. -/
inductive Binary where
  | finite (negative : Bool) (significand : Nat) (exponent : Int)
  | infinite (negative : Bool)
  | nan
deriving DecidableEq

namespace Binary

def fractionBits : Nat := 52

def leastExponent : Int := -1074

/-- The exponent field shared by infinities and NaN. -/
def topField : Nat := 2047

def ofFloat (x : Float) : Binary :=
  let word := x.toBits.toNat
  let negative := word / Nat.pow 2 63 == 1
  let field := word / Nat.pow 2 fractionBits % Nat.pow 2 11
  let fraction := word % Nat.pow 2 fractionBits
  if field = topField then
    if fraction = 0 then infinite negative else nan
  else if field = 0 then finite negative fraction leastExponent
  else finite negative (Nat.pow 2 fractionBits + fraction) (leastExponent + field - 1)

/-- The double with the given sign and magnitude `significand * 2 ^ exponent`. The
significand has at most 53 bits, and exactly 53 above the least exponent; a
magnitude too large for a finite double gives an infinity. A significand of `2 ^ 53`
carries into the exponent field, as rounding up needs. -/
def toFloat (negative : Bool) (significand : Nat) (exponent : Int) : Float :=
  let magnitude := (exponent - leastExponent).toNat * Nat.pow 2 fractionBits + significand
  let word := min magnitude (topField * Nat.pow 2 fractionBits)
  Float.ofBits (UInt64.ofNat (word + if negative then Nat.pow 2 63 else 0))

end Binary

end Treewalk
