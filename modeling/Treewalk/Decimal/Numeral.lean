import Treewalk.Decimal.Shortest

/-!
Reading numbers. A numeral is an optional sign, then `inf`, `infinity` or `nan` in
any letter case, or digits with at most one point and an optional exponent. The
double read is the nearest one, and a tie goes to the even significand.
-/
namespace Treewalk

namespace Decimal

/-- The quotient to the nearest integer, a half to the even neighbour. -/
def roundDiv (num den : Nat) : Nat :=
  let q := num / den
  let twice := 2 * (num % den)
  if twice < den then q
  else if den < twice then q + 1
  else q + q % 2

def nearestRatio (negative : Bool) (num den : Nat) : Float :=
  let guess := (num.log2 : Int) - den.log2 - 53
  let scaled (exponent : Int) : Nat × Nat :=
    (num * Nat.pow 2 (-exponent).toNat, den * Nat.pow 2 exponent.toNat)
  let (n, d) := scaled guess
  let tight := if n / d < Nat.pow 2 53 then guess else guess + 1
  let exponent := max tight Binary.leastExponent
  let (n, d) := scaled exponent
  Binary.toFloat negative (roundDiv n d) exponent

/-- The nearest double. Decimals far beyond the largest double, or far below the
smallest, are decided by their order of magnitude alone. -/
def toFloat (negative : Bool) (d : Decimal) : Float :=
  let order := d.exponent + (Nat.toDigits 10 d.coefficient).length
  if d.coefficient = 0 || order < -400 then Binary.toFloat negative 0 Binary.leastExponent
  else if 400 < order then Binary.toFloat negative 0 (Binary.leastExponent + Binary.topField)
  else
    nearestRatio negative (d.coefficient * Nat.pow 10 d.exponent.toNat)
      (Nat.pow 10 (-d.exponent).toNat)

end Decimal

namespace Numeral

def isDigit (c : Char) : Bool := '0' ≤ c && c ≤ '9'

def digitsValue (cs : List Char) : Nat :=
  cs.foldl (fun n c => 10 * n + (c.toNat - '0'.toNat)) 0

def takeSign : List Char → Bool × List Char
  | '-' :: cs => (true, cs)
  | '+' :: cs => (false, cs)
  | cs => (false, cs)

def exponent? : List Char → Option Int
  | [] => some 0
  | e :: cs =>
    if e = 'e' ∨ e = 'E' then
      let (negative, ds) := takeSign cs
      if ds ≠ [] ∧ ds.all isDigit then
        some (if negative then -(digitsValue ds : Int) else digitsValue ds)
      else none
    else none

/-- Digits with at most one point among them, at least one digit, then an exponent. -/
def decimal? (cs : List Char) : Option Decimal :=
  let whole := cs.takeWhile isDigit
  let rest := cs.dropWhile isDigit
  let (fraction, rest) := match rest with
    | '.' :: after => (after.takeWhile isDigit, after.dropWhile isDigit)
    | _ => ([], rest)
  if whole = [] ∧ fraction = [] then none
  else (exponent? rest).map fun e =>
    ⟨digitsValue (whole ++ fraction), e - fraction.length⟩

def read? (text : String) : Option Float :=
  let (negative, cs) := takeSign text.toList
  let name := String.ofList (cs.map Char.toLower)
  if name = "inf" ∨ name = "infinity" then
    some (Binary.toFloat negative 0 (Binary.leastExponent + Binary.topField))
  else if name = "nan" then
    let word := Binary.topField * Nat.pow 2 Binary.fractionBits + Nat.pow 2 51
    some (Float.ofBits (UInt64.ofNat word))
  else (decimal? cs).map (Decimal.toFloat negative)

end Numeral

end Treewalk
