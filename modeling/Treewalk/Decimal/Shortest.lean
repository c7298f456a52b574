import Treewalk.Decimal.Binary

/-!
The shortest decimal of a double: of all decimals that read back as the double
those with the fewest digits, and of these the nearest to it. The search goes
grid by grid, from one significant digit on, and looks at the two points of
each grid next to the double, in exact arithmetic.
-/
namespace Treewalk

structure Decimal where
  coefficient : Nat
  exponent : Int
deriving DecidableEq

/-- The positive rationals that round to a given double: all between `low / unit` and
`high / unit`, the ends too when `closed`, around the double itself, `value / unit`. -/
structure Rounding where
  low : Nat
  value : Nat
  high : Nat
  unit : Nat
  closed : Bool

namespace Rounding

/-- Around `significand * 2 ^ exponent`. The gap below a power of two is half the gap
above it, and a tie between two doubles goes to the even significand. -/
def ofBinary (significand : Nat) (exponent : Int) : Rounding :=
  let scale := Nat.pow 2 exponent.toNat
  let narrow := significand = Nat.pow 2 Binary.fractionBits ∧ Binary.leastExponent < exponent
  { low := (4 * significand - if narrow then 1 else 2) * scale
    value := 4 * significand * scale
    high := (4 * significand + 2) * scale
    unit := 4 * Nat.pow 2 (-exponent).toNat
    closed := significand % 2 = 0 }

def holds (r : Rounding) (point step : Nat) : Bool :=
  if r.closed then r.low * step ≤ point * r.unit && point * r.unit ≤ r.high * step
  else r.low * step < point * r.unit && point * r.unit < r.high * step

/-- The grid point next to the double that reads back as it, if there is one: of two
the nearer, and of two at the same distance the larger. Grid points are the multiples
of `10 ^ exponent`. -/
def gridPoint? (r : Rounding) (exponent : Int) : Option Nat :=
  let coarse := Nat.pow 10 exponent.toNat
  let fine := Nat.pow 10 (-exponent).toNat
  let below := r.value * fine / (r.unit * coarse)
  let fits (point : Nat) := r.holds (point * coarse) fine
  if fits below then
    let nearer := 2 * r.value * fine < (2 * below + 1) * (r.unit * coarse)
    if fits (below + 1) && !nearer then some (below + 1) else some below
  else if fits (below + 1) then some (below + 1)
  else none

def leadingExponent (r : Rounding) : Int :=
  if r.unit ≤ r.value then ((Nat.toDigits 10 (r.value / r.unit)).length : Int) - 1
  else match (List.range 330).find? fun k => r.unit ≤ r.value * Nat.pow 10 k with
    | some k => -k
    | none => 0

end Rounding

namespace Decimal

def trimZeros : Nat → Decimal → Decimal
  | 0, d => d
  | steps + 1, d =>
    if d.coefficient % 10 = 0 ∧ d.coefficient ≠ 0 then
      trimZeros steps ⟨d.coefficient / 10, d.exponent + 1⟩
    else d

/-- Seventeen digits always suffice for a double. -/
def mostDigits : Nat := 17

def shortest (significand : Nat) (exponent : Int) : Decimal :=
  let r := Rounding.ofBinary significand exponent
  let lead := r.leadingExponent
  let onGrid (digits : Nat) : Option Decimal :=
    let grid := lead - digits
    (r.gridPoint? grid).map fun point => trimZeros mostDigits ⟨point, grid⟩
  ((List.range mostDigits).findSome? onGrid).getD ⟨0, 0⟩

end Decimal

end Treewalk
