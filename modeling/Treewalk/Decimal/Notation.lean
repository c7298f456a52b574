import Treewalk.Decimal.Shortest

/-!
Numbers as text. A layout fixes which numbers are written out in full and
which with a power of ten, and whether a whole number keeps a fraction.
-/
namespace Treewalk

/-- How a number is laid out. Numbers whose first digit stands at a power of ten for
which `inFull` holds are written without an exponent. -/
structure Layout where
  inFull : Int → Bool
  wholeSuffix : String

namespace Layout

/-- Never an exponent, and no fraction for a whole number. -/
def plain : Layout := ⟨fun _ => true, ""⟩

/-- An exponent from `1e16` up and below `1e-4`; a whole number in full ends in `.0`. -/
def explicit : Layout := ⟨fun lead => -4 ≤ lead && lead < 16, ".0"⟩

end Layout

namespace Decimal

def digits (d : Decimal) : List Char := Nat.toDigits 10 d.coefficient

def inFull (layout : Layout) (d : Decimal) : String :=
  let ds := d.digits
  if 0 ≤ d.exponent then
    String.ofList (ds ++ List.replicate d.exponent.toNat '0') ++ layout.wholeSuffix
  else
    let places := (-d.exponent).toNat
    let padded := List.replicate (places + 1 - ds.length) '0' ++ ds
    let whole := padded.length - places
    String.ofList (padded.take whole) ++ "." ++ String.ofList (padded.drop whole)

def withExponent (lead : Int) (d : Decimal) : String :=
  let fraction := match d.digits with
    | [] | [_] => ""
    | _ :: rest => "." ++ String.ofList rest
  String.ofList (d.digits.take 1) ++ fraction ++ "e" ++ toString lead

def render (layout : Layout) (d : Decimal) : String :=
  let lead := d.exponent + d.digits.length - 1
  if d.coefficient = 0 || layout.inFull lead then d.inFull layout else d.withExponent lead

end Decimal

def Layout.number (layout : Layout) (x : Float) : String :=
  let signed (negative : Bool) (text : String) := if negative then "-" ++ text else text
  match Binary.ofFloat x with
  | .nan => "NaN"
  | .infinite negative => signed negative "inf"
  | .finite negative 0 _ => signed negative (Decimal.render layout ⟨0, 0⟩)
  | .finite negative significand exponent =>
    signed negative (Decimal.render layout (Decimal.shortest significand exponent))

end Treewalk
