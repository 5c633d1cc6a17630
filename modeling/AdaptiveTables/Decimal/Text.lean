import AdaptiveTables.Decimal.Shortest

/-!
Texts of doubles. Both layouts write the shortest decimal that reads back as the same double:
one with every place up to the last digit, the other with one digit before the point and a power
of ten.
-/

namespace AdaptiveTables
namespace Decimal

/-- The digits as text, the first one worth `10 ^ leadingExponent`. -/
def digitText (d : Decimal) : String := toString d.digits

def leadingExponent (d : Decimal) : Int := d.exponent + d.digitText.length - 1

def zeros (n : Nat) : String := String.ofList (List.replicate n '0')

/-- Digits in their places, without a power of ten. -/
def positional (d : Decimal) : String :=
  let digits := d.digitText
  if 0 ≤ d.exponent then digits ++ zeros d.exponent.toNat
  else
    let places := (-d.exponent).toNat
    if places < digits.length then
      let whole := digits.length - places
      String.ofList (digits.toList.take whole) ++ "." ++ String.ofList (digits.toList.drop whole)
    else "0." ++ zeros (places - digits.length) ++ digits

/-- One digit before the point, and the power of ten always written. -/
def scientific (d : Decimal) : String :=
  let head := String.ofList (d.digitText.toList.take 1)
  let tail := String.ofList (d.digitText.toList.drop 1)
  let point := if tail.isEmpty then "" else "."
  head ++ point ++ tail ++ "e" ++ toString d.leadingExponent

end Decimal

namespace Double

inductive Layout where
  | positional
  | scientific

/-- The text of a number that is zero or finite, without its sign. -/
def Layout.write (layout : Layout) (m : Nat) (q : Int) : String :=
  let d : Decimal := if m = 0 then ⟨0, 0⟩ else Decimal.shortest m q
  match layout with
  | .positional => d.positional
  | .scientific => d.scientific

/-- What the lowest bit of the biased exponent of a double is worth. -/
def fractionWeight : Nat := Nat.pow 2 52

/-- The text of a double. The sign of zero is written, and a value that is not a number has
none. -/
def text (layout : Layout) (x : Float) : String :=
  let bits := x.toBits.toNat
  let sign := if bits / (fractionWeight * 2048) = 0 then "" else "-"
  let biased : Nat := bits / fractionWeight % 2048
  let significand := bits % fractionWeight
  if biased = 2047 then (if significand = 0 then sign ++ "inf" else "NaN")
  else if biased = 0 then sign ++ layout.write significand (-1074)
  else sign ++ layout.write (fractionWeight + significand) (Int.ofNat biased - 1075)

end Double
end AdaptiveTables
