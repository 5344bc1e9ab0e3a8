import Offside.Number.Shortest

/-!
# Spellings of numbers

A number is spelled with its shortest digits. The plain spelling is positional throughout and
leaves out the point of a whole number. The marked spelling always shows that the number is a
floating-point number: a whole number ends in `.0`, and numbers from ten to the sixteenth on
and below ten to the minus fourth have an exponent.
-/

namespace Offside

namespace Decimal

def text (d : Decimal) : List Char :=
  Nat.toDigits 10 d.digits

/-- The power of ten of the leading digit. -/
def order (d : Decimal) : Int :=
  d.text.length + d.exponent - 1

/-- The decimal without an exponent; `whole` is what follows a whole number. -/
def positional (d : Decimal) (whole : String) : String :=
  let text := d.text
  if 0 ≤ d.exponent then
    String.ofList (text ++ List.replicate d.exponent.toNat '0') ++ whole
  else
    let places := (-d.exponent).toNat
    let padded := List.replicate (places + 1 - text.length) '0' ++ text
    let front := padded.length - places
    String.ofList (padded.take front) ++ "." ++ String.ofList (padded.drop front)

/-- The decimal with one digit in front of the point and an exponent. -/
def scientific (d : Decimal) : String :=
  let fraction := match d.text with
    | [] => ""
    | [lead] => String.singleton lead
    | lead :: rest => String.singleton lead ++ "." ++ String.ofList rest
  fraction ++ "e" ++ toString d.order

end Decimal

namespace Binary64

/-- Spells the sign and the exceptional values; `finite` spells a magnitude other than zero. -/
def spellWith (zero : String) (finite : Decimal → String) (x : Binary64) : String :=
  if x.isNaN then "NaN"
  else
    let sign := if x.isNegative then "-" else ""
    let magnitude :=
      if !x.isFinite then "inf"
      else if x.significand = 0 then zero
      else finite x.shortest
    sign ++ magnitude

/-- The spelling without any exponent: `1`, `0.1`, `1000000000000000000000`. -/
def plain (x : Binary64) : String :=
  x.spellWith "0" fun d => d.positional ""

/-- The spelling that marks a floating-point number: `1.0`, `0.1`, `1e21`, `1e-7`. -/
def marked (x : Binary64) : String :=
  x.spellWith "0.0" fun d =>
    if -5 < d.order ∧ d.order < 16 then d.positional ".0" else d.scientific

end Binary64

end Offside
