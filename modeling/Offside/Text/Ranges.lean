/-!
# Ranges of code points

A character property beyond ASCII is a list of closed ranges of code points in increasing
order. Membership is decided by walking the list, and the walk stops at the first range that
starts above the code point.
-/

namespace Offside.Text

/-- Closed ranges of code points in increasing order. -/
abbrev Ranges := List (Nat × Nat)

namespace Ranges

/--
The ranges from a code point on, given by runs: so many code points stand before the first range,
so many are in it, so many stand before the next one, and so on.
-/
def ofRuns : Nat → List Nat → Ranges
  | start, gap :: size :: rest =>
    (start + gap, start + gap + size - 1) :: ofRuns (start + gap + size) rest
  | _, _ => []

/-- Decides whether some range holds the code point. -/
def holds : Ranges → Nat → Bool
  | [], _ => false
  | (low, high) :: rest, code =>
    if code < low then false
    else if code ≤ high then true
    else holds rest code

end Ranges

/-- The first byte of the UTF-8 form of a code point. -/
def leadByte (code : Nat) : Nat :=
  if code < 0x80 then code
  else if code < 0x800 then 0xc0 + code / 0x40
  else if code < 0x10000 then 0xe0 + code / 0x1000
  else 0xf0 + code / 0x40000

/-- Decides whether some code point of the ranges shares its first UTF-8 byte with `code`. -/
def Ranges.sharesLead (ranges : Ranges) (code : Nat) : Bool :=
  ranges.any fun (low, high) => leadByte low ≤ leadByte code && leadByte code ≤ leadByte high

end Offside.Text
