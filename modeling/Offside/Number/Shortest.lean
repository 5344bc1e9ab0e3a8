import Offside.Number.Binary

/-!
# The shortest decimal of a number

Among the decimals that read back as a given number, those with the fewest digits are taken,
and of them the nearest one. The search walks the grids of one, two, … seventeen digits and
tests on each grid the two neighbours of the number in exact arithmetic. Of two neighbours that
are equally near the upper one is taken.
-/

namespace Offside

/-- A positive decimal `digits * 10 ^ exponent`. -/
structure Decimal where
  digits : Nat
  exponent : Int
deriving DecidableEq

namespace Binary64

/-- The grid `10 ^ p` and a magnitude scaled to integers: `value`, `low` and `high` over `unit`. -/
structure OnGrid where
  value : Nat
  /-- The lower end of the reals that round to it. -/
  low : Nat
  /-- The upper end of the reals that round to it. -/
  high : Nat
  unit : Nat
  /-- Whether the ends themselves round to it. -/
  closed : Bool

/-- Scales the magnitude of a finite number and its rounding interval to the grid `10 ^ p`. -/
def onGrid (x : Binary64) (p : Int) : OnGrid :=
  let m := x.significand
  let q := x.scale - 2
  let narrow := m = leadingOne && x.scale ≠ -1074
  let binary := Nat.pow 2 q.toNat * Nat.pow 10 (-p).toNat
  { value := 4 * m * binary
    low := (if narrow then 4 * m - 1 else 4 * m - 2) * binary
    high := (4 * m + 2) * binary
    unit := Nat.pow 10 p.toNat * Nat.pow 2 (-q).toNat
    closed := m % 2 = 0 }

/-- Decides whether the grid point `n` rounds to the number. -/
def OnGrid.admits (g : OnGrid) (n : Nat) : Bool :=
  let point := n * g.unit
  if g.closed then g.low ≤ point && point ≤ g.high else g.low < point && point < g.high

/-- The nearest admitted neighbour on the grid, the upper one on a tie. -/
def OnGrid.best? (g : OnGrid) : Option Nat :=
  let below := g.value / g.unit
  let above := below + 1
  match g.admits below, g.admits above with
  | true, true => if 2 * g.value < (below + above) * g.unit then some below else some above
  | true, false => some below
  | false, true => some above
  | false, false => none

/-- Tries the grids from `10 ^ p` downwards, at most `count` of them. -/
def searchGrids (x : Binary64) : Nat → Int → Decimal
  | 0, p => ⟨(x.onGrid p).value / (x.onGrid p).unit, p⟩
  | count + 1, p =>
    match (x.onGrid p).best? with
    | some n => if n = 0 then searchGrids x count (p - 1) else ⟨n, p⟩
    | none => searchGrids x count (p - 1)

/-- The number of decimal digits in front of the point of a magnitude, up to one too many. -/
def topGrid (x : Binary64) : Int :=
  let bits : Int := x.significand.log2 + x.scale
  bits * 30103 / 100000 + 1

/-- Removes the zeros at the end of the digits, at most `count` of them. -/
def Decimal.trim : Nat → Decimal → Decimal
  | 0, d => d
  | count + 1, d => if d.digits % 10 = 0 then trim count ⟨d.digits / 10, d.exponent + 1⟩ else d

/-- The shortest decimal that reads back as the magnitude of a finite number other than zero. -/
def shortest (x : Binary64) : Decimal :=
  Decimal.trim 20 (searchGrids x 20 x.topGrid)

end Binary64

end Offside
