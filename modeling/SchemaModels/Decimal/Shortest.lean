import SchemaModels.Decimal.Binary64

/-!
# The shortest decimal that reads back

Every binary64 number is an integer number of units of `10^-1074`. The reals that round to it form
an interval around it, whose ends belong to it when the significand is even. Among the decimal
grids the coarsest that has a point in that interval is taken, and on it the point nearest to the
number, an exact tie going to the even digit (`Binary64.shortest`).
-/

namespace SchemaModels.Binary64

/-- The interval of reals that round to a magnitude, with the magnitude itself: in units of a
quarter of `10^-1074`. -/
structure Neighbourhood where
  low : Nat
  middle : Nat
  high : Nat
  closed : Bool

/-- The neighbourhood of a magnitude. Below a power of two the numbers lie twice as close. -/
def neighbourhood (x : Binary64) : Neighbourhood :=
  let m := significand x.word
  let unit := Nat.pow 2 (place x.word) * Nat.pow 5 1074
  let below := if m = Nat.pow 2 52 ∧ place x.word ≠ 0 then 1 else 2
  ⟨(4 * m - below) * unit, 4 * m * unit, (4 * m + 2) * unit, m % 2 = 0⟩

namespace Neighbourhood
variable (b : Neighbourhood)

/-- Whether a point lies in the interval. -/
def holds (point : Nat) : Bool :=
  if b.closed then b.low ≤ point && point ≤ b.high else b.low < point && point < b.high

/-- The multiple of a step just not above the middle. -/
def under (step : Nat) : Nat := b.middle / step

/-- Whether a grid has a point in the interval. The two neighbours of the middle decide it. -/
def meets (step : Nat) : Bool :=
  b.holds (b.under step * step) || b.holds ((b.under step + 1) * step)

/-- The exponent of the coarsest grid, of those up to a bound, with a point in the interval. -/
def coarsest : Nat → Nat
  | 0 => 0
  | i + 1 => if b.meets (4 * Nat.pow 10 (i + 1)) then i + 1 else coarsest i

/-- The point of a grid nearest to the middle, in steps, of those in the interval. -/
def nearest (step : Nat) : Nat :=
  let lower := b.under step
  let upper := lower + 1
  if !b.holds (upper * step) then lower
  else if !b.holds (lower * step) then upper
  else
    let down := b.middle - lower * step
    let up := upper * step - b.middle
    if down < up then lower
    else if up < down then upper
    else lower + lower % 2

end Neighbourhood

/-- A decimal: an integer times a power of ten. -/
structure Decimal where
  digits : Nat
  exponent : Int
  deriving DecidableEq

/-- The decimal with the fewest digits that reads back as a magnitude. Since `10 ^ (n / 3 + 1)`
exceeds `2 ^ n`, no grid coarser than the first one tried has a point in the interval. -/
def shortest (x : Binary64) : Decimal :=
  let b := x.neighbourhood
  let i := b.coarsest (Nat.log2 b.high / 3 + 1)
  ⟨b.nearest (4 * Nat.pow 10 i), (i : Int) - 1074⟩

end SchemaModels.Binary64
