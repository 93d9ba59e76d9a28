/-
Module: VesselHub.Decimal.Shortest
Purpose: The fewest decimal digits that read back as a given double, found on exact ratios.
Main exports: Decimal, Double.shortest
-/
import VesselHub.Decimal.Double

namespace VesselHub

/-- The number `digits · 10 ^ scale`. -/
structure Decimal where
  digits : Nat
  scale : Int
deriving DecidableEq, Repr

namespace Double

/-- How many decimal digits a number has. -/
def decimalLength (number : Nat) : Nat :=
  (Nat.toDigits 10 number).length

/-- The reals that round to one double, in quarters of the distance between two neighbours:
`low`, `value` and `high` are over the common `denominator`. The ends belong to the interval only
if the significand is even. -/
structure Interval where
  low : Nat
  value : Nat
  high : Nat
  denominator : Nat
  closed : Bool
deriving Repr

/-- The interval of a double. Below a power of two the neighbours lie half as far apart. -/
def interval (double : Double) : Interval :=
  let m := double.significand
  let q := double.exponent
  let unit := Nat.pow 2 (q - 2).toNat
  let below := if m = Nat.pow 2 52 ∧ -1074 < q then 1 else 2
  { low := (4 * m - below) * unit
    value := 4 * m * unit
    high := (4 * m + 2) * unit
    denominator := Nat.pow 2 (2 - q).toNat
    closed := m % 2 = 0 }

/-- Where the decimal point stands: the value is below `10 ^ k` and not below `10 ^ (k - 1)`. -/
def pointPosition (range : Interval) : Int :=
  if range.denominator ≤ range.value then
    decimalLength (range.value / range.denominator)
  else
    1 - (decimalLength ((range.denominator - 1) / range.value) : Int)

/-- Whether `digits · 10 ^ scale` lies in the interval. -/
def Interval.contains (range : Interval) (digits : Nat) (scale : Int) : Bool :=
  let candidate := digits * Nat.pow 10 scale.toNat * range.denominator
  let low := range.low * Nat.pow 10 (-scale).toNat
  let high := range.high * Nat.pow 10 (-scale).toNat
  if range.closed then low ≤ candidate && candidate ≤ high
  else low < candidate && candidate < high

/-- The neighbour of the value on the decimal grid of one scale that reads back: the nearer one
if both do, and of two equally near ones the even one. -/
def onGrid (range : Interval) (scale : Int) : Option Nat :=
  let value := range.value * Nat.pow 10 (-scale).toNat
  let step := Nat.pow 10 scale.toNat * range.denominator
  let below := value / step
  let above := below + 1
  match range.contains below scale && 0 < below, range.contains above scale with
  | true, true => some (divideRounding value step)
  | true, false => some below
  | false, true => some above
  | false, false => none

/-- Moves trailing zeros from the digits into the scale. -/
def dropZeros : Nat → Decimal → Decimal
  | 0, decimal => decimal
  | fuel + 1, decimal =>
      if decimal.digits % 10 = 0 then
        dropZeros fuel { digits := decimal.digits / 10, scale := decimal.scale + 1 }
      else decimal

/-- The decimal of the fewest digits that reads back as the magnitude of a finite double other
than zero, and the nearest of those. Seventeen digits always suffice. -/
def shortest (double : Double) : Decimal :=
  let range := double.interval
  let point := pointPosition range
  let found := (List.range 17).findSome? fun count =>
    let scale := point - (count + 1 : Nat)
    (onGrid range scale).map fun digits => ({ digits, scale } : Decimal)
  dropZeros 18 (found.getD { digits := 0, scale := 0 })

end Double

end VesselHub
