/-
Module: VesselHub.Decimal.Literal
Purpose: The value of a number as it is written: an integer of 64 bits where it is one, else a
  double.
Main exports: Number, Literal, Literal.value?
-/
import VesselHub.Decimal.Double

namespace VesselHub

/-- A number of a document. Integers and doubles are different values even where they are
numerically equal. -/
inductive Number where
  | int (value : Int)
  | double (value : Double)
deriving DecidableEq, Repr

namespace Number

/-- Doubles compare by value, so the two zeros are the same number. -/
def same : Number → Number → Bool
  | .int left, .int right => left == right
  | .double left, .double right => left.same right
  | _, _ => false

theorem same_refl (number : Number) : number.same number = true := by
  cases number <;> simp [same, Double.same_refl]

end Number

/-- A number as it is written. -/
structure Literal where
  negative : Bool
  /-- Digits before the point. -/
  whole : List Nat
  /-- Digits after the point, if there is one. -/
  fraction : Option (List Nat)
  /-- Sign and digits of the exponent, if there is one. -/
  power : Option (Bool × List Nat)
deriving DecidableEq, Repr

namespace Literal

/-- The number that decimal digits spell. -/
def ofDigits (digits : List Nat) : Nat :=
  digits.foldl (fun total digit => total * 10 + digit) 0

/-- Appends digits to a number as long as it stays below a limit; the digits from the first one
that does not fit on are returned. -/
def absorb (limit total : Nat) : List Nat → Nat × List Nat
  | [] => (total, [])
  | digit :: digits =>
      if total * 10 + digit < limit then absorb limit (total * 10 + digit) digits
      else (total, digit :: digits)

/-- The exponent that is written out. -/
def writtenPower (literal : Literal) : Int :=
  match literal.power with
  | none => 0
  | some (true, digits) => -(ofDigits digits : Int)
  | some (false, digits) => ofDigits digits

/-- A double scaled by a power of ten, in one step or, below the smallest one that a double
holds, in two. There is none if the result is too large. -/
def scale (value : Double) (power : Int) : Option Double :=
  if value.isZero then some value
  else if 308 < power then none
  else if 0 ≤ power then
    let scaled := value.mul (Double.tenTo power.toNat)
    if scaled.isFinite then some scaled else none
  else if -308 ≤ power then some (value.div (Double.tenTo (-power).toNat))
  else if -616 ≤ power then
    some ((value.div (Double.tenTo 308)).div (Double.tenTo (-power - 308).toNat))
  else some (Double.ofCode false 0)

/-- The double that a literal stands for: its digits are taken as an integer of 64 bits, digits
that do not fit only move the point, and the integer is scaled by the exponent. -/
def toDouble? (literal : Literal) : Option Double :=
  let (whole, dropped) := absorb (Nat.pow 2 64) 0 literal.whole
  let fraction := literal.fraction.getD []
  let (significand, excess) := absorb (Nat.pow 2 64) whole fraction
  let power := literal.writtenPower + dropped.length - (fraction.length - excess.length : Nat)
  (scale (Double.ofRatio false significand 1) power).map fun value =>
    if literal.negative then value.negate else value

/-- The integer that a literal without point and exponent stands for, if it is below `2 ^ 64`
and, when negative, at least `-2 ^ 63`. There is no negative zero among the integers. -/
def toInt? (literal : Literal) : Option Int :=
  match literal.fraction, literal.power with
  | none, none =>
      let number := ofDigits literal.whole
      if literal.negative then
        if 0 < number ∧ number ≤ Nat.pow 2 63 then some (-(number : Int)) else none
      else if number < Nat.pow 2 64 then some number else none
  | _, _ => none

/-- The number that a literal stands for. A double too large to hold is none. -/
def value? (literal : Literal) : Option Number :=
  match literal.toInt? with
  | some value => some (.int value)
  | none => literal.toDouble?.map .double

/-- How many digits of an exponent come after the one that makes it `2 ^ 31` or more. A negative
exponent may be as large as it likes. -/
def idleDigits (literal : Literal) : Nat :=
  match literal.power with
  | some (false, digits) => (absorb (Nat.pow 2 31) 0 digits).2.length - 1
  | _ => 0

end Literal

end VesselHub
