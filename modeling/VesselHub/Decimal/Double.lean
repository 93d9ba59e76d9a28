/-
Module: VesselHub.Decimal.Double
Purpose: Binary floating-point numbers of 64 bits as exact ratios, with the one rounding that
  every operation on them ends in.
Main exports: Double, Double.ofRatio, Double.mul, Double.div, Double.tenTo
-/

namespace VesselHub

/-- A binary floating-point number of 64 bits: one sign bit, 11 bits of exponent and 52 bits of
fraction. -/
structure Double where
  bits : UInt64
deriving DecidableEq, Repr, Inhabited

namespace Double

/-- The bits below the sign, as a number. Larger magnitudes have larger codes. -/
def magnitude (value : Double) : Nat :=
  value.bits.toNat % Nat.pow 2 63

/-- The sign bit. -/
def isNegative (value : Double) : Bool :=
  Nat.pow 2 63 ≤ value.bits.toNat

def isZero (value : Double) : Bool :=
  value.magnitude == 0

/-- The code of infinity; every finite magnitude is below it. -/
def infinityCode : Nat :=
  0x7FF * Nat.pow 2 52

def isFinite (value : Double) : Bool :=
  value.magnitude < infinityCode

/-- The integer significand `m` of a finite value `m · 2 ^ q`. -/
def significand (value : Double) : Nat :=
  if value.magnitude < Nat.pow 2 52 then value.magnitude
  else value.magnitude % Nat.pow 2 52 + Nat.pow 2 52

/-- The binary exponent `q` of a finite value `m · 2 ^ q`. -/
def exponent (value : Double) : Int :=
  if value.magnitude < Nat.pow 2 52 then -1074
  else (value.magnitude / Nat.pow 2 52 : Nat) - 1075

/-- The numerator of the magnitude as a ratio. -/
def numerator (value : Double) : Nat :=
  value.significand * Nat.pow 2 value.exponent.toNat

/-- The denominator of the magnitude as a ratio. -/
def denominator (value : Double) : Nat :=
  Nat.pow 2 (-value.exponent).toNat

/-- The double with the given sign and magnitude code. -/
def ofCode (negative : Bool) (code : Nat) : Double :=
  ⟨((if negative then Nat.pow 2 63 else 0) + code).toUInt64⟩

/-- A quotient rounded to the nearest integer, halves to the even neighbour. -/
def divideRounding (numerator denominator : Nat) : Nat :=
  let quotient := numerator / denominator
  let remainder := numerator % denominator
  if 2 * remainder < denominator then quotient
  else if denominator < 2 * remainder then quotient + 1
  else if quotient % 2 = 0 then quotient else quotient + 1

/-- The exponent `q` of the binary grid on which `numerator / denominator` has 53 significant
bits, or -1074, the exponent of the finest grid. -/
def gridExponent (numerator denominator : Nat) : Int :=
  let estimate : Int := (Nat.log2 numerator : Int) - Nat.log2 denominator - 53
  let wide : Bool :=
    denominator * Nat.pow 2 (53 + estimate).toNat ≤
      numerator * Nat.pow 2 (-(53 + estimate)).toNat
  max (-1074) (if wide then estimate + 1 else estimate)

/-- The code of the double nearest to a ratio; what rounds beyond the largest finite double is
infinite. -/
def nearestCode (numerator denominator : Nat) : Nat :=
  if numerator = 0 then 0
  else
    let grid := gridExponent numerator denominator
    let units := divideRounding (numerator * Nat.pow 2 (-grid).toNat)
      (denominator * Nat.pow 2 grid.toNat)
    min infinityCode ((grid + 1074).toNat * Nat.pow 2 52 + units)

/-- The double nearest to a ratio, halves to the even neighbour. -/
def ofRatio (negative : Bool) (numerator denominator : Nat) : Double :=
  ofCode negative (nearestCode numerator denominator)

/-- The product, rounded. -/
def mul (left right : Double) : Double :=
  ofRatio (left.isNegative != right.isNegative)
    (left.numerator * right.numerator) (left.denominator * right.denominator)

/-- The quotient, rounded. -/
def div (left right : Double) : Double :=
  ofRatio (left.isNegative != right.isNegative)
    (left.numerator * right.denominator) (left.denominator * right.numerator)

/-- The double nearest to a power of ten. -/
def tenTo (power : Nat) : Double :=
  ofRatio false (Nat.pow 10 power) 1

def negate (value : Double) : Double :=
  ofCode (!value.isNegative) value.magnitude

/-- Numbers are equal if they have the same bits, or if both are zero. -/
def same (left right : Double) : Bool :=
  left.bits == right.bits || (left.isZero && right.isZero)

theorem same_refl (value : Double) : value.same value = true := by
  simp [same]

/-- The double that a machine number holds. -/
def ofFloat (value : Float) : Double :=
  ⟨value.toBits⟩

end Double

end VesselHub
