import DynamicData.Number.Power

/-!
# Double-precision numbers

A double is its 64-bit pattern. A finite one is a whole number of units of
`2 ^ (-1074)`, the smallest positive double, so its magnitude is a natural
number (`units`) and every question about it is one of exact arithmetic.
`ofRatio` rounds a fraction to the nearest double, a tie to the even pattern.
-/

namespace DynamicData

/-- A double-precision number, given by its bit pattern. -/
structure Binary64 where
  bits : UInt64
  deriving DecidableEq, Repr, Inhabited

/-- A single-precision number, given by its bit pattern. -/
structure Binary32 where
  bits : UInt32
  deriving DecidableEq, Repr, Inhabited

namespace Binary64

/-! ## The fields of a pattern -/

def isNegative (x : Binary64) : Bool :=
  decide (2 ^ 63 ≤ x.bits.toNat)

/-- The pattern without its sign bit. -/
def magnitude (x : Binary64) : Nat :=
  x.bits.toNat % 2 ^ 63

/-- The magnitude pattern of infinity: larger ones are not numbers. -/
def infinityBits : Nat :=
  2047 * 2 ^ 52

def ofSign (negative : Bool) (magnitude : Nat) : Binary64 :=
  ⟨UInt64.ofNat (if negative then 2 ^ 63 + magnitude else magnitude)⟩

def isNaN (x : Binary64) : Bool :=
  decide (infinityBits < x.magnitude)

def isInfinite (x : Binary64) : Bool :=
  decide (x.magnitude = infinityBits)

def isFinite (x : Binary64) : Bool :=
  decide (x.magnitude < infinityBits)

def isZero (x : Binary64) : Bool :=
  decide (x.magnitude = 0)

def infinity (negative : Bool) : Binary64 :=
  ofSign negative infinityBits

/-- The quiet NaN whose payload is zero. -/
def nan (negative : Bool) : Binary64 :=
  ofSign negative (infinityBits + 2 ^ 51)

def neg (x : Binary64) : Binary64 :=
  ofSign (!x.isNegative) x.magnitude

/-- Numeric equality: the two zeros are equal, and a NaN equals nothing. -/
def equals (x y : Binary64) : Bool :=
  !x.isNaN && !y.isNaN && (x == y || x.isZero && y.isZero)

/-! ## Exact values -/

/-- How many units of `2 ^ (-1074)` a magnitude pattern stands for. The
exponent field `e` of a normal number scales its 53-bit significand by
`2 ^ (e - 1)`; the field zero leaves the fraction as it is. -/
def unitsOf (magnitude : Nat) : Nat :=
  let exponent := magnitude / 2 ^ 52
  let fraction := magnitude % 2 ^ 52
  if exponent = 0 then fraction else (2 ^ 52 + fraction) * 2 ^ (exponent - 1)

def units (x : Binary64) : Nat :=
  unitsOf x.magnitude

def one : Nat :=
  2 ^ 1074

/-! ## Rounding -/

/-- The quotient rounded to the nearest natural number, a tie to the even one. -/
def roundQuotient (num den : Nat) : Nat :=
  let q := num / den
  let twice := 2 * (num % den)
  if den < twice ∨ (twice = den ∧ q % 2 = 1) then q + 1 else q

/-- The magnitude pattern nearest to `num / den`. When the whole part in units
has more than 53 bits, the excess `shift` is rounded away and becomes the
exponent; carries out of the significand land in the exponent as they should,
and what lies beyond the largest finite double is infinite. -/
def ofRatio (num den : Nat) : Nat :=
  let shift := (num * one / den).log2 - 52
  min (shift * 2 ^ 52 + roundQuotient (num * one) (den * 2 ^ shift)) infinityBits

def ofInt (i : Int) : Binary64 :=
  ofSign (decide (i < 0)) (ofRatio i.natAbs 1)

/-- The double nearest to `±digits · 10 ^ exponent`. Exponents that decide the
answer by their size alone do so, before any power of ten is formed. -/
def ofDecimal (negative : Bool) (digits : Nat) (exponent : Int) : Binary64 :=
  ofSign negative <|
    if digits = 0 then 0
    else if 310 < exponent then infinityBits
    else if digits.log2 + 1077 ≤ 3 * (-exponent) then 0
    else if 0 ≤ exponent then ofRatio (digits * 10 ^ exponent.toNat) 1
    else ofRatio digits (10 ^ (-exponent).toNat)

/-- The integer part, toward zero, of a finite double. -/
def truncate (x : Binary64) : Int :=
  let whole : Int := x.units / one
  if x.isNegative then -whole else whole

/-- The integer part clamped to `[low, high]`; a NaN counts as zero. -/
def clampTo (low high : Int) (x : Binary64) : Int :=
  if x.isNaN then 0
  else if x.isInfinite then (if x.isNegative then low else high)
  else max low (min high x.truncate)

end Binary64

/-- The double of the same value. A NaN keeps its sign and payload and turns
quiet. -/
def Binary32.widen (x : Binary32) : Binary64 :=
  let negative := decide (2 ^ 31 ≤ x.bits.toNat)
  let magnitude := x.bits.toNat % 2 ^ 31
  let exponent := magnitude / 2 ^ 23
  let fraction := magnitude % 2 ^ 23
  Binary64.ofSign negative <|
    if exponent = 255 then
      if fraction = 0 then Binary64.infinityBits
      -- the first bit of a fraction is the one that makes a NaN quiet
      else Binary64.infinityBits + 2 ^ 51 + fraction % 2 ^ 22 * 2 ^ 29
    else if exponent = 0 then Binary64.ofRatio fraction (2 ^ 149)
    else Binary64.ofRatio ((2 ^ 23 + fraction) * 2 ^ (exponent - 1)) (2 ^ 149)

end DynamicData
