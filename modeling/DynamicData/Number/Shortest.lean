import DynamicData.Number.Binary64

/-!
# The shortest decimal of a double

Among the decimals that read back as a given double, `shortest` picks one with
the fewest digits, and of those the nearest. On each grid of `count` digits only
the two neighbours of the exact value can be that decimal, so they are all it
tries. What reading back means is settled by `Binary64.ofDecimal` itself.
-/

namespace DynamicData

/-- The number `digits · 10 ^ exponent`. -/
structure Decimal where
  digits : Nat
  exponent : Int
  deriving DecidableEq, Repr

/-- Which of two equally near neighbours is taken. -/
inductive Tie
  | even
  | up
  deriving DecidableEq, Repr

namespace Binary64

/-- The exact value of `units` units in steps of `10 ^ step`, as a fraction. -/
def inSteps (units : Nat) (step : Int) : Nat × Nat :=
  if 0 ≤ step then (units, one * 10 ^ step.toNat)
  else (units * 10 ^ (-step).toNat, one)

/-- The decimal exponent of the leading digit of `units` units. No double is
below `10 ^ (-324)`, so scaling by `10 ^ 340` leaves a whole part whose digits
can be counted. -/
def leadingExponent (units : Nat) : Int :=
  ((Nat.toDigits 10 (10 ^ 340 * units / one)).length : Int) - 341

/-- The neighbours of the value on the grid of `count` digits, nearest first. -/
def neighbours (tie : Tie) (units count : Nat) : List Decimal :=
  let step := leadingExponent units + 1 - count
  let (num, den) := inSteps units step
  let lower : Decimal := ⟨num / den, step⟩
  -- one past the largest `count`-digit number is a power of ten
  let upper : Decimal :=
    if num / den + 1 = 10 ^ count then ⟨1, step + count⟩ else ⟨num / den + 1, step⟩
  let twice := 2 * (num % den)
  if num % den = 0 then [lower]
  else if twice < den then [lower, upper]
  else if den < twice then [upper, lower]
  else match tie with
    | .up => [upper, lower]
    | .even => if num / den % 2 = 0 then [lower, upper] else [upper, lower]

def readsAs (magnitude : Nat) (d : Decimal) : Bool :=
  decide (ofDecimal false d.digits d.exponent = ofSign false magnitude)

def expansion (units : Nat) : Decimal :=
  ⟨units * 5 ^ 1074, -1074⟩

/-- The first decimal on a grid of `count`, `count + 1`, … digits that reads
back; past the last grid the exact expansion, which always does. -/
def shortestFrom (tie : Tie) (magnitude : Nat) : (grids count : Nat) → Decimal
  | 0, _ => expansion (unitsOf magnitude)
  | grids + 1, count =>
    match (neighbours tie (unitsOf magnitude) count).find? (readsAs magnitude) with
    | some d => d
    | none => shortestFrom tie magnitude grids (count + 1)

/-- The shortest decimal that reads back as the double of this magnitude. Seventeen
digits tell any two doubles apart. -/
def shortest (tie : Tie) (magnitude : Nat) : Decimal :=
  shortestFrom tie magnitude 17 1

end Binary64
end DynamicData
