import DynamicData.Number.Shortest

/-!
# Doubles as text

A double is written with its shortest digits, positionally when the exponent of
its leading digit is moderate and with an exponent otherwise. What moderate
means, the sign of a positive exponent and the choice between two equally near
decimals make up a `FloatStyle`; `json` and `debug` are the two in use.
-/

namespace DynamicData

/-- The choices that make up a notation for doubles. -/
structure FloatStyle where
  /-- the smallest leading exponent written positionally -/
  plainFrom : Int
  /-- the largest leading exponent written positionally -/
  plainTo : Int
  /-- the sign before a positive exponent -/
  positiveSign : String
  tie : Tie

namespace FloatStyle

/-- Positional from `0.00001` up to sixteen digits before the point; exponents
carry their sign, and a tie goes to the even digit. -/
def json : FloatStyle := ⟨-5, 15, "+", .even⟩

/-- Positional from `0.0001` up to sixteen digits before the point; positive
exponents have no sign, and a tie goes up. -/
def debug : FloatStyle := ⟨-4, 15, "", .up⟩

def zeros (count : Nat) : String :=
  String.ofList (List.replicate count '0')

/-- A decimal in positional notation, with at least one digit on either side of
the point. -/
def plain (d : Decimal) : String :=
  let digits := Nat.toDigits 10 d.digits
  let point := (digits.length : Int) + d.exponent
  if 0 ≤ d.exponent then String.ofList digits ++ zeros d.exponent.toNat ++ ".0"
  else if 0 < point then
    String.ofList (digits.take point.toNat) ++ "." ++ String.ofList (digits.drop point.toNat)
  else "0." ++ zeros (-point).toNat ++ String.ofList digits

def scientific (style : FloatStyle) (d : Decimal) : String :=
  let digits := Nat.toDigits 10 d.digits
  let leading := (digits.length : Int) - 1 + d.exponent
  let fraction :=
    if digits.length ≤ 1 then "" else "." ++ String.ofList (digits.drop 1)
  let sign := if leading < 0 then "-" else style.positiveSign
  String.ofList (digits.take 1) ++ fraction ++ "e" ++ sign ++
    String.ofList (Nat.toDigits 10 leading.natAbs)

def decimal (style : FloatStyle) (d : Decimal) : String :=
  let leading := ((Nat.toDigits 10 d.digits).length : Int) - 1 + d.exponent
  if style.plainFrom ≤ leading ∧ leading ≤ style.plainTo then plain d
  else scientific style d

def text (style : FloatStyle) (x : Binary64) : String :=
  if x.isNaN then "NaN"
  else
    let body :=
      if x.isInfinite then "inf"
      else if x.isZero then "0.0"
      else decimal style (x.magnitude |> Binary64.shortest style.tie)
    if x.isNegative then "-" ++ body else body

end FloatStyle
end DynamicData
