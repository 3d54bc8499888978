import DynamicData.Number.Binary64

/-!
# Numbers read from text

A numeral is a run of decimal digits, at least one, with a sign in front where the
sign is allowed. A double may also have a point and an exponent, or be one of the
words `inf`, `infinity` and `nan` in any case. Nothing else is skipped or accepted.
-/

namespace DynamicData

namespace Numeral

def value (digits : List Char) : Nat :=
  Nat.ofDigitChars 10 digits 0

/-- Splits off the sign, `true` for a minus. -/
def splitSign : List Char → Bool × List Char
  | '-' :: rest => (true, rest)
  | '+' :: rest => (false, rest)
  | cs => (false, cs)

def signed (negative : Bool) (n : Nat) : Int :=
  if negative then -n else n

def digits? (cs : List Char) : Option Nat :=
  if cs ≠ [] ∧ cs.all Char.isDigit then some (value cs) else none

/-- Reads a numeral that may have a plus sign. -/
def unsigned? (s : String) : Option Nat :=
  match s.toList with
  | '+' :: rest => digits? rest
  | cs => digits? cs

def signed? (s : String) : Option Int :=
  let (negative, rest) := splitSign s.toList
  (digits? rest).map (signed negative)

theorem value_toDigits (n : Nat) : value (Nat.toDigits 10 n) = n :=
  Nat.ofDigitChars_toDigits (by decide) (by decide)

end Numeral

namespace Binary64

/-- An exponent of this size is not made any longer. -/
def longExponent : Nat := 2 ^ 16

/-- The size of an exponent. Once it is `longExponent` or more, further digits no
longer count. -/
def exponentSize (digits : List Char) : Nat :=
  digits.foldl (fun n d => if n < longExponent then Nat.ofDigitChars 10 [d] n else n) 0

/-- Reads the exponent of a decimal, zero if there is none. -/
def readExponent? : List Char → Option Int
  | [] => some 0
  | c :: rest =>
    if c = 'e' ∨ c = 'E' then
      let (negative, digits) := Numeral.splitSign rest
      if digits ≠ [] ∧ digits.all Char.isDigit then
        some (Numeral.signed negative (exponentSize digits))
      else none
    else none

/-- Reads an unsigned decimal: digits with a point anywhere among them, and an
exponent. -/
def readDecimal? (negative : Bool) (cs : List Char) : Option Binary64 :=
  let (whole, rest) := cs.span Char.isDigit
  let (fraction, rest) :=
    match rest with
    | '.' :: rest => rest.span Char.isDigit
    | rest => ([], rest)
  if whole = [] ∧ fraction = [] then none
  else
    (readExponent? rest).map fun exponent =>
      ofDecimal negative (Numeral.value (whole ++ fraction)) (exponent - fraction.length)

def readName? (negative : Bool) (cs : List Char) : Option Binary64 :=
  let name := String.ofList (cs.map Char.toLower)
  if name = "inf" ∨ name = "infinity" then some (infinity negative)
  else if name = "nan" then some (nan negative)
  else none

def read? (s : String) : Option Binary64 :=
  let (negative, rest) := Numeral.splitSign s.toList
  (readDecimal? negative rest).or (readName? negative rest)

end Binary64
end DynamicData
