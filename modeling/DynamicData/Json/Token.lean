import DynamicData.Bytes.Text
import DynamicData.Json.Error
import DynamicData.Number.Numeral
import DynamicData.Tree

/-!
# The words of JSON

Blanks, literal names, strings and numbers. A string is collected as bytes, its
escapes resolved, and must be UTF-8 when its closing quote is reached. A number
without fraction and exponent stays an integer if 64 bits hold it; any other is
the nearest double, which must be finite.
-/

namespace DynamicData.Json

/-- What sort of value a byte begins. -/
inductive Opening
  | null
  | true
  | false
  | minus
  | digit
  | quote
  | bracket
  | brace
  deriving DecidableEq, Repr

def isDigit (b : UInt8) : Bool :=
  '0'.toUInt8 ≤ b && b ≤ '9'.toUInt8

def Opening.ofByte? (b : UInt8) : Option Opening :=
  if isDigit b then some .digit
  else if b = '"'.toUInt8 then some .quote
  else if b = '\x7b'.toUInt8 then some .brace
  else if b = '['.toUInt8 then some .bracket
  else if b = '-'.toUInt8 then some .minus
  else if b = 'n'.toUInt8 then some .null
  else if b = 't'.toUInt8 then some .true
  else if b = 'f'.toUInt8 then some .false
  else none

def isBlank (b : UInt8) : Bool :=
  b = ' '.toUInt8 || b = '\t'.toUInt8 || b = '\n'.toUInt8 || b = '\r'.toUInt8

def skipBlanks (bytes : Bytes) : Bytes :=
  bytes.dropWhile isBlank

def blanks : Reader Unit :=
  modify skipBlanks

/-- Reads the letters that are left of a literal name. -/
def letters : List Char → Reader Unit
  | [] => pure ()
  | c :: cs => fun
    | [] => .error ⟨.endInValue, 0⟩
    | b :: rest =>
      if b = c.toUInt8 then letters cs rest else .error ⟨.expectedIdent, rest.length⟩

/-! ## Strings -/

def hexDigit? (b : UInt8) : Option Nat :=
  if '0'.toUInt8 ≤ b ∧ b ≤ '9'.toUInt8 then some (b.toNat - '0'.toNat)
  else if 'a'.toUInt8 ≤ b ∧ b ≤ 'f'.toUInt8 then some (b.toNat - 'a'.toNat + 10)
  else if 'A'.toUInt8 ≤ b ∧ b ≤ 'F'.toUInt8 then some (b.toNat - 'A'.toNat + 10)
  else none

def ofHex? (b₁ b₂ b₃ b₄ : UInt8) : Option Nat := do
  let d₁ ← hexDigit? b₁
  let d₂ ← hexDigit? b₂
  let d₃ ← hexDigit? b₃
  let d₄ ← hexDigit? b₄
  return ((d₁ * 16 + d₂) * 16 + d₃) * 16 + d₄

def hexCode : Reader Nat
  | b₁ :: b₂ :: b₃ :: b₄ :: rest =>
    match ofHex? b₁ b₂ b₃ b₄ with
    | some n => .ok (n, rest)
    | none => .error ⟨.invalidEscape, rest.length⟩
  | _ => .error ⟨.endInString, 0⟩

/-- Reads the byte that has to follow the first half of a surrogate pair. -/
def pairByte (c : Char) : Reader Unit
  | [] => .error ⟨.endInString, 0⟩
  | b :: rest =>
    if b = c.toUInt8 then .ok ((), rest) else .error ⟨.unexpectedEndOfEscape, rest.length⟩

/-- Reads the code of an escaped character, which may be a surrogate pair. -/
def unicodeEscape : Reader Char := do
  let high ← hexCode
  if high < 0xD800 ∨ 0xDFFF < high then return Char.ofNat high
  if 0xDC00 ≤ high then failHere .loneSurrogate
  pairByte '\\'
  pairByte 'u'
  let low ← hexCode
  if low < 0xDC00 ∨ 0xDFFF < low then failHere .loneSurrogate
  return Char.ofNat (0x10000 + (high - 0xD800) * 0x400 + (low - 0xDC00))

def letterEscapes : List (Char × Char) :=
  [('"', '"'), ('\\', '\\'), ('/', '/'), ('b', '\x08'), ('f', '\x0c'), ('n', '\n'),
    ('r', '\r'), ('t', '\t')]

/-- Reads an escape after its backslash. -/
def escape : Reader Char
  | [] => .error ⟨.endInString, 0⟩
  | b :: rest =>
    if b = 'u'.toUInt8 then unicodeEscape rest
    else
      match letterEscapes.find? fun e => e.1.toUInt8 = b with
      | some e => .ok (e.2, rest)
      | none => .error ⟨.invalidEscape, rest.length⟩

/-- Reads the bytes of a string up to its closing quote; those already read are in
`done`, in reverse order. Each round reads a byte and uses one up of `fuel`, so the
input itself is fuel enough. -/
def stringBytes : (fuel : Bytes) → (done : Bytes) → Reader Bytes
  | [], _ => failHere .endInString
  | _ :: fuel, done => fun
    | [] => .error ⟨.endInString, 0⟩
    | b :: rest =>
      if b = '"'.toUInt8 then .ok (done.reverse, rest)
      else if b = '\\'.toUInt8 then
        match escape rest with
        | .error e => .error e
        | .ok (c, rest) => stringBytes fuel ((String.utf8EncodeChar c).reverse ++ done) rest
      else if b < 0x20 then .error ⟨.controlCharacter, rest.length⟩
      else stringBytes fuel (b :: done) rest

/-- Reads a string after its opening quote. Where its bytes are not UTF-8, the
place of the fault is as far before the end as there are bytes that do not fit. -/
def string : Reader String := do
  let bytes ← stringBytes (← Parser.rest) []
  match Text.decode? bytes with
  | some s => return s
  | none =>
    throw ⟨.invalidUnicode, (← Parser.rest).length + (bytes.length - Text.validLength bytes)⟩

/-! ## Numbers -/

/-- A number as it is written: an integer of 64 bits or a double. -/
inductive Number
  | unsigned (u : UInt64)
  | signed (i : Int64)
  | real (x : Binary64)
  deriving DecidableEq, Repr

def Number.tree {ι : Type} : Number → Tree ι
  | .unsigned u => Tree.unsigned u
  | .signed i => .int i
  | .real x => .float x

def digits : Reader (List Char) := fun bytes =>
  let (ds, rest) := bytes.span isDigit
  .ok (ds.map Char.ofUInt8, rest)

/-- Reads the whole part of a number: zero, or digits that start with another. -/
def wholePart : Reader (List Char)
  | [] => .error ⟨.endInValue, 0⟩
  | b :: rest =>
    if b = '0'.toUInt8 then
      match rest with
      | c :: _ => if isDigit c then failNext .invalidNumber rest else .ok (['0'], rest)
      | [] => .ok (['0'], rest)
    else if isDigit b then digits (b :: rest)
    else .error ⟨.invalidNumber, rest.length⟩

/-- Reads a point and the digits after it, of which there is at least one; reads
nothing where there is no point. -/
def fractionPart : Reader (List Char)
  | [] => .ok ([], [])
  | b :: rest =>
    if b = '.'.toUInt8 then do
      match ← digits rest with
      | ([], []) => failNext .endInValue []
      | ([], rest) => failNext .invalidNumber rest
      | result => .ok result
    else .ok ([], b :: rest)

/-- Reads the sign of an exponent, `true` for a minus. -/
def exponentSign : Reader Bool
  | [] => .ok (false, [])
  | b :: rest =>
    if b = '-'.toUInt8 then .ok (true, rest)
    else if b = '+'.toUInt8 then .ok (false, rest)
    else .ok (false, b :: rest)

def exponentDigits : Reader (List Char)
  | [] => .error ⟨.endInValue, 0⟩
  | b :: rest =>
    if isDigit b then digits (b :: rest) else .error ⟨.invalidNumber, rest.length⟩

/-- The largest exponent that is taken as it is. -/
def maxExponent : Nat := 2 ^ 31 - 1

/-- How many of the digits come after the one that takes the exponent, `n` so far,
past its maximum. -/
def digitsPastMax (n : Nat) : List Char → Nat
  | [] => 0
  | d :: ds =>
    let n := Nat.ofDigitChars 10 [d] n
    if maxExponent < n then ds.length else digitsPastMax n ds

/-- Reads an exponent if there is one. A positive exponent past the maximum is out
of range at the digit that takes it there, unless the number is zero. -/
def exponentPart (isZero : Bool) : Reader (Option Int)
  | [] => .ok (none, [])
  | b :: rest =>
    if b = 'e'.toUInt8 ∨ b = 'E'.toUInt8 then do
      let (negative, rest) ← exponentSign rest
      let (ds, rest) ← exponentDigits rest
      let n := Numeral.value ds
      if maxExponent < n ∧ !negative ∧ !isZero then
        .error ⟨.numberOutOfRange, rest.length + digitsPastMax 0 ds⟩
      else .ok (some (Numeral.signed negative n), rest)
    else .ok (none, b :: rest)

/-- How many digits of a number count one by one. -/
def maxSignificant : Nat := 768

/-- The digits of a number as an integer and a power of ten. If there are too many,
zeros in front and at the end of the fraction are left out first, and whatever then
comes after the first `maxSignificant` digits counts as a single one. -/
def significand (whole fraction : List Char) : Nat × Int :=
  if (whole ++ fraction).length ≤ maxSignificant then
    (Numeral.value (whole ++ fraction), -fraction.length)
  else
    let fraction := (fraction.reverse.dropWhile (· = '0')).reverse
    let ds := (whole ++ fraction).dropWhile (· = '0')
    let kept := Numeral.value (ds.take maxSignificant)
    if ds.length ≤ maxSignificant then (kept, -fraction.length)
    else (10 * kept + 1, ds.length - (maxSignificant + 1) - fraction.length)

/-- The integer of the given sign and size, if it has 64 bits. Minus zero is a
double. -/
def Number.ofInteger? (negative : Bool) (n : Nat) : Option Number :=
  if negative then
    if 0 < n ∧ n ≤ 2 ^ 63 then some (.signed (Int64.ofInt (-n))) else none
  else if n < 2 ^ 64 then some (.unsigned (UInt64.ofNat n))
  else none

/-- Reads a number after its sign. -/
def number (negative : Bool) : Reader Number := do
  let whole ← wholePart
  let fraction ← fractionPart
  let (n, scale) := significand whole fraction
  let exponent ← exponentPart (n = 0)
  let integer? :=
    match fraction, exponent with
    | [], none => Number.ofInteger? negative n
    | _, _ => none
  match integer? with
  | some i => return i
  | none =>
    let x := Binary64.ofDecimal negative n (scale + exponent.getD 0)
    if x.isInfinite then failHere .numberOutOfRange else return .real x

end DynamicData.Json
