import DynamicData.Bytes.Text
import DynamicData.Number.Numeral
import DynamicData.Time.Civil

/-!
# Points in time with an offset

An `OffsetDateTime` is an instant and the offset of the clock that shows it. It is
written by `text` in the RFC 3339 form and read by `read?` in a strict form of it:
`2021-03-04T05:06`, seconds and their fraction if wanted, and `Z` or an offset of
hours, minutes and perhaps seconds. A leap second is kept as the second before it
with a thousand million nanoseconds added.

A reader splits the offset off the end of the text, checks the shape of what is left
and only then reads the fields, each in its columns.
-/

namespace DynamicData

/-- An instant, in seconds since 1970-01-01T00:00Z and nanoseconds, with the offset
of the local clock in seconds east. -/
structure OffsetDateTime where
  seconds : Int
  nanos : Nat
  offset : Int
  deriving DecidableEq, Repr

structure WallClock where
  date : Date
  hour : Nat
  minute : Nat
  second : Nat
  nanos : Nat
  deriving DecidableEq, Repr

/-- The seconds of a day. -/
def OffsetDateTime.day : Int := 86400

/-- The seconds since 1970-01-01T00:00 on the clock. -/
def WallClock.seconds (c : WallClock) : Int :=
  c.date.toDays * OffsetDateTime.day + (c.hour * 3600 + c.minute * 60 + c.second : Nat)

namespace OffsetDateTime

/-- The nanoseconds of a second. -/
def second : Nat := 1000000000

/-- The point in time at which a clock with an offset shows what it shows. -/
def ofWallClock (c : WallClock) (offset : Int) : OffsetDateTime :=
  ⟨c.seconds - offset, c.nanos, offset⟩

/-! ## Writing -/

/-- A number in at least `width` digits. -/
def padded (width n : Nat) : String :=
  let digits := Nat.toDigits 10 n
  String.ofList (List.replicate (width - digits.length) '0' ++ digits)

/-- A year: four digits, or a sign and at least four. -/
def yearText (year : Int) : String :=
  if 0 ≤ year ∧ year ≤ 9999 then padded 4 year.toNat
  else (if year < 0 then "-" else "+") ++ padded 4 year.natAbs

/-- A fraction of a second in as many groups of three digits as it takes. -/
def fractionText (nanos : Nat) : String :=
  if nanos = 0 then ""
  else if nanos % 1000000 = 0 then "." ++ padded 3 (nanos / 1000000)
  else if nanos % 1000 = 0 then "." ++ padded 6 (nanos / 1000)
  else "." ++ padded 9 nanos

/-- An offset, to the nearest minute. -/
def offsetText (offset : Int) : String :=
  let minutes := (offset.natAbs + 30) / 60
  (if offset < 0 then "-" else "+") ++ padded 2 (minutes / 60) ++ ":" ++
    padded 2 (minutes % 60)

/-- The RFC 3339 form. -/
def text (t : OffsetDateTime) : String :=
  let clock := t.seconds + t.offset
  let date := Date.ofDays (clock / day)
  let ofDay := (clock % day).toNat
  let isLeap := second ≤ t.nanos
  let sec := ofDay % 60 + (if isLeap then 1 else 0)
  let nanos := if isLeap then t.nanos - second else t.nanos
  yearText date.year ++ "-" ++ padded 2 date.month ++ "-" ++ padded 2 date.day ++ "T" ++
    padded 2 (ofDay / 3600) ++ ":" ++ padded 2 (ofDay / 60 % 60) ++ ":" ++ padded 2 sec ++
    fractionText nanos ++ offsetText t.offset

/-! ## Reading -/

/-- A number of at most `max`, in the given digits. -/
def upTo? (max : Nat) (cs : List Char) : Option Nat :=
  (Numeral.digits? cs).filter fun n => n ≤ max

def splitLast? (p : Char → Bool) (cs : List Char) : Option (List Char × Char × List Char) :=
  match cs.reverse.span fun c => !p c with
  | (_, []) => none
  | (after, c :: before) => some (before.reverse, c, after.reverse)

def isSign (c : Char) : Bool :=
  c = '+' || c = '-'

/-- The size in seconds of an offset in hours, minutes and perhaps seconds. -/
def offsetSize? : List Char → Option Nat
  | [h₁, h₂, ':', m₁, m₂] => do
    let hours ← upTo? 18 [h₁, h₂]
    let minutes ← upTo? 59 [m₁, m₂]
    some (hours * 3600 + minutes * 60)
  | [h₁, h₂, ':', m₁, m₂, ':', s₁, s₂] => do
    let hours ← upTo? 18 [h₁, h₂]
    let minutes ← upTo? 59 [m₁, m₂]
    let secs ← upTo? 59 [s₁, s₂]
    some (hours * 3600 + minutes * 60 + secs)
  | _ => none

/-- Splits an offset off the end: `Z`, or what the last sign begins. A sign in the first
eleven bytes is none of an offset, since the date is there. -/
def splitOffset? (cs : List Char) : Option (List Char × Int) :=
  if cs.getLast? = some 'Z' then some (cs.dropLast, 0)
  else
    match splitLast? isSign cs with
    | none => none
    | some (clock, sign, size) =>
      if (Text.encode (String.ofList clock)).length ≤ 10 then none
      else (offsetSize? size).map fun n : Nat => (clock, if sign = '-' then -n else n)

/-- Date, hour and minute, with a digit in place of each `d`. -/
def clockShape : List Char := "dddd-dd-ddTdd:dd".toList

/-- Whether a text begins with something of the shape. -/
def hasShape (shape cs : List Char) : Bool :=
  decide (shape.length ≤ cs.length) &&
    (cs.zip shape).all fun (c, place) => if place = 'd' then c.isDigit else c = place

/-- Nothing, or a point and one to nine digits. -/
def isFraction : List Char → Bool
  | [] => true
  | '.' :: digits => decide (1 ≤ digits.length ∧ digits.length ≤ 9) && digits.all Char.isDigit
  | _ => false

def isSeconds : List Char → Bool
  | [] => true
  | ':' :: s₁ :: s₂ :: fraction => s₁.isDigit && s₂.isDigit && isFraction fraction
  | _ => false

def isClock (cs : List Char) : Bool :=
  hasShape clockShape cs && isSeconds (cs.drop clockShape.length)

def column (cs : List Char) (start width : Nat) : Nat :=
  Numeral.value ((cs.drop start).take width)

def fractionNanos (digits : List Char) : Nat :=
  Numeral.value digits * 10 ^ (9 - digits.length)

/-- The second of that number, and the nanoseconds since it began. The sixtieth second is
the one before it, with its nanoseconds a second later. -/
def secondOf? (n nanos : Nat) : Option (Nat × Nat) :=
  if n < 60 then some (n, nanos) else if n = 60 then some (59, nanos + second) else none

/-- Reads the second of a clock, zero if it is not there, and the nanoseconds since. -/
def readSecond? (cs : List Char) : Option (Nat × Nat) :=
  if cs.length = clockShape.length then some (0, 0)
  else secondOf? (column cs 17 2) (fractionNanos (cs.drop 20))

def readClock? (cs : List Char) : Option WallClock := do
  let date : Date := ⟨column cs 0 4, column cs 5 2, column cs 8 2⟩
  let hour := column cs 11 2
  let minute := column cs 14 2
  let (sec, nanos) ← readSecond? cs
  if date.isValid && hour ≤ 23 && minute ≤ 59 then some ⟨date, hour, minute, sec, nanos⟩
  else none

def read? (s : String) : Option OffsetDateTime := do
  let (clock, offset) ← splitOffset? s.toList
  if isClock clock then (readClock? clock).map fun c => ofWallClock c offset else none

end OffsetDateTime
end DynamicData
