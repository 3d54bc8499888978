import DynamicData.Proofs.Time.Clock

/-!
# The form of date-times

A date-time is written as

    date "T" hour ":" minute (":" second ("." fraction)?)? zone

with every field in its full width, where the zone is `Z` or a sign with hours, minutes and
perhaps seconds. The relations pair each word with what it stands for: the date-time with
what the clock shows and the offset of the clock. A second numbered 60 is the one before it,
a second later.
-/

namespace DynamicData.OffsetDateTime

/-- A number in so many digits. -/
structure Field (width : Nat) (word : List Char) (n : Nat) : Prop where
  length : word.length = width
  decimal : ∀ c ∈ word, c.isDigit = true
  value : Numeral.value word = n

/-- Nothing, or a point and up to nine digits, which are filled up with zeros to nanoseconds. -/
inductive FractionForm : List Char → Nat → Prop
  | none : FractionForm [] 0
  | digits {word : List Char} (nonempty : word ≠ []) (short : word.length ≤ 9)
      (decimal : ∀ c ∈ word, c.isDigit = true) :
      FractionForm ('.' :: word) (Numeral.value (word ++ List.replicate (9 - word.length) '0'))

/-- Nothing, or a second and its fraction. The relation is to the second that a clock shows
and to the nanoseconds since it began. -/
inductive SecondForm : List Char → Nat → Nat → Prop
  | none : SecondForm [] 0 0
  | regular {word fraction : List Char} {s n : Nat} (field : Field 2 word s) (le : s ≤ 59)
      (rest : FractionForm fraction n) : SecondForm (':' :: (word ++ fraction)) s n
  | leap {word fraction : List Char} {n : Nat} (field : Field 2 word 60)
      (rest : FractionForm fraction n) :
      SecondForm (':' :: (word ++ fraction)) 59 (1000000000 + n)

/-- A sign, as a factor. -/
inductive SignForm : Char → Int → Prop
  | plus : SignForm '+' 1
  | minus : SignForm '-' (-1)

/-- An offset in seconds. -/
inductive ZoneForm : List Char → Int → Prop
  | utc : ZoneForm ['Z'] 0
  | minutes {c : Char} {sign : Int} {hours minutes : List Char} {h m : Nat}
      (signed : SignForm c sign) (hour : Field 2 hours h) (hour_le : h ≤ 18)
      (minute : Field 2 minutes m) (minute_le : m ≤ 59) :
      ZoneForm (c :: (hours ++ ':' :: minutes)) (sign * (h * 3600 + m * 60 : Nat))
  | seconds {c : Char} {sign : Int} {hours minutes seconds : List Char} {h m s : Nat}
      (signed : SignForm c sign) (hour : Field 2 hours h) (hour_le : h ≤ 18)
      (minute : Field 2 minutes m) (minute_le : m ≤ 59) (second : Field 2 seconds s)
      (second_le : s ≤ 59) : ZoneForm (c :: (hours ++ ':' :: (minutes ++ ':' :: seconds)))
        (sign * (h * 3600 + m * 60 + s : Nat))

/-- A date, an hour and a minute, and their numbers. -/
inductive MinuteForm : List Char → Nat → Nat → Nat → Nat → Nat → Prop
  | intro {years months days hours minutes : List Char} {y mo d h mi : Nat}
      (year : Field 4 years y) (month : Field 2 months mo) (day : Field 2 days d)
      (hour : Field 2 hours h) (minute : Field 2 minutes mi) :
      MinuteForm (years ++ '-' :: (months ++ '-' :: (days ++ 'T' :: (hours ++ ':' :: minutes))))
        y mo d h mi

/-- What a clock shows. -/
inductive ClockForm : List Char → WallClock → Prop
  | intro {word seconds : List Char} {y mo d h mi s n : Nat} (minute : MinuteForm word y mo d h mi)
      (exists_date : Date.isValid ⟨y, mo, d⟩ = true) (hour_le : h ≤ 23) (minute_le : mi ≤ 59)
      (second : SecondForm seconds s n) :
      ClockForm (word ++ seconds) ⟨⟨y, mo, d⟩, h, mi, s, n⟩

/-- A date-time: what the clock shows, and its offset. -/
inductive Form : List Char → WallClock → Int → Prop
  | intro {clock zone : List Char} {c : WallClock} {offset : Int} (shown : ClockForm clock c)
      (apart : ZoneForm zone offset) : Form (clock ++ zone) c offset

theorem SecondForm.le {word : List Char} {s n : Nat} (h : SecondForm word s n) : s ≤ 59 := by
  cases h with
  | none => exact Nat.zero_le 59
  | regular field le rest => exact le
  | leap field rest => exact Nat.le_refl 59

/-- What the form stands for is something that a clock can show. -/
theorem ClockForm.valid {cs : List Char} {c : WallClock} (h : ClockForm cs c) : c.Valid := by
  cases h with
  | intro minute exists_date hour_le minute_le second =>
      exact ⟨exists_date, hour_le, minute_le, second.le⟩

theorem Form.valid {cs : List Char} {c : WallClock} {offset : Int} (h : Form cs c offset) :
    c.Valid := by
  cases h with
  | intro shown apart => exact shown.valid

end DynamicData.OffsetDateTime
