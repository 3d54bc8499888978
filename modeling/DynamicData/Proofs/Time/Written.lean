import DynamicData.Proofs.Number.Numeral
import DynamicData.Proofs.Time.Form

/-!
# Date-times are written in their form

The text of a date-time is its wall clock, part by part, in the form of date-times, if the
year has four digits and the offset is in whole minutes. Nanoseconds beyond a second are
written as the next second, which has a number up to sixty. So only at the end of a minute
is a leap second told from the second after it.
-/

namespace DynamicData

/-- What the clock shows once nanoseconds beyond a second are counted as a second, where
the minute has another one. -/
def WallClock.carried (c : WallClock) : WallClock :=
  if OffsetDateTime.second ≤ c.nanos ∧ c.second < 59 then
    { c with second := c.second + 1, nanos := c.nanos - OffsetDateTime.second }
  else c

theorem WallClock.carried_eq (c : WallClock) :
    c.carried = ⟨c.date, c.hour, c.minute, c.carried.second, c.carried.nanos⟩ := by
  unfold carried
  split <;> rfl

namespace OffsetDateTime

/-- Date-times that a text can carry: at most one leap second, an offset in minutes below
nineteen hours, and a local year of four digits. -/
structure Writable (t : OffsetDateTime) : Prop where
  nanos : t.nanos < 2 * second
  minutes : t.offset % 60 = 0
  near : t.offset.natAbs ≤ 18 * 3600 + 59 * 60
  year : 0 ≤ t.wallClock.date.year ∧ t.wallClock.date.year ≤ 9999

/-! ## Parts -/

theorem field_padded (width n : Nat) (hwidth : 0 < width) (hn : n < 10 ^ width) :
    Field width (padded width n).toList n := by
  have hlength : (Nat.toDigits 10 n).length ≤ width :=
    (Nat.length_toDigits_le_iff (by decide) hwidth).mpr hn
  have hchars : (padded width n).toList =
      List.replicate (width - (Nat.toDigits 10 n).length) '0' ++ Nat.toDigits 10 n := by
    simp [padded]
  rw [hchars]
  constructor
  · rw [List.length_append, List.length_replicate]
    omega
  · intro c hc
    rcases List.mem_append.mp hc with hzero | hdigit
    · rw [List.eq_of_mem_replicate hzero]
      rfl
    · exact Numeral.isDigit_of_mem_toDigits hdigit
  · rw [Numeral.value_zeros_append, Numeral.value_toDigits]

/-- A field after a point is filled up with zeros. -/
theorem Field.fractionForm {width : Nat} {word : List Char} {n : Nat} (h : Field width word n)
    (hwidth : 0 < width) (hle : width ≤ 9) :
    FractionForm ('.' :: word) (n * 10 ^ (9 - width)) := by
  obtain ⟨rfl, hdecimal, rfl⟩ := h
  rw [← Numeral.value_append_zeros]
  exact .digits (List.ne_nil_of_length_pos hwidth) hle hdecimal

theorem toList_point (s : String) : ("." ++ s).toList = '.' :: s.toList := by
  simp

theorem fractionForm_fractionText {n : Nat} (hn : n < second) :
    FractionForm (fractionText n).toList n := by
  unfold second at hn
  unfold fractionText
  split
  · next hzero =>
      subst hzero
      exact .none
  · split
    · have hfield := field_padded 3 (n / 1000000) (by decide) (by omega)
      have hform := hfield.fractionForm (by decide) (by decide)
      rwa [show n / 1000000 * 10 ^ (9 - 3) = n by omega, ← toList_point] at hform
    · split
      · have hfield := field_padded 6 (n / 1000) (by decide) (by omega)
        have hform := hfield.fractionForm (by decide) (by decide)
        rwa [show n / 1000 * 10 ^ (9 - 6) = n by omega, ← toList_point] at hform
      · have hfield := field_padded 9 n (by decide) hn
        have hform := hfield.fractionForm (by decide) (by decide)
        rwa [Nat.sub_self, Nat.pow_zero, Nat.mul_one, ← toList_point] at hform

theorem zoneForm_offsetText {offset : Int} (hminutes : offset % 60 = 0)
    (hnear : offset.natAbs ≤ 18 * 3600 + 59 * 60) :
    ZoneForm (offsetText offset).toList offset := by
  have hrounded : (offset.natAbs + 30) / 60 = offset.natAbs / 60 := by omega
  have hhours := field_padded 2 (offset.natAbs / 60 / 60) (by decide) (by omega)
  have hfield := field_padded 2 (offset.natAbs / 60 % 60) (by decide) (by omega)
  have hsize : offset.natAbs / 60 / 60 * 3600 + offset.natAbs / 60 % 60 * 60 = offset.natAbs := by
    omega
  -- the form for either sign, with the size of the offset put together again
  have hform : ∀ {c : Char} {sign : Int}, SignForm c sign →
      ZoneForm (c :: ((padded 2 (offset.natAbs / 60 / 60)).toList ++ ':' ::
        (padded 2 (offset.natAbs / 60 % 60)).toList)) (sign * offset.natAbs) := by
    intro c sign hsign
    have h := ZoneForm.minutes hsign hhours (by omega) hfield (by omega)
    rwa [hsize] at h
  unfold offsetText
  rw [hrounded]
  split
  · have h := hform .minus
    rw [show (-1 : Int) * offset.natAbs = offset by omega] at h
    simpa [String.toList_append] using h
  · have h := hform .plus
    rw [show (1 : Int) * offset.natAbs = offset by omega] at h
    simpa [String.toList_append] using h

theorem field_yearText {year : Int} (hyear : 0 ≤ year ∧ year ≤ 9999) :
    Field 4 (yearText year).toList year.toNat := by
  rw [yearText, if_pos hyear]
  exact field_padded 4 _ (by decide) (by omega)

/-- The number under which a second is written. -/
def shownSecond (c : WallClock) : Nat :=
  c.second + if second ≤ c.nanos then 1 else 0

/-- The nanoseconds that are written after it. -/
def shownNanos (c : WallClock) : Nat :=
  if second ≤ c.nanos then c.nanos - second else c.nanos

theorem secondForm_shown {c : WallClock} (hsecond : c.second ≤ 59)
    (hnanos : c.nanos < 2 * second) :
    SecondForm (':' :: ((padded 2 (shownSecond c)).toList ++ (fractionText (shownNanos c)).toList))
      c.carried.second c.carried.nanos := by
  unfold second at hnanos
  unfold shownSecond shownNanos WallClock.carried second
  by_cases hleap : 1000000000 ≤ c.nanos
  · simp only [hleap, true_and, if_true]
    have hfield := field_padded 2 (c.second + 1) (by decide) (by omega)
    have hrest := fractionForm_fractionText (n := c.nanos - 1000000000) (by unfold second; omega)
    split
    · next hnext => exact .regular hfield hnext hrest
    · have hlast : c.second = 59 := by omega
      rw [hlast] at hfield ⊢
      have hform := SecondForm.leap hfield hrest
      rwa [Nat.add_sub_cancel' hleap] at hform
  · simp only [hleap, false_and, if_false, Nat.add_zero]
    exact .regular (field_padded 2 _ (by decide) (by omega)) hsecond
      (fractionForm_fractionText (Nat.lt_of_not_le hleap))

/-! ## Date-times -/

theorem text_eq (t : OffsetDateTime) : t.text =
    yearText t.wallClock.date.year ++ "-" ++ padded 2 t.wallClock.date.month ++ "-" ++
      padded 2 t.wallClock.date.day ++ "T" ++ padded 2 t.wallClock.hour ++ ":" ++
      padded 2 t.wallClock.minute ++ ":" ++ padded 2 (shownSecond t.wallClock) ++
      fractionText (shownNanos t.wallClock) ++ offsetText t.offset :=
  rfl

/-- The text of a date-time has the form of what its clock shows. -/
theorem Writable.form_text {t : OffsetDateTime} (ht : t.Writable) :
    Form t.text.toList t.wallClock.carried t.offset := by
  obtain ⟨hdate, hhour, hminute, hsecond⟩ := t.wallClock_valid
  have hmonth := Date.month_le_of_isValid hdate
  have hday := Date.day_le_of_isValid hdate
  have hyear := Int.toNat_of_nonneg ht.year.1
  have hminutes := MinuteForm.intro (field_yearText ht.year)
    (field_padded 2 t.wallClock.date.month (by decide) (by omega))
    (field_padded 2 t.wallClock.date.day (by decide) (by omega))
    (field_padded 2 t.wallClock.hour (by decide) (by omega))
    (field_padded 2 t.wallClock.minute (by decide) (by omega))
  have hshown := ClockForm.intro hminutes (by rw [hyear]; exact hdate) hhour hminute
    (secondForm_shown hsecond ht.nanos)
  have hform := Form.intro hshown (zoneForm_offsetText ht.minutes ht.near)
  rw [hyear] at hform
  rw [WallClock.carried_eq, text_eq]
  simpa [String.toList_append] using hform

end OffsetDateTime
end DynamicData
