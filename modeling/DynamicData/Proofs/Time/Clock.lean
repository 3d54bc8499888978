import DynamicData.Proofs.Time.Calendar
import DynamicData.Time.DateTime

/-!
# What a local clock shows

A point in time is known from its offset and from what a clock at this offset shows: a
date, a time of day, and the nanoseconds since its last second began. Whatever a clock can
show at an offset is shown at some point in time.
-/

namespace DynamicData

/-- A date of the calendar and a time of day. -/
structure WallClock.Valid (c : WallClock) : Prop where
  date : c.date.isValid = true
  hour : c.hour ≤ 23
  minute : c.minute ≤ 59
  second : c.second ≤ 59

namespace OffsetDateTime

/-- What a clock at the offset shows. -/
def wallClock (t : OffsetDateTime) : WallClock :=
  let clock := t.seconds + t.offset
  let ofDay := (clock % day).toNat
  ⟨Date.ofDays (clock / day), ofDay / 3600, ofDay / 60 % 60, ofDay % 60, t.nanos⟩

theorem wallClock_valid (t : OffsetDateTime) : t.wallClock.Valid := by
  constructor
  · exact Date.isValid_ofDays _
  all_goals
    unfold wallClock day
    dsimp only
    omega

theorem seconds_wallClock (t : OffsetDateTime) :
    t.wallClock.seconds = t.seconds + t.offset := by
  unfold WallClock.seconds wallClock
  dsimp only
  rw [Date.toDays_ofDays]
  unfold day
  omega

/-- Whatever a clock can show is shown at some point in time. -/
theorem wallClock_eq {c : WallClock} (hc : c.Valid) (offset : Int) :
    wallClock ⟨c.seconds - offset, c.nanos, offset⟩ = c := by
  obtain ⟨date, hour, minute, second, nanos⟩ := c
  obtain ⟨hdate, hhour, hminute, hsecond⟩ := hc
  dsimp only at hdate hhour hminute hsecond
  simp only [wallClock, WallClock.seconds, day]
  generalize htoday : hour * 3600 + minute * 60 + second = ofDay
  have hdays : (date.toDays * 86400 + (ofDay : Nat) - offset + offset) / 86400 = date.toDays := by
    omega
  have hofDay :
      ((date.toDays * 86400 + (ofDay : Nat) - offset + offset) % 86400).toNat = ofDay := by
    omega
  rw [hdays, hofDay, Date.ofDays_toDays hdate]
  have hhours : ofDay / 3600 = hour := by omega
  have hminutes : ofDay / 60 % 60 = minute := by omega
  have hseconds : ofDay % 60 = second := by omega
  rw [hhours, hminutes, hseconds]

theorem eq_of_wallClock {t u : OffsetDateTime} (hclock : t.wallClock = u.wallClock)
    (hoffset : t.offset = u.offset) : t = u := by
  have hseconds := congrArg WallClock.seconds hclock
  have hnanos : t.nanos = u.nanos := congrArg WallClock.nanos hclock
  rw [seconds_wallClock, seconds_wallClock, hoffset] at hseconds
  obtain ⟨s, n, o⟩ := t
  obtain ⟨s', n', o'⟩ := u
  dsimp only at hseconds hnanos hoffset
  obtain rfl : s = s' := by omega
  rw [hnanos, hoffset]

end OffsetDateTime
end DynamicData
