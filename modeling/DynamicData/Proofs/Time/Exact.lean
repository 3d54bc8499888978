import DynamicData.Heap.Read
import DynamicData.Proofs.Time.Clock
import DynamicData.Proofs.Time.Columns

/-!
# Date-times are read in their form only

A text is read as a date-time if and only if it has the form of one, and then as the point
in time at which the clock shows what is written: the offset is what is split off, and the
clock what is left.
-/

namespace DynamicData

namespace OffsetDateTime

/-! ## Date-times -/

/-- What is read has the form, and is the point in time that it stands for. -/
theorem read?_sound {s : String} {t : OffsetDateTime} (h : read? s = some t) :
    ∃ c, Form s.toList c t.offset ∧ t = ofWallClock c t.offset := by
  obtain ⟨⟨clock, offset⟩, hsplit, h⟩ := Option.bind_eq_some_iff.mp h
  dsimp only at h
  split at h
  · next hclock =>
      obtain ⟨c, hc, rfl⟩ := Option.map_eq_some_iff.mp h
      obtain ⟨zone, hchars, hzone⟩ := splitOffset?_sound hsplit
      rw [hchars]
      exact ⟨c, .intro (clockForm_iff.mpr ⟨hclock, hc⟩) hzone, rfl⟩
  · cases h

theorem read?_complete {s : String} {c : WallClock} {offset : Int}
    (h : Form s.toList c offset) : read? s = some (ofWallClock c offset) := by
  generalize hchars : s.toList = cs at h
  cases h with
  | intro shown apart =>
      obtain ⟨hclock, hc⟩ := clockForm_iff.mp shown
      rw [read?, hchars, splitOffset?_complete apart shown.lt_length_encode]
      dsimp only [bind, Option.bind]
      rw [if_pos hclock, hc]
      rfl

theorem wallClock_ofWallClock {c : WallClock} (hc : c.Valid) (offset : Int) :
    (ofWallClock c offset).wallClock = c :=
  wallClock_eq hc offset

/-- A text is read as a date-time if and only if it has the form of what the clock shows
then. -/
theorem read?_eq_some_iff {s : String} {t : OffsetDateTime} :
    read? s = some t ↔ Form s.toList t.wallClock t.offset := by
  constructor
  · intro h
    obtain ⟨c, hform, ht⟩ := read?_sound h
    have hc : t.wallClock = c := by
      rw [ht]
      exact wallClock_ofWallClock hform.valid _
    rw [hc]
    exact hform
  · intro hform
    have ht : ofWallClock t.wallClock t.offset = t :=
      eq_of_wallClock (wallClock_ofWallClock hform.valid _) rfl
    rw [read?_complete hform, ht]

/-- Whatever has the form is read, as the one point in time at which the clock shows it. -/
theorem form_iff_exists_read? {s : String} {c : WallClock} {offset : Int} :
    Form s.toList c offset ↔ ∃ t, read? s = some t ∧ t.wallClock = c ∧ t.offset = offset := by
  constructor
  · intro hform
    exact ⟨_, read?_complete hform, wallClock_ofWallClock hform.valid offset, rfl⟩
  · rintro ⟨t, ht, rfl, rfl⟩
    exact read?_eq_some_iff.mp ht

theorem read?_eq_none_iff {s : String} : read? s = none ↔ ¬ ∃ c offset, Form s.toList c offset := by
  constructor
  · rintro hnone ⟨c, offset, hform⟩
    rw [read?_complete hform] at hnone
    cases hnone
  · intro hform
    cases ht : read? s with
    | none => rfl
    | some t => exact absurd ⟨_, _, read?_eq_some_iff.mp ht⟩ hform

example : read? "1999-12-31T23:59:60.25-00:30" = some ⟨946686599, 1250000000, -1800⟩ := by rfl

end OffsetDateTime

/-! ## Text nodes -/

namespace Heap

variable (h : Heap) (location : Location) (s : String)

theorem coerce_offsetDateTime_text : h.coerce .offsetDateTime location (.text s) =
    match OffsetDateTime.read? s with
    | some t => .ok t
    | none => .error (.invalidText location "offset date-time" s) := by
  simp only [coerce, Target.offsetDateTime]
  cases OffsetDateTime.read? s <;> rfl

theorem coerce_offsetDateTime_eq_ok_iff {t : OffsetDateTime} :
    h.coerce .offsetDateTime location (.text s) = .ok t ↔ OffsetDateTime.read? s = some t := by
  rw [coerce_offsetDateTime_text]
  cases OffsetDateTime.read? s <;> simp

/-- A text node is read as a date-time if and only if its text has the form of one, and then
as the date-time whose clock shows what is written, with the offset that is written. Any
other text is invalid. -/
theorem coerce_offsetDateTime_exact :
    (∀ t, h.coerce .offsetDateTime location (.text s) = .ok t ↔
      OffsetDateTime.Form s.toList t.wallClock t.offset) ∧
    (∀ c offset, OffsetDateTime.Form s.toList c offset ↔
      ∃ t, h.coerce .offsetDateTime location (.text s) = .ok t ∧
        t.wallClock = c ∧ t.offset = offset) ∧
    (h.coerce .offsetDateTime location (.text s) =
        .error (.invalidText location "offset date-time" s) ↔
      ¬ ∃ c offset, OffsetDateTime.Form s.toList c offset) := by
  simp only [coerce_offsetDateTime_eq_ok_iff]
  refine ⟨fun t => OffsetDateTime.read?_eq_some_iff,
    fun c offset => OffsetDateTime.form_iff_exists_read?, ?_⟩
  rw [← OffsetDateTime.read?_eq_none_iff, coerce_offsetDateTime_text]
  cases OffsetDateTime.read? s <;> simp

end Heap
end DynamicData
