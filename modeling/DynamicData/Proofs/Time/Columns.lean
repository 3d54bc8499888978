import DynamicData.Proofs.Number.Numeral
import DynamicData.Proofs.Time.Offset

/-!
# What a clock shows is read in fixed columns

The shape of a text is checked before its fields are read, each in the columns where the
shape has its digits. So a column holds a number of its width, and the text is put together
from the fields and the marks between them.
-/

namespace DynamicData.OffsetDateTime

/-! ## Shapes -/

theorem hasShape_nil (cs : List Char) : hasShape [] cs = true := by
  simp [hasShape]

theorem hasShape_cons {place : Char} {shape cs : List Char} :
    hasShape (place :: shape) cs = true ↔ ∃ c rest, cs = c :: rest ∧
      (if place = 'd' then c.isDigit else c = place) = true ∧ hasShape shape rest = true := by
  cases cs with
  | nil => simp [hasShape]
  | cons c cs => simp [hasShape, and_left_comm]

theorem hasShape_mark {place : Char} (hplace : place ≠ 'd') {shape cs : List Char} :
    hasShape (place :: shape) cs = true ↔
      ∃ rest, cs = place :: rest ∧ hasShape shape rest = true := by
  rw [hasShape_cons]
  simp [hplace]

theorem hasShape_digits {width : Nat} {shape cs : List Char} :
    hasShape (List.replicate width 'd' ++ shape) cs = true ↔
      ∃ word rest n, cs = word ++ rest ∧ Field width word n ∧ hasShape shape rest = true := by
  induction width generalizing cs with
  | zero =>
      constructor
      · intro h
        exact ⟨[], cs, 0, rfl, ⟨rfl, by simp, rfl⟩, h⟩
      · rintro ⟨word, rest, n, rfl, hword, h⟩
        rwa [List.length_eq_zero_iff.mp hword.length]
  | succ width ih =>
      rw [List.replicate_succ, List.cons_append, hasShape_cons]
      constructor
      · rintro ⟨c, cs, rfl, hc, h⟩
        obtain ⟨word, rest, n, rfl, hword, h⟩ := ih.mp h
        refine ⟨c :: word, rest, _, rfl, ⟨?_, ?_, rfl⟩, h⟩
        · rw [List.length_cons, hword.length]
        · exact List.forall_mem_cons.mpr ⟨by simpa using hc, hword.decimal⟩
      · rintro ⟨word, rest, n, rfl, hword, h⟩
        obtain ⟨c, word, rfl⟩ := List.exists_of_length_succ word hword.length
        have hdecimal := List.forall_mem_cons.mp hword.decimal
        exact ⟨c, word ++ rest, rfl, by simpa using hdecimal.1,
          ih.mpr ⟨word, rest, _, rfl, ⟨Nat.succ.inj hword.length, hdecimal.2, rfl⟩, h⟩⟩

/-! ## Seconds -/

theorem length_clockShape : clockShape.length = 16 :=
  rfl

theorem readSecond?_none {word : List Char} (hword : word.length = 16) :
    readSecond? (word ++ []) = some (0, 0) := by
  rw [List.append_nil, readSecond?, if_pos (hword.trans length_clockShape.symm)]

theorem readSecond?_given {word : List Char} (hword : word.length = 16) (s₁ s₂ : Char)
    (fraction : List Char) : readSecond? (word ++ ':' :: s₁ :: s₂ :: fraction) =
      secondOf? (Numeral.value [s₁, s₂]) (fractionNanos (fraction.drop 1)) := by
  have hlong : (word ++ ':' :: s₁ :: s₂ :: fraction).length ≠ clockShape.length := by
    rw [List.length_append, hword, length_clockShape]
    simp
  have hsecond : column (word ++ ':' :: s₁ :: s₂ :: fraction) (16 + 1) 2 =
      Numeral.value [s₁, s₂] := by
    rw [column, ← List.drop_drop, List.drop_left' hword]
    rfl
  have hfraction : (word ++ ':' :: s₁ :: s₂ :: fraction).drop (16 + 4) = fraction.drop 1 := by
    rw [← List.drop_drop, List.drop_left' hword]
    rfl
  rw [readSecond?, if_neg hlong, hsecond, hfraction]

theorem fractionForm_iff {cs : List Char} {n : Nat} :
    FractionForm cs n ↔ isFraction cs = true ∧ fractionNanos (cs.drop 1) = n := by
  constructor
  · intro h
    cases h with
    | none => exact ⟨rfl, rfl⟩
    | @digits word nonempty short decimal =>
        have hlength := List.length_pos_of_ne_nil nonempty
        refine ⟨?_, (Numeral.value_append_zeros word _).symm⟩
        rw [isFraction, Bool.and_eq_true, decide_eq_true_eq, List.all_eq_true]
        exact ⟨⟨hlength, short⟩, decimal⟩
  · rintro ⟨h, rfl⟩
    unfold isFraction at h
    split at h
    · exact .none
    · next word =>
        rw [Bool.and_eq_true, decide_eq_true_eq, List.all_eq_true] at h
        obtain ⟨⟨hlength, short⟩, decimal⟩ := h
        show FractionForm _ (fractionNanos word)
        rw [fractionNanos, ← Numeral.value_append_zeros]
        exact .digits (List.ne_nil_of_length_pos hlength) short decimal
    · cases h

theorem secondForm_iff {word cs : List Char} (hword : word.length = 16) {s n : Nat} :
    SecondForm cs s n ↔ isSeconds cs = true ∧ readSecond? (word ++ cs) = some (s, n) := by
  constructor
  · intro h
    cases h with
    | none => exact ⟨rfl, readSecond?_none hword⟩
    | regular field le rest =>
        obtain ⟨s₁, s₂, rfl⟩ := field.exists_two
        obtain ⟨hrest, rfl⟩ := fractionForm_iff.mp rest
        refine ⟨?_, ?_⟩
        · simpa [isSeconds, hrest] using field.decimal
        · rw [List.cons_append, List.cons_append, List.nil_append, readSecond?_given hword,
            field.value, secondOf?, if_pos (Nat.lt_succ_of_le le)]
    | leap field rest =>
        obtain ⟨s₁, s₂, rfl⟩ := field.exists_two
        obtain ⟨hrest, rfl⟩ := fractionForm_iff.mp rest
        refine ⟨?_, ?_⟩
        · simpa [isSeconds, hrest] using field.decimal
        · rw [List.cons_append, List.cons_append, List.nil_append, readSecond?_given hword,
            field.value, secondOf?, if_neg (Nat.lt_irrefl 60), if_pos rfl, Nat.add_comm]
          rfl
  · rintro ⟨hshape, hread⟩
    unfold isSeconds at hshape
    split at hshape
    · rw [readSecond?_none hword] at hread
      cases hread
      exact .none
    · next s₁ s₂ fraction =>
        rw [Bool.and_eq_true, Bool.and_eq_true] at hshape
        obtain ⟨⟨h₁, h₂⟩, hfraction⟩ := hshape
        have hrest := fractionForm_iff.mpr ⟨hfraction, rfl⟩
        have hfield : Field 2 [s₁, s₂] (Numeral.value [s₁, s₂]) := ⟨rfl, by simp [h₁, h₂], rfl⟩
        rw [readSecond?_given hword, secondOf?] at hread
        split at hread
        · next hlt =>
            cases hread
            exact .regular hfield (Nat.le_of_lt_succ hlt) hrest
        · split at hread
          · next hleap =>
              cases hread
              rw [hleap] at hfield
              rw [Nat.add_comm]
              exact .leap hfield hrest
          · cases hread
    · cases hshape

/-! ## Columns -/

theorem Field.column {width n : Nat} {word : List Char} (h : Field width word n)
    (rest : List Char) : column (word ++ rest) 0 width = n := by
  rw [OffsetDateTime.column, List.drop_zero, List.take_left' h.length, h.value]

theorem Field.column_add {width n : Nat} {word : List Char} (h : Field width word n)
    (rest : List Char) (start width' : Nat) :
    OffsetDateTime.column (word ++ rest) (width + start) width' =
      OffsetDateTime.column rest start width' := by
  rw [OffsetDateTime.column, ← List.drop_drop, List.drop_left' h.length]
  rfl

theorem Field.column_past {width n : Nat} {word : List Char} (h : Field width word n)
    (mark : Char) (rest : List Char) (start width' : Nat) :
    OffsetDateTime.column (word ++ mark :: rest) (width + (start + 1)) width' =
      OffsetDateTime.column rest start width' := by
  rw [h.column_add]
  rfl

/-- A column for every field. -/
structure Columns (cs : List Char) (y mo d h mi : Nat) : Prop where
  year : column cs 0 4 = y
  month : column cs 5 2 = mo
  day : column cs 8 2 = d
  hour : column cs 11 2 = h
  minute : column cs 14 2 = mi

theorem MinuteForm.columns {word : List Char} {y mo d h mi : Nat}
    (hword : MinuteForm word y mo d h mi) (rest : List Char) :
    Columns (word ++ rest) y mo d h mi := by
  cases hword with
  | intro year month day hour minute =>
      simp only [List.append_assoc, List.cons_append]
      constructor
      · exact year.column _
      · exact (year.column_past _ _ 0 2).trans (month.column _)
      · exact (year.column_past _ _ 3 2).trans ((month.column_past _ _ 0 2).trans (day.column _))
      · exact (year.column_past _ _ 6 2).trans ((month.column_past _ _ 3 2).trans
          ((day.column_past _ _ 0 2).trans (hour.column _)))
      · exact (year.column_past _ _ 9 2).trans ((month.column_past _ _ 6 2).trans
          ((day.column_past _ _ 3 2).trans ((hour.column_past _ _ 0 2).trans (minute.column _))))

/-! ## Clocks -/

theorem MinuteForm.length {word : List Char} {y mo d h mi : Nat}
    (hword : MinuteForm word y mo d h mi) : word.length = 16 := by
  cases hword with
  | intro year month day hour minute =>
      simp [year.length, month.length, day.length, hour.length, minute.length]

theorem hasShape_clockShape {cs : List Char} : hasShape clockShape cs = true ↔
    ∃ word rest y mo d h mi, cs = word ++ rest ∧ MinuteForm word y mo d h mi := by
  -- the shape, place by place
  have hshape : clockShape = List.replicate 4 'd' ++ ('-' :: (List.replicate 2 'd' ++ ('-' ::
      (List.replicate 2 'd' ++ ('T' :: (List.replicate 2 'd' ++ (':' ::
        (List.replicate 2 'd' ++ [])))))))) := rfl
  rw [hshape]
  constructor
  · intro hyear
    obtain ⟨years, _, y, rfl, year, hdash⟩ := hasShape_digits.mp hyear
    obtain ⟨_, rfl, hmonth⟩ := (hasShape_mark (by decide)).mp hdash
    obtain ⟨months, _, mo, rfl, month, hdash'⟩ := hasShape_digits.mp hmonth
    obtain ⟨_, rfl, hday⟩ := (hasShape_mark (by decide)).mp hdash'
    obtain ⟨days, _, d, rfl, day, htime⟩ := hasShape_digits.mp hday
    obtain ⟨_, rfl, hhour⟩ := (hasShape_mark (by decide)).mp htime
    obtain ⟨hours, _, h, rfl, hour, hcolon⟩ := hasShape_digits.mp hhour
    obtain ⟨_, rfl, hminute⟩ := (hasShape_mark (by decide)).mp hcolon
    obtain ⟨minutes, rest, mi, rfl, minute, -⟩ := hasShape_digits.mp hminute
    exact ⟨_, rest, y, mo, d, h, mi, by simp only [List.append_assoc, List.cons_append],
      .intro year month day hour minute⟩
  · rintro ⟨word, rest, y, mo, d, h, mi, rfl, hword⟩
    cases hword with
    | intro year month day hour minute =>
        simp only [List.append_assoc, List.cons_append]
        refine hasShape_digits.mpr ⟨_, _, _, rfl, year, ?_⟩
        refine (hasShape_mark (by decide)).mpr ⟨_, rfl, ?_⟩
        refine hasShape_digits.mpr ⟨_, _, _, rfl, month, ?_⟩
        refine (hasShape_mark (by decide)).mpr ⟨_, rfl, ?_⟩
        refine hasShape_digits.mpr ⟨_, _, _, rfl, day, ?_⟩
        refine (hasShape_mark (by decide)).mpr ⟨_, rfl, ?_⟩
        refine hasShape_digits.mpr ⟨_, _, _, rfl, hour, ?_⟩
        refine (hasShape_mark (by decide)).mpr ⟨_, rfl, ?_⟩
        exact hasShape_digits.mpr ⟨_, _, _, rfl, minute, hasShape_nil _⟩

theorem isClock_append {word : List Char} {y mo d h mi : Nat}
    (hword : MinuteForm word y mo d h mi) (rest : List Char) :
    isClock (word ++ rest) = isSeconds rest := by
  have hshape : hasShape clockShape (word ++ rest) = true :=
    hasShape_clockShape.mpr ⟨_, _, _, _, _, _, _, rfl, hword⟩
  rw [isClock, hshape, Bool.true_and, length_clockShape, List.drop_left' hword.length]

theorem readClock?_append {word : List Char} {y mo d h mi : Nat}
    (hword : MinuteForm word y mo d h mi) (rest : List Char) :
    readClock? (word ++ rest) = (readSecond? (word ++ rest)).bind fun r =>
      if Date.isValid ⟨y, mo, d⟩ && h ≤ 23 && mi ≤ 59 then
        some ⟨⟨y, mo, d⟩, h, mi, r.1, r.2⟩ else none := by
  have hcolumns := hword.columns rest
  simp only [readClock?, hcolumns.year, hcolumns.month, hcolumns.day, hcolumns.hour,
    hcolumns.minute]
  rfl

/-- The shape of a text and the numbers in its columns say what a clock shows. -/
theorem clockForm_iff {cs : List Char} {c : WallClock} :
    ClockForm cs c ↔ isClock cs = true ∧ readClock? cs = some c := by
  constructor
  · intro h
    cases h with
    | intro minute existsDate hourLe minuteLe second =>
        obtain ⟨hseconds, hread⟩ := (secondForm_iff minute.length).mp second
        rw [isClock_append minute, readClock?_append minute, hread, Option.bind_some, existsDate]
        exact ⟨hseconds, by simp [hourLe, minuteLe]⟩
  · rintro ⟨hclock, hread⟩
    obtain ⟨word, rest, y, mo, d, h, mi, rfl, hword⟩ :=
      hasShape_clockShape.mp (Bool.and_eq_true_iff.mp hclock).1
    rw [isClock_append hword] at hclock
    rw [readClock?_append hword] at hread
    obtain ⟨⟨s, n⟩, hgiven, hread⟩ := Option.bind_eq_some_iff.mp hread
    split at hread
    · next hvalid =>
        cases hread
        rw [Bool.and_eq_true, Bool.and_eq_true, decide_eq_true_eq, decide_eq_true_eq] at hvalid
        obtain ⟨⟨existsDate, hourLe⟩, minuteLe⟩ := hvalid
        exact .intro hword existsDate hourLe minuteLe
          ((secondForm_iff hword.length).mpr ⟨hclock, hgiven⟩)
    · cases hread

/-- A clock is longer than the date in it. -/
theorem ClockForm.lt_length_encode {cs : List Char} {c : WallClock} (h : ClockForm cs c) :
    10 < (Text.encode (String.ofList cs)).length := by
  have hlength : 16 ≤ cs.length := by
    cases h with
    | intro minute existsDate hourLe minuteLe second =>
        rw [List.length_append, minute.length]
        exact Nat.le_add_right 16 _
  have hbytes := Text.length_le_length_encode_ofList cs
  omega

end DynamicData.OffsetDateTime
