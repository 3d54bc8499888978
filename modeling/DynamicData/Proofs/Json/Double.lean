import DynamicData.Json.Print
import DynamicData.Proofs.Json.Spelling
import DynamicData.Proofs.Number.Shortest

/-!
# The text of a double is read as the double

Each notation for a decimal is a regular spelling of it, with a point or an exponent,
so it is not taken for an integer. The decimal is the shortest that reads back, which
makes the text of a finite double one that is read as this double and no other.
-/

namespace DynamicData.Json

open DynamicData.Binary64
open DynamicData.Numeral (isDigit_of_mem_toDigits toDigits_head value_zeros_append
  value_append_zeros)

/-! ## Spellings of decimals -/

namespace Spelling

theorem integer?_of_fraction {s : Spelling} (h : s.fraction ≠ []) (negative : Bool) :
    s.integer? negative = none := by
  obtain ⟨whole, fraction, power⟩ := s
  cases fraction with
  | nil => exact absurd rfl h
  | cons c cs => rfl

theorem integer?_of_power {s : Spelling} (h : s.power ≠ none) (negative : Bool) :
    s.integer? negative = none := by
  obtain ⟨whole, fraction, power⟩ := s
  cases power with
  | none => exact absurd rfl h
  | some e => cases fraction <;> rfl

theorem fractionChars_of_ne_nil {fraction : List Char} (h : fraction ≠ []) :
    fractionChars fraction = '.' :: fraction := by
  cases fraction with
  | nil => exact absurd rfl h
  | cons c cs => rfl

theorem chars_of_fraction (whole : List Char) {fraction : List Char} (h : fraction ≠ []) :
    chars ⟨whole, fraction, none⟩ = whole ++ '.' :: fraction := by
  rw [chars, fractionChars_of_ne_nil h]
  exact congrArg (whole ++ ·) (List.append_nil _)

/-- The spelling is read as the double nearest to the decimal. -/
structure Denotes (s : Spelling) (d : Decimal) : Prop where
  regular : s.Regular
  real : ∀ negative, s.integer? negative = none
  double : ∀ negative, s.double negative = ofDecimal negative d.digits d.exponent

/-- Digits and power may be the decimal's own. -/
theorem Regular.denotes {s : Spelling} (hs : s.Regular) {d : Decimal}
    (hreal : ∀ negative, s.integer? negative = none) (hdigits : s.digits = d.digits)
    (hscale : s.scale = d.exponent) : s.Denotes d where
  regular := hs
  real := hreal
  double negative := by rw [Spelling.double, hdigits, hscale]

end Spelling

section
variable {d : Decimal} {ds : List Char}

theorem isDigit_of_mem_replicate {k : Nat} {c : Char} (hc : c ∈ List.replicate k '0') :
    c.isDigit = true := by
  rw [(List.mem_replicate.mp hc).2]
  decide

/-- Zeros are put in between the digits and the point. -/
theorem denotes_whole (hds : Nat.toDigits 10 d.digits = ds) (hpos : 0 < d.digits)
    (hexponent : 0 ≤ d.exponent) (hshort : ds.length + d.exponent ≤ 16) :
    Spelling.Denotes ⟨ds ++ List.replicate d.exponent.toNat '0', ['0'], none⟩ d where
  regular.leading := by
    obtain ⟨c, cs, hcs, hc⟩ := toDigits_head hpos
    exact .inr ⟨c, cs ++ List.replicate d.exponent.toNat '0', by rw [← hds, hcs]; rfl, hc⟩
  regular.decimal := by
    intro c hc
    rcases List.mem_append.mp hc with hc | hc
    · rcases List.mem_append.mp hc with hc | hc
      · exact isDigit_of_mem_toDigits (hds ▸ hc)
      · exact isDigit_of_mem_replicate hc
    · exact isDigit_of_mem_replicate (k := 1) hc
  regular.short := by
    rw [List.length_append, List.length_append, List.length_replicate, maxSignificant]
    simp only [List.length_singleton]
    omega
  regular.moderate e he := nomatch he
  real := Spelling.integer?_of_fraction (List.cons_ne_nil _ _)
  double negative := by
    -- the zero after the point makes one more, which the exponent takes back
    have hvalue : Numeral.value ((ds ++ List.replicate d.exponent.toNat '0') ++ ['0']) =
        d.digits * 10 ^ (d.exponent.toNat + 1) := by
      rw [List.append_assoc, ← List.replicate_succ', value_append_zeros, ← hds,
        Numeral.value_toDigits]
    have hexp : (-1 : Int) + (d.exponent.toNat + 1 : Nat) = d.exponent := by omega
    rw [Spelling.double, Spelling.digits, hvalue]
    show ofDecimal negative _ (-1) = _
    rw [ofDecimal_mul_pow negative (Nat.ne_of_gt hpos) (by decide) (by omega), hexp]

/-- The point is put in between the digits. -/
theorem denotes_between (hds : Nat.toDigits 10 d.digits = ds) (hpos : 0 < d.digits)
    (hexponent : d.exponent < 0) (hpoint : 0 < ds.length + d.exponent) (hshort : ds.length ≤ 18) :
    Spelling.Denotes ⟨ds.take (ds.length + d.exponent).toNat,
      ds.drop (ds.length + d.exponent).toNat, none⟩ d := by
  obtain ⟨p, hp⟩ : ∃ p : Nat, ds.length + d.exponent = (p : Int) + 1 :=
    ⟨(ds.length + d.exponent - 1).toNat, by omega⟩
  rw [hp]
  show Spelling.Denotes ⟨ds.take (p + 1), ds.drop (p + 1), none⟩ d
  have hdrop : (ds.drop (p + 1)).length = ds.length - (p + 1) := List.length_drop
  refine Spelling.Regular.denotes ⟨?_, ?_, ?_, fun e he => absurd he (Option.not_mem_none e)⟩
    (Spelling.integer?_of_fraction ?_) ?_ ?_
  · obtain ⟨c, cs, hcs, hc⟩ := toDigits_head hpos
    refine .inr ⟨c, cs.take p, ?_, hc⟩
    rw [← hds, hcs]
    rfl
  · intro c hc
    rw [List.take_append_drop, ← hds] at hc
    exact isDigit_of_mem_toDigits hc
  · rw [List.take_append_drop, maxSignificant]
    omega
  · apply List.ne_nil_of_length_pos
    show 0 < (ds.drop (p + 1)).length
    omega
  · rw [Spelling.digits, List.take_append_drop, ← hds, Numeral.value_toDigits]
  · show -((ds.drop (p + 1)).length : Int) + 0 = d.exponent
    omega

/-- Zeros are put in between the point and the digits. -/
theorem denotes_below (hds : Nat.toDigits 10 d.digits = ds)
    (hpoint : ds.length + d.exponent ≤ 0) (hlow : -4 ≤ ds.length + d.exponent)
    (hshort : ds.length ≤ 18) :
    Spelling.Denotes ⟨['0'], List.replicate (-(ds.length + d.exponent)).toNat '0' ++ ds, none⟩
      d := by
  refine Spelling.Regular.denotes
    ⟨.inl rfl, ?_, ?_, fun e he => absurd he (Option.not_mem_none e)⟩ (Spelling.integer?_of_fraction ?_) ?_ ?_
  · intro c hc
    rcases List.mem_append.mp hc with hc | hc
    · exact isDigit_of_mem_replicate (k := 1) hc
    rcases List.mem_append.mp hc with hc | hc
    · exact isDigit_of_mem_replicate hc
    · exact isDigit_of_mem_toDigits (hds ▸ hc)
  · simp only [List.length_append, List.length_replicate, List.length_singleton, maxSignificant]
    omega
  · rw [← hds]
    exact List.append_ne_nil_of_right_ne_nil _ Nat.toDigits_ne_nil
  · show Numeral.value (List.replicate 1 '0' ++ (List.replicate _ '0' ++ ds)) = d.digits
    rw [value_zeros_append, value_zeros_append, ← hds, Numeral.value_toDigits]
  · show -((List.replicate _ '0' ++ ds).length : Int) + 0 = d.exponent
    rw [List.length_append, List.length_replicate]
    omega

/-- The point is put after the first digit, and the exponent is that of this digit. -/
theorem denotes_scientific (hds : Nat.toDigits 10 d.digits = ds) (hpos : 0 < d.digits)
    (hshort : ds.length ≤ 18) (hlow : -356 ≤ d.exponent) (hhigh : d.exponent ≤ 309) :
    Spelling.Denotes ⟨ds.take 1, ds.drop 1, some (ds.length - 1 + d.exponent)⟩ d := by
  obtain ⟨c, cs, hcs, hc⟩ := toDigits_head hpos
  rw [hds] at hcs
  refine Spelling.Regular.denotes ⟨?_, ?_, ?_, ?_⟩
    (Spelling.integer?_of_power (Option.some_ne_none _)) ?_ ?_
  · exact .inr ⟨c, [], by rw [hcs]; rfl, hc⟩
  · intro c hc
    rw [List.take_append_drop, ← hds] at hc
    exact isDigit_of_mem_toDigits hc
  · rw [List.take_append_drop, maxSignificant]
    omega
  · rintro e he
    cases he
    show _ ≤ 2 ^ 31 - 1
    omega
  · rw [Spelling.digits, List.take_append_drop, ← hds, Numeral.value_toDigits]
  · show -((ds.drop 1).length : Int) + (ds.length - 1 + d.exponent) = d.exponent
    rw [hcs]
    simp only [List.drop_succ_cons, List.drop_zero, List.length_cons]
    omega

/-! ## Texts -/

/-- In positional notation the digits are cut, or filled up with zeros, at the point. -/
theorem plain_denotes (hds : Nat.toDigits 10 d.digits = ds) (hpos : 0 < d.digits)
    (hshort : ds.length ≤ 18) (hlow : -4 ≤ ds.length + d.exponent)
    (hhigh : ds.length + d.exponent ≤ 16) :
    ∃ s : Spelling, s.Denotes d ∧ (FloatStyle.plain d).toList = s.chars := by
  have hne : ds ≠ [] := hds ▸ Nat.toDigits_ne_nil
  unfold FloatStyle.plain
  rw [hds]
  dsimp only
  by_cases hwhole : 0 ≤ d.exponent
  · refine ⟨_, denotes_whole hds hpos hwhole hhigh, ?_⟩
    rw [if_pos hwhole, Spelling.chars_of_fraction _ (List.cons_ne_nil _ _)]
    simp [FloatStyle.zeros]
  rw [if_neg hwhole]
  by_cases hpoint : 0 < ds.length + d.exponent
  · have hrest : ds.drop (ds.length + d.exponent).toNat ≠ [] := by
      rw [Ne, List.drop_eq_nil_iff]
      omega
    refine ⟨_, denotes_between hds hpos (Int.not_le.mp hwhole) hpoint hshort, ?_⟩
    rw [if_pos hpoint, Spelling.chars_of_fraction _ hrest]
    simp
  · have hpoint' := Int.not_lt.mp hpoint
    refine ⟨_, denotes_below hds hpoint' hlow hshort, ?_⟩
    rw [if_neg hpoint, Spelling.chars_of_fraction _ (List.append_ne_nil_of_right_ne_nil _ hne)]
    simp [FloatStyle.zeros]

theorem fractionChars_drop (ds : List Char) :
    (if ds.length ≤ 1 then "" else "." ++ String.ofList (ds.drop 1)).toList =
      Spelling.fractionChars (ds.drop 1) := by
  by_cases hone : ds.length ≤ 1
  · rw [if_pos hone, List.drop_eq_nil_of_le hone]
    rfl
  · have hrest : ds.drop 1 ≠ [] := by
      rw [Ne, List.drop_eq_nil_iff]
      exact hone
    rw [if_neg hone, Spelling.fractionChars_of_ne_nil hrest]
    simp

theorem scientific_denotes (hds : Nat.toDigits 10 d.digits = ds) (hpos : 0 < d.digits)
    (hshort : ds.length ≤ 18) (hlow : -356 ≤ d.exponent) (hhigh : d.exponent ≤ 309) :
    ∃ s : Spelling, s.Denotes d ∧
      (FloatStyle.scientific FloatStyle.json d).toList = s.chars := by
  have hsign : ∀ e : Int, (if e < 0 then "-" else FloatStyle.json.positiveSign).toList =
      [if e < 0 then '-' else '+'] := by
    intro e
    split <;> rfl
  refine ⟨_, denotes_scientific hds hpos hshort hlow hhigh, ?_⟩
  unfold FloatStyle.scientific
  rw [hds]
  simp only [String.toList_append, String.toList_ofList, fractionChars_drop, hsign,
    Spelling.chars, Spelling.powerChars, List.append_assoc]
  rfl

end

/-- A decimal in the notation of JSON is a spelling of it. -/
theorem exists_denotes {d : Decimal} (hpos : 0 < d.digits) (hdigits : d.digits ≤ 10 ^ 17)
    (hlow : -356 ≤ d.exponent) (hhigh : d.exponent ≤ 309) :
    ∃ s : Spelling, s.Denotes d ∧ (FloatStyle.json.decimal d).toList = s.chars := by
  have hshort : (Nat.toDigits 10 d.digits).length ≤ 18 :=
    (Nat.length_toDigits_le_iff (by decide) (by decide)).mpr
      (Nat.lt_of_le_of_lt hdigits (Nat.pow_lt_pow_right (by decide) (by decide)))
  unfold FloatStyle.decimal
  dsimp only
  split
  · rename_i hplain
    simp only [FloatStyle.json] at hplain
    exact plain_denotes rfl hpos hshort (by omega) (by omega)
  · exact scientific_denotes rfl hpos hshort hlow hhigh

theorem zero_spelling_regular : Spelling.Regular ⟨['0'], ['0'], none⟩ where
  leading := .inl rfl
  decimal _ hc := isDigit_of_mem_replicate (k := 2) hc
  short := by decide
  moderate := nofun

/-- The text after the sign is a spelling that is read as the double. -/
theorem exists_spelling_body {x : Binary64} (hx : x.magnitude < infinityBits) :
    ∃ s : Spelling, s.Regular ∧ (∀ negative, s.integer? negative = none) ∧
      s.double x.isNegative = x ∧
      (if x.isZero then "0.0" else FloatStyle.json.decimal (shortest .even x.magnitude)).toList =
        s.chars := by
  by_cases hzero : x.magnitude = 0
  · have hdouble : Spelling.double x.isNegative ⟨['0'], ['0'], none⟩ = x := by
      calc Spelling.double x.isNegative ⟨['0'], ['0'], none⟩
          = ofSign x.isNegative 0 := rfl
        _ = ofSign x.isNegative x.magnitude := by rw [hzero]
        _ = x := ofSign_magnitude x
    refine ⟨_, zero_spelling_regular, Spelling.integer?_of_fraction (List.cons_ne_nil _ _),
      hdouble, ?_⟩
    rw [isZero, decide_eq_true hzero, if_pos rfl]
    rfl
  · have hback := readsBack_shortest .even (Nat.pos_of_ne_zero hzero) hx
    -- only a zero is read from the digit zero
    have hpos : 0 < (shortest .even x.magnitude).digits := by
      refine Nat.pos_of_ne_zero fun hdigits => hzero ?_
      have hread := hback.read
      rw [ofDecimal, if_pos hdigits] at hread
      exact (ofSign_inj (by decide) (Nat.lt_trans hx infinityBits_lt) hread).symm
    obtain ⟨s, hs, htext⟩ := exists_denotes hpos hback.digits hback.low hback.high
    refine ⟨s, hs.regular, hs.real, ?_, ?_⟩
    · rw [hs.double, ofDecimal_sign _ (Nat.lt_trans hx infinityBits_lt) hback.read,
        ofSign_magnitude]
    · rw [isZero, decide_eq_false hzero]
      exact htext

/-- The text of a finite double is a minus sign where it is negative, and a spelling that is
read as this double. -/
theorem exists_spelling_text {x : Binary64} (hx : x.isFinite = true) :
    ∃ s : Spelling, s.Regular ∧ (∀ negative, s.integer? negative = none) ∧
      s.double x.isNegative = x ∧ (FloatStyle.json.text x).toList =
        if x.isNegative then '-' :: s.chars else s.chars := by
  have hfinite : x.magnitude < infinityBits := of_decide_eq_true hx
  have hnan : x.isNaN = false := decide_eq_false (Nat.not_lt.mpr (Nat.le_of_lt hfinite))
  have hinfinite : x.isInfinite = false := decide_eq_false (Nat.ne_of_lt hfinite)
  obtain ⟨s, hs, hreal, hdouble, htext⟩ := exists_spelling_body hfinite
  refine ⟨s, hs, hreal, hdouble, ?_⟩
  rw [FloatStyle.text, hnan, hinfinite, if_neg Bool.false_ne_true, if_neg Bool.false_ne_true]
  dsimp only
  rw [← htext]
  cases x.isNegative with
  | false => rfl
  | true => exact String.toList_append

end DynamicData.Json
