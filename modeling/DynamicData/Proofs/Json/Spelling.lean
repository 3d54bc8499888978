import Mathlib.Data.List.TakeDrop
import DynamicData.Json.Token
import DynamicData.Proofs.Number.Numeral
import DynamicData.Proofs.Parser
import DynamicData.Proofs.Text

/-!
# Numbers as they are written

A `Spelling` is the text of a number after its sign, cut where the reader cuts it. A
regular one that is followed by nothing which could belong to a number is taken whole
and read as the number that its digits and its power of ten denote.
-/

namespace DynamicData.Json

open DynamicData.Parser DynamicData.Text
open DynamicData.Numeral (toNat_bounds_of_isDigit isDigit_of_mem_toDigits toDigits_head)

/-- The digits on either side of the point and the power of ten. Where no digit comes
after the point the point is left out. -/
structure Spelling where
  whole : List Char
  fraction : List Char
  power : Option Int

namespace Spelling

/-- The point and the digits after it. -/
def fractionChars : List Char → List Char
  | [] => []
  | c :: cs => '.' :: c :: cs

/-- The exponent, always with its sign. -/
def powerChars : Option Int → List Char
  | none => []
  | some e => 'e' :: (if e < 0 then '-' else '+') :: Nat.toDigits 10 e.natAbs

def chars (s : Spelling) : List Char :=
  s.whole ++ (fractionChars s.fraction ++ powerChars s.power)

/-- All digits as one number. -/
def digits (s : Spelling) : Nat :=
  Numeral.value (s.whole ++ s.fraction)

/-- The power of ten by which the digits are scaled. -/
def scale (s : Spelling) : Int :=
  -s.fraction.length + s.power.getD 0

/-- What a JSON number has to look like for its digits to count one by one. -/
structure Regular (s : Spelling) : Prop where
  leading : s.whole = ['0'] ∨ ∃ c cs, s.whole = c :: cs ∧ c ≠ '0'
  decimal : ∀ c ∈ s.whole ++ s.fraction, c.isDigit = true
  short : (s.whole ++ s.fraction).length ≤ maxSignificant
  moderate : ∀ e ∈ s.power, e.natAbs ≤ maxExponent

/-- The integer that is written, if the form is that of an integer and 64 bits hold it. -/
def integer? (negative : Bool) (s : Spelling) : Option Number :=
  match s.fraction, s.power with
  | [], none => Number.ofInteger? negative s.digits
  | _, _ => none

/-- The nearest double to what is written. -/
def double (negative : Bool) (s : Spelling) : Binary64 :=
  Binary64.ofDecimal negative s.digits s.scale

end Spelling

/-! ## Digits -/

theorem isDigit_toUInt8 {c : Char} (hc : c.isDigit = true) : isDigit c.toUInt8 = true := by
  obtain ⟨hlow, hhigh⟩ := toNat_bounds_of_isDigit hc
  have hbyte : c.toUInt8.toNat = c.toNat :=
    Nat.mod_eq_of_lt (Nat.lt_of_le_of_lt hhigh (by decide))
  rw [isDigit, Bool.and_eq_true, decide_eq_true_eq, decide_eq_true_eq,
    UInt8.le_iff_toNat_le, UInt8.le_iff_toNat_le, hbyte]
  exact ⟨hlow, hhigh⟩

/-- No digit comes next. -/
def NoDigit : Bytes → Prop
  | [] => True
  | b :: _ => isDigit b = false

/-- Nothing that comes next could belong to a number. -/
def Stops : Bytes → Prop
  | [] => True
  | b :: _ =>
    isDigit b = false ∧ b ≠ '.'.toUInt8 ∧ ¬(b = 'e'.toUInt8 ∨ b = 'E'.toUInt8)

theorem Stops.noDigit {rest : Bytes} (hrest : Stops rest) : NoDigit rest := by
  cases rest with
  | nil => trivial
  | cons b rest => exact hrest.1

theorem digits_ascii {ds : List Char} (hds : ∀ c ∈ ds, c.isDigit = true) {rest : Bytes}
    (hrest : NoDigit rest) : digits (ascii ds ++ rest) = .ok (ds, rest) := by
  have hall : ∀ b ∈ ascii ds, isDigit b = true := by
    intro b hb
    obtain ⟨c, hc, rfl⟩ := List.mem_map.mp hb
    exact isDigit_toUInt8 (hds c hc)
  have hstop : rest.takeWhile isDigit = [] ∧ rest.dropWhile isDigit = rest := by
    cases rest with
    | nil => exact ⟨rfl, rfl⟩
    | cons b rest =>
        have hb : ¬ isDigit b = true := by
          rw [hrest]
          decide
        exact ⟨List.takeWhile_cons_of_neg hb, List.dropWhile_cons_of_neg hb⟩
  -- a digit is the character of its own byte
  have hback : (ascii ds).map Char.ofUInt8 = ds := by
    rw [ascii, List.map_map]
    refine (List.map_congr_left fun c hc => ?_).trans (List.map_id ds)
    exact ofUInt8_toUInt8 (Nat.lt_of_le_of_lt (toNat_bounds_of_isDigit (hds c hc)).2 (by decide))
  unfold digits
  rw [List.span_eq_takeWhile_dropWhile, List.takeWhile_append_of_pos hall,
    List.dropWhile_append_of_pos hall, hstop.1, hstop.2, List.append_nil]
  dsimp only
  rw [hback]

/-! ## The parts of a number -/

theorem noDigit_powerChars (power : Option Int) {rest : Bytes} (hrest : Stops rest) :
    NoDigit (ascii (Spelling.powerChars power) ++ rest) := by
  cases power with
  | none => exact hrest.noDigit
  | some e => exact rfl

theorem noDigit_fractionChars (fraction : List Char) (power : Option Int) {rest : Bytes}
    (hrest : Stops rest) :
    NoDigit (ascii (Spelling.fractionChars fraction) ++
      (ascii (Spelling.powerChars power) ++ rest)) := by
  cases fraction with
  | nil => exact noDigit_powerChars power hrest
  | cons c cs => exact rfl

theorem wholePart_ascii {whole : List Char}
    (hleading : whole = ['0'] ∨ ∃ c cs, whole = c :: cs ∧ c ≠ '0')
    (hwhole : ∀ c ∈ whole, c.isDigit = true) {rest : Bytes} (hrest : NoDigit rest) :
    wholePart (ascii whole ++ rest) = .ok (whole, rest) := by
  rcases hleading with rfl | ⟨c, cs, rfl, hc⟩
  · cases rest with
    | nil => rfl
    | cons b rest =>
        show (if isDigit b then _ else _) = _
        rw [if_neg (by rw [hrest]; decide)]
        rfl
  · have hdigit := hwhole c List.mem_cons_self
    have hbyte : c.toUInt8 ≠ '0'.toUInt8 := by
      intro heq
      have hback := congrArg Char.ofUInt8 heq
      rw [ofUInt8_toUInt8 (Nat.lt_of_le_of_lt (toNat_bounds_of_isDigit hdigit).2 (by decide))]
        at hback
      exact hc hback
    rw [ascii, List.map_cons, List.cons_append, wholePart.eq_def]
    dsimp only
    rw [if_neg hbyte, if_pos (isDigit_toUInt8 hdigit)]
    exact digits_ascii hwhole hrest

theorem fractionPart_ascii {fraction : List Char} (hfraction : ∀ c ∈ fraction, c.isDigit = true)
    (power : Option Int) {rest : Bytes} (hrest : Stops rest) :
    fractionPart (ascii (Spelling.fractionChars fraction) ++
      (ascii (Spelling.powerChars power) ++ rest)) =
      .ok (fraction, ascii (Spelling.powerChars power) ++ rest) := by
  cases fraction with
  | nil =>
      cases power with
      | none =>
          cases rest with
          | nil => rfl
          | cons b rest => exact if_neg hrest.2.1
      | some e => rfl
  | cons c cs =>
      have hread := digits_ascii hfraction (noDigit_powerChars power hrest)
      show fractionPart ('.'.toUInt8 :: (ascii (c :: cs) ++ _)) = _
      rw [fractionPart, if_pos rfl, hread]
      rfl

theorem exponentSign_ascii (e : Int) (rest : Bytes) :
    exponentSign ((if e < 0 then '-' else '+').toUInt8 :: rest) =
      .ok (decide (e < 0), rest) := by
  by_cases he : e < 0
  · rw [if_pos he, decide_eq_true he]
    rfl
  · rw [if_neg he, decide_eq_false he]
    rfl

theorem signed_natAbs (e : Int) : Numeral.signed (decide (e < 0)) e.natAbs = e := by
  unfold Numeral.signed
  by_cases he : e < 0
  · rw [if_pos (decide_eq_true he), Int.ofNat_natAbs_of_nonpos (Int.le_of_lt he), Int.neg_neg]
  · rw [if_neg (by simpa using he), Int.natAbs_of_nonneg (Int.not_lt.mp he)]

theorem exponentDigits_toDigits (n : Nat) {rest : Bytes} (hrest : NoDigit rest) :
    exponentDigits (ascii (Nat.toDigits 10 n) ++ rest) = .ok (Nat.toDigits 10 n, rest) := by
  have hread := digits_ascii (fun c => isDigit_of_mem_toDigits (n := n)) hrest
  cases hds : Nat.toDigits 10 n with
  | nil => exact absurd hds Nat.toDigits_ne_nil
  | cons c cs =>
      have hc : c.isDigit = true := isDigit_of_mem_toDigits (n := n) (by rw [hds]; simp)
      rw [hds] at hread
      rw [ascii, List.map_cons, List.cons_append, exponentDigits, if_pos (isDigit_toUInt8 hc)]
      exact hread

theorem exponentPart_ascii {power : Option Int} (hpower : ∀ e ∈ power, e.natAbs ≤ maxExponent)
    (isZero : Bool) {rest : Bytes} (hrest : Stops rest) :
    exponentPart isZero (ascii (Spelling.powerChars power) ++ rest) = .ok (power, rest) := by
  cases power with
  | none =>
      cases rest with
      | nil => rfl
      | cons b rest => exact if_neg hrest.2.2
  | some e =>
      -- no digit takes the exponent past its maximum
      have hmoderate : ¬(maxExponent < e.natAbs ∧ (!decide (e < 0)) = true ∧ (!isZero) = true) :=
        fun h => Nat.not_lt.mpr (hpower e rfl) h.1
      show exponentPart isZero ('e'.toUInt8 :: (if e < 0 then '-' else '+').toUInt8 ::
        (ascii (Nat.toDigits 10 e.natAbs) ++ rest)) = _
      rw [exponentPart, if_pos (Or.inl rfl), exponentSign_ascii]
      dsimp only [bind, Except.bind]
      rw [exponentDigits_toDigits _ hrest.noDigit]
      dsimp only
      rw [Numeral.value_toDigits, if_neg hmoderate, signed_natAbs]

/-! ## Whole numbers -/

theorem lt_of_isDigit {c : Char} (hc : c.isDigit = true) : c.toNat < 128 :=
  Nat.lt_of_le_of_lt (toNat_bounds_of_isDigit hc).2 (by decide)

/-- A number is written without any character beyond 127. -/
theorem Spelling.Regular.lt_of_mem_chars {s : Spelling} (hs : s.Regular) {c : Char}
    (hc : c ∈ s.chars) : c.toNat < 128 := by
  obtain ⟨whole, fraction, power⟩ := s
  have hdecimal := List.forall_mem_append.mp hs.decimal
  rcases List.mem_append.mp hc with hc | hc
  · exact lt_of_isDigit (hdecimal.1 c hc)
  rcases List.mem_append.mp hc with hc | hc
  · cases fraction with
    | nil => exact absurd hc List.not_mem_nil
    | cons d ds =>
        rcases List.mem_cons.mp hc with rfl | hc
        · decide
        · exact lt_of_isDigit (hdecimal.2 c hc)
  · cases power with
    | none => exact absurd hc List.not_mem_nil
    | some e =>
        rcases List.mem_cons.mp hc with rfl | hc
        · decide
        rcases List.mem_cons.mp hc with rfl | hc
        · split <;> decide
        · exact lt_of_isDigit (isDigit_of_mem_toDigits hc)

/-- A number begins with a digit. -/
theorem Spelling.Regular.exists_cons {s : Spelling} (hs : s.Regular) :
    ∃ c cs, s.chars = c :: cs ∧ c.isDigit = true := by
  obtain ⟨whole, fraction, power⟩ := s
  have hwhole : ∃ c cs, whole = c :: cs := by
    rcases hs.leading with h | ⟨c, cs, h, _⟩
    · exact ⟨'0', [], h⟩
    · exact ⟨c, cs, h⟩
  obtain ⟨c, cs, rfl⟩ := hwhole
  exact ⟨c, _, rfl, hs.decimal c List.mem_cons_self⟩

/-- A regular spelling is taken whole. What it is read as depends on its form. -/
theorem number_ascii {s : Spelling} (hs : s.Regular) (negative : Bool) {rest : Bytes}
    (hrest : Stops rest) :
    number negative (ascii s.chars ++ rest) =
      match s.integer? negative with
      | some i => .ok (i, rest)
      | none =>
        if (s.double negative).isInfinite then .error ⟨.numberOutOfRange, rest.length⟩
        else .ok (.real (s.double negative), rest) := by
  obtain ⟨whole, fraction, power⟩ := s
  have hdecimal := List.forall_mem_append.mp hs.decimal
  have hwhole := wholePart_ascii hs.leading hdecimal.1 (noDigit_fractionChars fraction power hrest)
  have hfraction := fractionPart_ascii hdecimal.2 power hrest
  have hsplit : ascii (Spelling.chars ⟨whole, fraction, power⟩) ++ rest =
      ascii whole ++ (ascii (Spelling.fractionChars fraction) ++
        (ascii (Spelling.powerChars power) ++ rest)) := by
    simp only [Spelling.chars, ascii, List.map_append, List.append_assoc]
  rw [hsplit, number, bind_of_ok hwhole, bind_of_ok hfraction, significand, if_pos hs.short]
  dsimp only
  rw [bind_of_ok (exponentPart_ascii hs.moderate _ hrest)]
  have hreal : ∀ x : Binary64,
      (if x.isInfinite then failHere .numberOutOfRange else return .real x : Reader Number) rest =
        if x.isInfinite then .error ⟨.numberOutOfRange, rest.length⟩ else .ok (.real x, rest) := by
    intro x
    split <;> rfl
  -- what is done with the parts depends on which of them are there
  cases fraction with
  | cons c cs => exact hreal _
  | nil =>
      cases power with
      | some e => exact hreal _
      | none =>
          have hinteger : Spelling.integer? negative ⟨whole, [], none⟩ =
              Number.ofInteger? negative (Numeral.value (whole ++ [])) := rfl
          rw [hinteger]
          cases Number.ofInteger? negative (Numeral.value (whole ++ [])) with
          | some i => rfl
          | none => exact hreal _

/-! ## Naturals -/

theorem leading_toDigits (n : Nat) :
    Nat.toDigits 10 n = ['0'] ∨ ∃ c cs, Nat.toDigits 10 n = c :: cs ∧ c ≠ '0' := by
  rcases Nat.eq_zero_or_pos n with rfl | hn
  · exact .inl (by decide)
  · exact .inr (toDigits_head hn)

/-- A natural number as it is written. -/
def Spelling.ofNat (n : Nat) : Spelling :=
  ⟨Nat.toDigits 10 n, [], none⟩

theorem Spelling.chars_ofNat (n : Nat) : (ofNat n).chars = Nat.toDigits 10 n :=
  List.append_nil _

theorem Spelling.regular_ofNat {n : Nat} (hn : n < 10 ^ 20) : (ofNat n).Regular where
  leading := leading_toDigits n
  decimal c hc := isDigit_of_mem_toDigits (by simpa [ofNat] using hc)
  short := by
    have hlength := (Nat.length_toDigits_le_iff (by decide) (by decide)).mpr hn
    rw [ofNat, List.append_nil]
    exact Nat.le_trans hlength (by decide)
  moderate e he := nomatch he

theorem Spelling.integer?_ofNat (negative : Bool) (n : Nat) :
    (ofNat n).integer? negative = Number.ofInteger? negative n := by
  have hvalue : (ofNat n).digits = n := by
    rw [digits, ofNat, List.append_nil, Numeral.value_toDigits]
  show Number.ofInteger? negative (ofNat n).digits = _
  rw [hvalue]

/-- An integer of 64 bits is read as itself. -/
theorem number_toDigits {negative : Bool} {n : Nat} (hn : n < 10 ^ 20) {i : Number}
    (hi : Number.ofInteger? negative n = some i) {rest : Bytes} (hrest : Stops rest) :
    number negative (ascii (Nat.toDigits 10 n) ++ rest) = .ok (i, rest) := by
  have hread := number_ascii (Spelling.regular_ofNat hn) negative hrest
  rw [Spelling.chars_ofNat, Spelling.integer?_ofNat, hi] at hread
  exact hread

end DynamicData.Json
