import DynamicData.Number.Shortest
import DynamicData.Proofs.Number.Rounding

/-!
# Decimals as fractions

`ratio digits exponent` is `digits · 10 ^ exponent` as a fraction of naturals. Unless
its size alone decides, a decimal is read by rounding that fraction, so decimals of
equal value are read alike.
-/

namespace DynamicData.Binary64

/-- The numerator and the denominator of a decimal. -/
def ratio (digits : Nat) (exponent : Int) : Nat × Nat :=
  if 0 ≤ exponent then (digits * 10 ^ exponent.toNat, 1) else (digits, 10 ^ (-exponent).toNat)

theorem ratio_pos (digits : Nat) (exponent : Int) : 0 < (ratio digits exponent).2 := by
  unfold ratio
  split
  · exact Nat.one_pos
  · exact Nat.pow_pos (by decide)

/-- A decimal is read as its fraction where no shortcut applies. -/
theorem ofDecimal_eq_ofRatio (negative : Bool) {digits : Nat} {exponent : Int}
    (hdigits : digits ≠ 0) (hlarge : exponent ≤ 310)
    (hsmall : 3 * (-exponent) < digits.log2 + 1077) :
    ofDecimal negative digits exponent =
      ofSign negative (ofRatio (ratio digits exponent).1 (ratio digits exponent).2) := by
  unfold ofDecimal ratio
  rw [if_neg hdigits, if_neg (Int.not_lt.mpr hlarge), if_neg (Int.not_le.mpr hsmall)]
  by_cases hsign : 0 ≤ exponent
  · rw [if_pos hsign, if_pos hsign]
  · rw [if_neg hsign, if_neg hsign]

/-! ## Equal values -/

/-- Equal fractions are rounded alike. -/
theorem ofRatio_congr {num den num' den' : Nat} (hden : 0 < den) (hden' : 0 < den')
    (h : num * den' = num' * den) : ofRatio num den = ofRatio num' den' := by
  calc ofRatio num den = ofRatio (den' * num) (den' * den) := (ofRatio_mul_left hden' _ _).symm
    _ = ofRatio (den * num') (den * den') := by
      rw [Nat.mul_comm den' num, h, Nat.mul_comm num' den, Nat.mul_comm den' den]
    _ = ofRatio num' den' := ofRatio_mul_left hden _ _

/-- The value of the fraction, powers of ten on either side. -/
theorem ratio_mul {digits i j : Nat} {exponent : Int} (h : exponent = i - j) :
    (ratio digits exponent).1 * 10 ^ j = digits * 10 ^ i * (ratio digits exponent).2 := by
  unfold ratio
  by_cases hsign : 0 ≤ exponent
  · rw [if_pos hsign]
    have hi : i = exponent.toNat + j := by omega
    rw [hi, Nat.pow_add, Nat.mul_one, Nat.mul_assoc]
  · rw [if_neg hsign]
    have hj : j = i + (-exponent).toNat := by omega
    rw [hj, Nat.pow_add, Nat.mul_assoc]

/-- Zeros at the end of the digits can be moved to the exponent. -/
theorem ofRatio_ratio_mul_pow (digits k : Nat) (exponent : Int) :
    ofRatio (ratio (digits * 10 ^ k) exponent).1 (ratio (digits * 10 ^ k) exponent).2 =
      ofRatio (ratio digits (exponent + k)).1 (ratio digits (exponent + k)).2 := by
  apply ofRatio_congr (ratio_pos _ _) (ratio_pos _ _)
  obtain ⟨i, j, hij⟩ : ∃ i j : Nat, exponent = i - j :=
    ⟨exponent.toNat, (-exponent).toNat, by omega⟩
  have hleft := @ratio_mul (digits * 10 ^ k) i j exponent hij
  have hright := @ratio_mul digits (i + k) j (exponent + k) (by omega)
  have hpos : 0 < 10 ^ j := Nat.pow_pos (by decide)
  apply Nat.eq_of_mul_eq_mul_right hpos
  rw [Nat.pow_add, Nat.mul_comm (10 ^ i), ← Nat.mul_assoc] at hright
  calc _ = (ratio (digits * 10 ^ k) exponent).1 * 10 ^ j * (ratio digits (exponent + k)).2 := by
        rw [Nat.mul_right_comm]
    _ = (ratio digits (exponent + k)).1 * 10 ^ j * (ratio (digits * 10 ^ k) exponent).2 := by
        rw [hleft, hright, Nat.mul_right_comm]
    _ = _ := by rw [Nat.mul_right_comm]

/-- Zeros at the end of the digits do not change what is read, as long as no exponent
decides by its size. -/
theorem ofDecimal_mul_pow (negative : Bool) {digits k : Nat} {exponent : Int}
    (hdigits : digits ≠ 0) (hlow : -358 ≤ exponent) (hhigh : exponent + k ≤ 310) :
    ofDecimal negative (digits * 10 ^ k) exponent = ofDecimal negative digits (exponent + k) := by
  have hscaled : digits * 10 ^ k ≠ 0 :=
    Nat.mul_ne_zero hdigits (Nat.ne_of_gt (Nat.pow_pos (by decide)))
  rw [ofDecimal_eq_ofRatio negative hscaled (by omega) (by omega),
    ofDecimal_eq_ofRatio negative hdigits hhigh (by omega), ofRatio_ratio_mul_pow]

/-! ## Signs -/

theorem ofSign_inj {negative : Bool} {m m' : Nat} (hm : m < 2 ^ 63) (hm' : m' < 2 ^ 63)
    (h : ofSign negative m = ofSign negative m') : m = m' := by
  have hbits := congrArg (fun x => x.bits.toNat) h
  unfold ofSign at hbits
  cases negative <;> simp at hbits <;> omega

theorem infinityBits_lt : infinityBits < 2 ^ 63 := by decide

/-- The sign of a decimal goes to the double that it is read as. -/
theorem ofDecimal_sign (negative : Bool) {digits m : Nat} {exponent : Int} (hm : m < 2 ^ 63)
    (h : ofDecimal false digits exponent = ofSign false m) :
    ofDecimal negative digits exponent = ofSign negative m := by
  have hsome : ∃ m' ≤ infinityBits, ∀ sign, ofDecimal sign digits exponent = ofSign sign m' := by
    unfold ofDecimal
    refine ⟨_, ?_, fun sign => rfl⟩
    split
    · exact Nat.zero_le _
    split
    · exact Nat.le_refl _
    split
    · exact Nat.zero_le _
    split <;> exact ofRatio_le _ _
  obtain ⟨m', hm', hread⟩ := hsome
  rw [hread] at h ⊢
  rw [ofSign_inj (Nat.lt_of_le_of_lt hm' infinityBits_lt) hm h]

/-- A double is its sign and its magnitude. -/
theorem ofSign_magnitude (x : Binary64) : ofSign x.isNegative x.magnitude = x := by
  have hx := x.bits.toNat_lt
  have hbits : (if x.isNegative then 2 ^ 63 + x.magnitude else x.magnitude) = x.bits.toNat := by
    unfold isNegative magnitude
    by_cases hneg : 2 ^ 63 ≤ x.bits.toNat
    · rw [if_pos (decide_eq_true hneg)]
      omega
    · rw [if_neg (by simpa using hneg)]
      omega
  unfold ofSign
  rw [hbits, UInt64.ofNat_toNat]

end DynamicData.Binary64
