import DynamicData.Number.Binary64

/-!
# Rounding finds the double that is near

The pattern that a fraction is rounded to depends on its value alone. A fraction
whose relative distance from a finite double is at most `2 ^ (-54)` is rounded to
that double: half the distance to the next double is never less, and where it is
equal, just above a power of two, the tie goes to the power.
-/

namespace DynamicData.Binary64

/-! ## Quotients -/

theorem roundQuotient_mul_left {k : Nat} (hk : 0 < k) (num den : Nat) :
    roundQuotient (k * num) (k * den) = roundQuotient num den := by
  unfold roundQuotient
  dsimp only
  have hdiv : k * num / (k * den) = num / den := Nat.mul_div_mul_left _ _ hk
  have hmod : 2 * (k * num % (k * den)) = k * (2 * (num % den)) := by
    rw [Nat.mul_mod_mul_left, Nat.mul_left_comm]
  simp only [hdiv, hmod, Nat.mul_lt_mul_left hk, Nat.mul_right_inj (Nat.ne_of_gt hk)]

/-- A quotient is rounded to the number that is less than a half away. From a half
below it is rounded up to an even number. -/
theorem roundQuotient_eq {num den c : Nat}
    (hlow : 2 * (c * den) < 2 * num + den ∨ 2 * (c * den) = 2 * num + den ∧ c % 2 = 0)
    (hhigh : 2 * num < 2 * (c * den) + den) : roundQuotient num den = c := by
  have hden : 0 < den := by omega
  have hnum := Nat.div_add_mod num den
  have hr := Nat.mod_lt num hden
  unfold roundQuotient
  dsimp only
  generalize num / den = q at hnum ⊢
  generalize num % den = r at hnum hr ⊢
  rw [Nat.mul_comm] at hnum
  have hle : q ≤ c := by
    have : q * den < (c + 1) * den := by
      rw [Nat.add_mul]
      omega
    exact Nat.lt_succ_iff.mp (Nat.lt_of_mul_lt_mul_right this)
  have hge : c ≤ q + 1 := by
    have : c * den < (q + 2) * den := by
      rw [Nat.add_mul]
      omega
    exact Nat.lt_succ_iff.mp (Nat.lt_of_mul_lt_mul_right this)
  rcases Nat.lt_or_ge q c with hlt | hge'
  · -- Just below `c`: the remainder is half the divisor or more.
    obtain rfl : c = q + 1 := Nat.le_antisymm hge hlt
    rw [Nat.add_mul] at hlow hhigh
    rw [if_pos]
    omega
  · obtain rfl : c = q := Nat.le_antisymm hge' hle
    rw [if_neg]
    omega

/-! ## Fractions -/

theorem ofRatio_mul_left {k : Nat} (hk : 0 < k) (num den : Nat) :
    ofRatio (k * num) (k * den) = ofRatio num den := by
  unfold ofRatio
  dsimp only
  rw [Nat.mul_assoc, Nat.mul_div_mul_left _ _ hk, Nat.mul_assoc,
    roundQuotient_mul_left hk]

theorem ofRatio_le (num den : Nat) : ofRatio num den ≤ infinityBits :=
  Nat.min_le_right _ _

/-- The significand and the exponent of a pattern, and what they amount to. -/
theorem exists_significand (m : Nat) :
    ∃ s c, m = s * 2 ^ 52 + c ∧ unitsOf m = c * 2 ^ s ∧ c < 2 ^ 53 ∧ (s = 0 ∨ 2 ^ 52 ≤ c) := by
  unfold unitsOf
  dsimp only
  have hdiv := Nat.div_add_mod m (2 ^ 52)
  have hlt := Nat.mod_lt m (Nat.two_pow_pos 52)
  by_cases he : m / 2 ^ 52 = 0
  · rw [if_pos he]
    exact ⟨0, m % 2 ^ 52, by omega, (Nat.mul_one _).symm, by omega, .inl rfl⟩
  · rw [if_neg he]
    refine ⟨m / 2 ^ 52 - 1, 2 ^ 52 + m % 2 ^ 52, ?_, rfl, by omega, .inr (by omega)⟩
    omega

theorem log2_le_of_lt {n k : Nat} (hlt : n < 2 ^ (k + 1)) : n.log2 ≤ k := by
  by_cases hn : n = 0
  · subst hn
    exact Nat.zero_le k
  · exact Nat.lt_succ_iff.mp ((Nat.log2_lt hn).mpr hlt)

theorem log2_eq_of_le_of_lt {n k : Nat} (hle : 2 ^ k ≤ n) (hlt : n < 2 ^ (k + 1)) :
    n.log2 = k := by
  have hn : n ≠ 0 := Nat.ne_of_gt (Nat.lt_of_lt_of_le (Nat.two_pow_pos k) hle)
  exact Nat.le_antisymm (log2_le_of_lt hlt) ((Nat.le_log2 hn).mpr hle)

theorem ofRatio_eq {num den s c : Nat} (hshift : (num * one / den).log2 - 52 = s)
    (hround : roundQuotient (num * one) (den * 2 ^ s) = c)
    (hfinite : s * 2 ^ 52 + c < infinityBits) : ofRatio num den = s * 2 ^ 52 + c := by
  unfold ofRatio
  dsimp only
  rw [hshift, hround]
  exact Nat.min_eq_left (Nat.le_of_lt hfinite)

/-! ## Nearness

`c * x` is a significand `c` in steps of `x`, and `a` is near it. -/

section
variable {a x c : Nat}

/-- Less than half a step lies between them. -/
theorem near_half (hc : c < 2 ^ 53) (hx : 0 < x) (hlow : c * x * (2 ^ 54 - 1) ≤ a * 2 ^ 54)
    (hhigh : a * 2 ^ 54 ≤ c * x * (2 ^ 54 + 1)) :
    2 * (c * x) < 2 * a + x ∧ 2 * a < 2 * (c * x) + x := by
  have hle : c * x ≤ (2 ^ 53 - 1) * x := Nat.mul_le_mul_right x (Nat.le_pred_of_lt hc)
  generalize c * x = y at hle hlow hhigh ⊢
  omega

/-- Nothing near the largest significand leaves its binade. -/
theorem near_lt (hc : c < 2 ^ 53) (hx : 0 < x) (hhigh : a * 2 ^ 54 ≤ c * x * (2 ^ 54 + 1)) :
    a < 2 ^ 53 * x := by
  have hle : c * x ≤ (2 ^ 53 - 1) * x := Nat.mul_le_mul_right x (Nat.le_pred_of_lt hc)
  generalize c * x = y at hle hhigh
  omega

/-- Only near the smallest significand lies something below its binade. -/
theorem near_eq_of_lt (hlow : c * x * (2 ^ 54 - 1) ≤ a * 2 ^ 54)
    (hnormal : 2 ^ 52 ≤ c) (ha : a < 2 ^ 52 * x) : c = 2 ^ 52 := by
  refine Nat.le_antisymm (Nat.le_of_not_lt fun hgt => ?_) hnormal
  have hle : (2 ^ 52 + 1) * x ≤ c * x := Nat.mul_le_mul_right x hgt
  generalize c * x = y at hle hlow
  omega

/-- What lies below the smallest significand of a binade and near it is, in the steps
of the binade below, within half a step of that binade's end. -/
theorem near_below (hlow : 2 ^ 52 * (2 * x) * (2 ^ 54 - 1) ≤ a * 2 ^ 54)
    (ha : a < 2 ^ 52 * (2 * x)) : roundQuotient a x = 2 ^ 53 ∧ 2 ^ 52 * x ≤ a := by
  have hscaled : 2 ^ 54 * (2 * (2 ^ 53 * x)) ≤ 2 ^ 54 * (2 * a + x) := by omega
  have hhalf : 2 * (2 ^ 53 * x) ≤ 2 * a + x :=
    Nat.le_of_mul_le_mul_left hscaled (Nat.two_pow_pos 54)
  refine ⟨roundQuotient_eq ?_ ?_, ?_⟩
  · rcases Nat.lt_or_eq_of_le hhalf with hlt | heq
    · exact .inl hlt
    · exact .inr ⟨heq, by decide⟩
  · omega
  · omega

end

/-- A fraction that is near a double is rounded to it. -/
theorem ofRatio_of_near {m num den : Nat} (hm : m < infinityBits) (hden : 0 < den)
    (hlow : unitsOf m * den * (2 ^ 54 - 1) ≤ num * one * 2 ^ 54)
    (hhigh : num * one * 2 ^ 54 ≤ unitsOf m * den * (2 ^ 54 + 1)) : ofRatio num den = m := by
  obtain ⟨s, c, rfl, hunits, hc, hs⟩ := exists_significand m
  have hx : 0 < den * 2 ^ s := Nat.mul_pos hden (Nat.two_pow_pos s)
  have hmul : unitsOf (s * 2 ^ 52 + c) * den = c * (den * 2 ^ s) := by
    rw [hunits, Nat.mul_assoc, Nat.mul_comm den]
  rw [hmul] at hlow hhigh
  have hbinade : ∀ k s, 2 ^ k * (den * 2 ^ s) = 2 ^ (k + s) * den := by
    intro k s
    rw [Nat.mul_comm den, ← Nat.mul_assoc, ← Nat.pow_add]
  have hlt : num * one / den < 2 ^ (52 + s + 1) := by
    have := near_lt hc hx hhigh
    rw [hbinade] at this
    rw [Nat.div_lt_iff_lt_mul hden, Nat.add_right_comm]
    exact this
  by_cases hwithin : s = 0 ∨ 2 ^ (52 + s) ≤ num * one / den
  · obtain ⟨hdown, hup⟩ := near_half hc hx hlow hhigh
    refine ofRatio_eq ?_ (roundQuotient_eq (.inl hdown) hup) hm
    rcases hwithin with rfl | hle
    · exact Nat.sub_eq_zero_of_le (log2_le_of_lt hlt)
    · rw [log2_eq_of_le_of_lt hle hlt, Nat.add_sub_cancel_left]
  · -- The fraction is just below a power of two, where the steps are half as long.
    rw [not_or, Nat.not_le] at hwithin
    obtain ⟨hs0, hbelow⟩ := hwithin
    obtain ⟨s, rfl⟩ := Nat.exists_eq_add_one_of_ne_zero hs0
    have ha : num * one < 2 ^ 52 * (den * 2 ^ (s + 1)) := by
      rw [hbinade]
      exact (Nat.div_lt_iff_lt_mul hden).mp hbelow
    obtain rfl := near_eq_of_lt hlow (hs.resolve_left hs0) ha
    have hstep : den * 2 ^ (s + 1) = 2 * (den * 2 ^ s) := by
      rw [Nat.pow_succ, ← Nat.mul_assoc, Nat.mul_comm]
    rw [hstep] at hlow ha
    obtain ⟨hround, hle⟩ := near_below hlow ha
    rw [hbinade, ← Nat.le_div_iff_mul_le hden] at hle
    have hshift : (num * one / den).log2 - 52 = s := by
      rw [log2_eq_of_le_of_lt hle hbelow, Nat.add_sub_cancel_left]
    have hcarry : ∀ s, (s + 1) * 2 ^ 52 + 2 ^ 52 = s * 2 ^ 52 + 2 ^ 53 := by
      intro s
      omega
    rw [hcarry] at hm ⊢
    exact ofRatio_eq hshift hround hm

end DynamicData.Binary64
