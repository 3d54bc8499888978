import DynamicData.Proofs.Number.Decimal
import Mathlib.Order.Monotone.Basic

/-!
# Numeric equality of doubles

Equality is decided on bit patterns: the same pattern, or a zero of either sign on both
sides, and no NaN. What it decides is equality of numbers. A finite double is a whole number
of units with a sign, larger patterns stand for more units, and the two infinities differ
from every finite double and from each other.
-/

namespace DynamicData.Binary64

/-- The number of units that a finite double stands for, with its sign. -/
def signedUnits (x : Binary64) : Int :=
  if x.isNegative then -x.units else x.units

/-- Two doubles are the same number: finite ones of the same value, or the same infinity. -/
inductive SameNumber (x y : Binary64) : Prop
  | finite (hx : x.isFinite = true) (hy : y.isFinite = true)
      (value : x.signedUnits = y.signedUnits)
  | infinite (hx : x.isInfinite = true) (hy : y.isInfinite = true)
      (sign : x.isNegative = y.isNegative)

/-! ## Patterns and their values -/

/-- A larger pattern stands for more units. -/
theorem unitsOf_strictMono : StrictMono unitsOf := by
  intro m m' hlt
  obtain ⟨s, c, rfl, hunits, hc, hs⟩ := exists_significand m
  obtain ⟨s', c', rfl, hunits', hc', hs'⟩ := exists_significand m'
  rw [hunits, hunits']
  rcases Nat.lt_trichotomy s s' with hexp | rfl | hexp
  · calc c * 2 ^ s < 2 ^ 53 * 2 ^ s := Nat.mul_lt_mul_of_pos_right hc (Nat.two_pow_pos s)
      _ = 2 ^ 52 * 2 ^ (s + 1) := by rw [Nat.pow_succ' (n := s), ← Nat.mul_assoc]
      _ ≤ c' * 2 ^ s' :=
          Nat.mul_le_mul (by omega) (Nat.pow_le_pow_right Nat.two_pos hexp)
  · exact Nat.mul_lt_mul_of_pos_right (by omega) (Nat.two_pow_pos s)
  · -- a larger exponent field comes with an implicit bit, and so with a larger pattern
    omega

theorem unitsOf_eq_zero {m : Nat} : unitsOf m = 0 ↔ m = 0 := by
  have hzero : unitsOf 0 = 0 := by decide
  rw [← hzero]
  exact unitsOf_strictMono.injective.eq_iff

/-- A double is its sign and its magnitude. -/
theorem ext_of_magnitude {x y : Binary64} (hsign : x.isNegative = y.isNegative)
    (hmagnitude : x.magnitude = y.magnitude) : x = y := by
  rw [← ofSign_magnitude x, ← ofSign_magnitude y, hsign, hmagnitude]

/-- Doubles of the same value are the same pattern or both zero. -/
theorem signedUnits_eq_iff {x y : Binary64} :
    x.signedUnits = y.signedUnits ↔ x = y ∨ x.isZero = true ∧ y.isZero = true := by
  have hx : x.units = 0 ↔ x.magnitude = 0 := unitsOf_eq_zero
  have hy : y.units = 0 ↔ y.magnitude = 0 := unitsOf_eq_zero
  simp only [isZero, decide_eq_true_eq]
  constructor
  · intro h
    by_cases hzero : x.units = 0
    · refine .inr ⟨hx.mp hzero, hy.mp ?_⟩
      unfold signedUnits at h
      split at h <;> split at h <;> omega
    · have hsign : x.isNegative = y.isNegative := by
        unfold signedUnits at h
        split at h <;> split at h <;> grind
      have hunits : x.units = y.units := by
        unfold signedUnits at h
        rw [hsign] at h
        split at h <;> omega
      exact .inl (ext_of_magnitude hsign (unitsOf_strictMono.injective hunits))
  · rintro (rfl | ⟨hx', hy'⟩)
    · rfl
    · unfold signedUnits
      rw [hx.mpr hx', hy.mpr hy']
      simp

/-! ## Equality -/

theorem isFinite_or_isInfinite {x : Binary64} (hx : x.isNaN = false) :
    x.isFinite = true ∨ x.isInfinite = true := by
  simp only [isNaN, isFinite, isInfinite, decide_eq_false_iff_not, decide_eq_true_eq] at *
  omega

/-- Equality of patterns, with the two zeros equal and no NaN, is equality of numbers. -/
theorem equals_iff {x y : Binary64} : x.equals y = true ↔ x.SameNumber y := by
  simp only [equals, Bool.and_eq_true, Bool.not_eq_true', Bool.or_eq_true, beq_iff_eq]
  constructor
  · rintro ⟨⟨hx, hy⟩, hxy⟩
    rcases isFinite_or_isInfinite hx with hfinite | hinfinite
    · refine .finite hfinite ?_ (signedUnits_eq_iff.mpr hxy)
      rcases hxy with rfl | ⟨-, hzero⟩
      · exact hfinite
      · simp only [isZero, isFinite, decide_eq_true_eq] at *
        rw [hzero]
        decide
    · rcases hxy with rfl | ⟨hzero, -⟩
      · exact .infinite hinfinite hinfinite rfl
      · simp only [isZero, isInfinite, decide_eq_true_eq] at *
        rw [hzero] at hinfinite
        cases hinfinite
  · rintro (⟨hx, hy, hvalue⟩ | ⟨hx, hy, hsign⟩)
    · simp only [isFinite, isNaN, decide_eq_true_eq, decide_eq_false_iff_not] at *
      exact ⟨⟨by omega, by omega⟩, signedUnits_eq_iff.mp hvalue⟩
    · simp only [isInfinite, isNaN, decide_eq_true_eq, decide_eq_false_iff_not] at *
      exact ⟨⟨by omega, by omega⟩, .inl (ext_of_magnitude hsign (hx.trans hy.symm))⟩

theorem SameNumber.symm {x y : Binary64} (h : x.SameNumber y) : y.SameNumber x := by
  rcases h with ⟨hx, hy, hvalue⟩ | ⟨hx, hy, hsign⟩
  · exact .finite hy hx hvalue.symm
  · exact .infinite hy hx hsign.symm

theorem SameNumber.trans {x y z : Binary64} (hxy : x.SameNumber y) (hyz : y.SameNumber z) :
    x.SameNumber z := by
  have disjoint : y.isFinite = true → y.isInfinite = true → False := by
    simp only [isFinite, isInfinite, decide_eq_true_eq]
    omega
  rcases hxy with ⟨hx, hy, hvalue⟩ | ⟨hx, hy, hsign⟩
  · rcases hyz with ⟨-, hz, hvalue'⟩ | ⟨hy', -, -⟩
    · exact .finite hx hz (hvalue.trans hvalue')
    · exact (disjoint hy hy').elim
  · rcases hyz with ⟨hy', -, -⟩ | ⟨-, hz, hsign'⟩
    · exact (disjoint hy' hy).elim
    · exact .infinite hx hz (hsign.trans hsign')

/-- Every double is equal to itself, except the NaNs. -/
theorem sameNumber_self {x : Binary64} : x.SameNumber x ↔ x.isNaN = false := by
  rw [← equals_iff]
  simp [equals]

end DynamicData.Binary64
