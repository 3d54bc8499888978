import DynamicData.Bytes.Basic

/-!
# Integers and their digits

Writing a number at a width that holds it and reading the digits gives the number
back, in either order of the digits and also for signed numbers. A magnitude is
written with as many digits as it takes.
-/

namespace DynamicData.Bytes

/-! ## Digits -/

theorem ofLittleEndian_toLittleEndian (width n : Nat) :
    ofLittleEndian (toLittleEndian width n) = n % 256 ^ width := by
  induction width generalizing n with
  | zero => rw [toLittleEndian, ofLittleEndian, Nat.pow_zero, Nat.mod_one]
  | succ width ih =>
      have hpow : 256 ^ (width + 1) = 256 * 256 ^ width := Nat.pow_succ'
      rw [toLittleEndian, ofLittleEndian, ih, UInt8.toNat_ofNat', hpow, Nat.mod_mul]

/-- The most significant digit comes first, so the last digit is added last. -/
theorem ofBigEndian_append_singleton (bytes : Bytes) (b : UInt8) :
    ofBigEndian (bytes ++ [b]) = 256 * ofBigEndian bytes + b.toNat := by
  unfold ofBigEndian
  rw [List.foldl_append, List.foldl_cons, List.foldl_nil]

theorem ofBigEndian_reverse (bytes : Bytes) :
    ofBigEndian bytes.reverse = ofLittleEndian bytes := by
  induction bytes with
  | nil => rfl
  | cons b rest ih =>
      rw [List.reverse_cons, ofBigEndian_append_singleton, ih, ofLittleEndian, Nat.add_comm]

theorem ofBigEndian_toBigEndian {width n : Nat} (h : n < 256 ^ width) :
    ofBigEndian (toBigEndian width n) = n := by
  rw [toBigEndian, ofBigEndian_reverse, ofLittleEndian_toLittleEndian, Nat.mod_eq_of_lt h]

theorem ofLittleEndian_lt (bytes : Bytes) : ofLittleEndian bytes < 256 ^ bytes.length := by
  induction bytes with
  | nil => exact Nat.one_pos
  | cons b rest ih =>
      have := b.toNat_lt
      rw [ofLittleEndian, List.length_cons, Nat.pow_succ]
      omega

theorem ofBigEndian_lt (bytes : Bytes) : ofBigEndian bytes < 256 ^ bytes.length := by
  have h := ofLittleEndian_lt bytes.reverse
  rwa [← ofBigEndian_reverse, List.reverse_reverse, List.length_reverse] at h

/-! ## Magnitudes -/

theorem lt_pow_digitCount (n : Nat) : n < 256 ^ digitCount n := by
  have hlog : n < 2 ^ (n.log2 + 1) := Nat.lt_log2_self
  have hle : n.log2 + 1 ≤ 8 * digitCount n := by
    unfold digitCount
    omega
  have hpow : (256 : Nat) ^ digitCount n = 2 ^ (8 * digitCount n) := by
    rw [Nat.pow_mul]
  rw [hpow]
  exact Nat.lt_of_lt_of_le hlog (Nat.pow_le_pow_right Nat.two_pos hle)

theorem ofLittleEndian_magnitude (n : Nat) : ofLittleEndian (magnitude n) = n := by
  rw [magnitude, ofLittleEndian_toLittleEndian, Nat.mod_eq_of_lt (lt_pow_digitCount n)]

theorem length_magnitude (n : Nat) : (magnitude n).length = digitCount n :=
  length_toLittleEndian _ n

theorem digitCount_le {n : Nat} (h : n ≤ 2 ^ 127) : digitCount n ≤ 16 := by
  have hlog : n.log2 ≤ 127 := by
    by_cases hn : n = 0
    · subst hn
      decide
    · have := (Nat.log2_lt hn).mpr (Nat.lt_of_le_of_lt h (by decide : 2 ^ 127 < 2 ^ 128))
      omega
  unfold digitCount
  omega

/-! ## Signed numbers -/

theorem toUnsigned_lt (bits : Nat) (i : Int) : toUnsigned bits i < 2 ^ bits := by
  have hpos : (0 : Int) < 2 ^ bits := Int.pow_pos (by decide)
  have hlt := Int.emod_lt_of_pos i hpos
  have hnonneg := Int.emod_nonneg i (Int.ne_of_gt hpos)
  unfold toUnsigned
  have hcast : ((2 ^ bits : Nat) : Int) = 2 ^ bits := Int.natCast_pow 2 bits
  omega

theorem toSigned_bounds {n : Nat} (h : n < 2 ^ 32) :
    -2 ^ 31 ≤ toSigned 32 n ∧ toSigned 32 n < 2 ^ 31 := by
  unfold toSigned
  split <;> omega

theorem toSigned_toUnsigned {i : Int} (hlow : -2 ^ 31 ≤ i) (hhigh : i < 2 ^ 31) :
    toSigned 32 (toUnsigned 32 i) = i := by
  unfold toSigned toUnsigned
  split <;> omega

end DynamicData.Bytes
