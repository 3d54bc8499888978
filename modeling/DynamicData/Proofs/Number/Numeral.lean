import DynamicData.Number.Numeral
import Mathlib.Data.List.Induction

/-!
# Numerals and their digits

The digits of a natural number are a numeral of it, and the only one that has no zero in
front of another digit. The text of an integer is therefore read back as the integer, as
signed always and as unsigned where it has no sign.
-/

namespace DynamicData.Numeral

/-! ## Single digits -/

theorem toNat_bounds_of_isDigit {c : Char} (hc : c.isDigit = true) :
    48 ≤ c.toNat ∧ c.toNat ≤ 57 := by
  rw [Char.isDigit, Bool.and_eq_true, decide_eq_true_eq, decide_eq_true_eq] at hc
  exact ⟨UInt32.le_iff_toNat_le.mp hc.1, UInt32.le_iff_toNat_le.mp hc.2⟩

theorem isDigit_of_mem_toDigits {n : Nat} {c : Char} (hc : c ∈ Nat.toDigits 10 n) :
    c.isDigit = true :=
  Nat.isDigit_of_mem_toDigits (by decide) (by decide) hc

theorem toDigits_digit {c : Char} (hc : c.isDigit = true) :
    Nat.toDigits 10 (c.toNat - 48) = [c] := by
  obtain ⟨hlow, hhigh⟩ := toNat_bounds_of_isDigit hc
  have hlt : c.toNat - 48 < 10 := by omega
  have hchar : Nat.digitChar (c.toNat - 48) = c := by
    apply Char.toNat_inj.mp
    rw [Nat.toNat_digitChar_of_lt_ten hlt]
    omega
  rw [Nat.toDigits_of_lt_base hlt, hchar]

/-! ## Values -/

theorem value_singleton (c : Char) : value [c] = c.toNat - 48 := by
  show 10 * 0 + (c.toNat - 48) = _
  omega

theorem value_append_singleton (cs : List Char) (c : Char) :
    value (cs ++ [c]) = 10 * value cs + (c.toNat - 48) := by
  rw [value, Nat.ofDigitChars_append]
  rfl

theorem value_zeros_append (k : Nat) (cs : List Char) :
    value (List.replicate k '0' ++ cs) = value cs := by
  rw [value, Nat.ofDigitChars_append, Nat.ofDigitChars_replicate_zero, Nat.mul_zero]
  rfl

theorem value_append_zeros (cs : List Char) (k : Nat) :
    value (cs ++ List.replicate k '0') = value cs * 10 ^ k := by
  rw [value, Nat.ofDigitChars_append, Nat.ofDigitChars_replicate_zero, Nat.mul_comm]
  rfl

/-- Further digits do not make a numeral smaller. -/
theorem value_le_value_append (cs ds : List Char) : value cs ≤ value (cs ++ ds) := by
  induction ds using List.reverseRecOn with
  | nil => exact Nat.le_of_eq (by rw [List.append_nil])
  | append_singleton ds d ih =>
      rw [← List.append_assoc, value_append_singleton]
      omega

/-- A numeral that starts with a digit other than zero is positive. -/
theorem value_pos {c : Char} (hc : c.isDigit = true) (hzero : c ≠ '0') (cs : List Char) :
    0 < value (c :: cs) := by
  induction cs using List.reverseRecOn with
  | nil =>
      have hne : c.toNat ≠ 48 := fun h => hzero (Char.toNat_inj.mp h)
      have hlow := (toNat_bounds_of_isDigit hc).1
      rw [value_singleton]
      omega
  | append_singleton cs d ih =>
      rw [← List.cons_append, value_append_singleton]
      omega

/-! ## The digits of a number -/

/-- A numeral that starts with zero only if it is the digit zero is what its value is written
as. -/
theorem toDigits_value {c : Char} {cs : List Char} (hdecimal : ∀ d ∈ c :: cs, d.isDigit = true)
    (hzero : c = '0' → cs = []) : Nat.toDigits 10 (value (c :: cs)) = c :: cs := by
  have hc := hdecimal c List.mem_cons_self
  induction cs using List.reverseRecOn with
  | nil => rw [value_singleton, toDigits_digit hc]
  | append_singleton cs d ih =>
      have hne : c ≠ '0' := fun h => List.append_ne_nil_of_right_ne_nil cs (by simp) (hzero h)
      have hd : d.isDigit = true := hdecimal d (by simp)
      have hlt : d.toNat - 48 < 10 := by
        have hhigh := (toNat_bounds_of_isDigit hd).2
        omega
      have hfront := ih (fun e he => hdecimal e (List.mem_append_left [d] he))
        fun h => absurd h hne
      rw [← List.cons_append, value_append_singleton,
        ← Nat.toDigits_append_toDigits (by decide) (value_pos hc hne cs) hlt, hfront,
        toDigits_digit hd]

/-- The digits of a natural number start with zero only if it is zero. -/
theorem toDigits_head {n : Nat} (hn : 0 < n) : ∃ c cs, Nat.toDigits 10 n = c :: cs ∧ c ≠ '0' := by
  induction n using Nat.strongRecOn with
  | ind n ih =>
      rw [Nat.toDigits_eq_if (by decide)]
      by_cases hlt : n < 10
      · have hdigit : ∀ k < 10, 0 < k → Nat.digitChar k ≠ '0' := by decide
        rw [if_pos hlt]
        exact ⟨_, [], rfl, hdigit n hlt hn⟩
      · obtain ⟨c, cs, hcs, hc⟩ := ih (n / 10) (by omega) (by omega)
        rw [if_neg hlt, hcs]
        exact ⟨c, _, rfl, hc⟩

/-! ## Texts of integers -/

theorem digits?_toDigits (n : Nat) : digits? (Nat.toDigits 10 n) = some n := by
  have hall : (Nat.toDigits 10 n).all Char.isDigit = true :=
    List.all_eq_true.mpr fun _ hc => isDigit_of_mem_toDigits hc
  rw [digits?, if_pos ⟨Nat.toDigits_ne_nil, hall⟩, value_toDigits]

/-- A digit is not a sign. -/
theorem ne_sign_of_toDigits {n : Nat} {c : Char} {cs : List Char}
    (hcs : Nat.toDigits 10 n = c :: cs) : c ≠ '-' ∧ c ≠ '+' := by
  have hc : c.isDigit = true := isDigit_of_mem_toDigits (n := n) (by rw [hcs]; simp)
  constructor <;> rintro rfl <;> exact absurd hc (by decide)

theorem splitSign_toDigits (n : Nat) :
    splitSign (Nat.toDigits 10 n) = (false, Nat.toDigits 10 n) := by
  obtain ⟨c, cs, hcs⟩ := List.exists_cons_of_ne_nil (Nat.toDigits_ne_nil (b := 10) (n := n))
  obtain ⟨hminus, hplus⟩ := ne_sign_of_toDigits hcs
  rw [hcs]
  unfold splitSign
  split
  · next heq => cases heq; exact absurd rfl hminus
  · next heq => cases heq; exact absurd rfl hplus
  · rfl

/-- The characters of an integer: its digits, after a minus sign if it is negative. -/
theorem toList_toString (i : Int) : (toString i).toList =
    if 0 ≤ i then Nat.toDigits 10 i.toNat else '-' :: Nat.toDigits 10 (-i).toNat := by
  rw [Int.toString_eq_repr, Int.repr_eq_if]
  split <;> simp

theorem signed?_toString (i : Int) : signed? (toString i) = some i := by
  unfold signed?
  rw [toList_toString]
  by_cases hi : 0 ≤ i
  · rw [if_pos hi, splitSign_toDigits]
    dsimp only
    rw [digits?_toDigits, Option.map_some, signed, if_neg Bool.false_ne_true,
      Int.toNat_of_nonneg hi]
  · rw [if_neg hi]
    show (digits? (Nat.toDigits 10 (-i).toNat)).map (signed true) = _
    rw [digits?_toDigits, Option.map_some, signed, if_pos rfl]
    congr 1
    omega

theorem unsigned?_toString (i : Int) :
    unsigned? (toString i) = if 0 ≤ i then some i.toNat else none := by
  unfold unsigned?
  rw [toList_toString]
  by_cases hi : 0 ≤ i
  · rw [if_pos hi, if_pos hi]
    obtain ⟨c, cs, hcs⟩ :=
      List.exists_cons_of_ne_nil (Nat.toDigits_ne_nil (b := 10) (n := i.toNat))
    have hplus := (ne_sign_of_toDigits hcs).2
    split
    · next heq => rw [hcs] at heq; cases heq; exact absurd rfl hplus
    · exact digits?_toDigits _
  · rw [if_neg hi, if_neg hi]
    rfl

end DynamicData.Numeral
