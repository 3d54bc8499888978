import DynamicData.Bytes.Text
import Mathlib.Data.List.TakeDrop
import Mathlib.Data.List.TakeWhile

/-!
# Runs of characters and the bytes of a text

A reader splits a run of characters off a text. A text is encoded character by character.
Below 128 a character is the byte of its own code point, so texts of digits and punctuation
are spelled byte by byte.
-/

namespace DynamicData.Text

/-! ## Runs of characters -/

/-- A run ends at the first character that does not belong to it. -/
theorem span_run {p : Char → Bool} {run rest : List Char} (hrun : ∀ c ∈ run, p c = true)
    (hrest : ∀ c, rest.head? = some c → p c = false) : (run ++ rest).span p = (run, rest) := by
  have hstop : rest.takeWhile p = [] ∧ rest.dropWhile p = rest := by
    cases rest with
    | nil => exact ⟨rfl, rfl⟩
    | cons c rest => simp [hrest c rfl]
  rw [List.span_eq_takeWhile_dropWhile, List.takeWhile_append_of_pos hrun,
    List.dropWhile_append_of_pos hrun, hstop.1, hstop.2, List.append_nil]

theorem eq_append_of_span {p : Char → Bool} {cs run rest : List Char}
    (h : cs.span p = (run, rest)) : cs = run ++ rest ∧ ∀ c ∈ run, p c = true := by
  rw [List.span_eq_takeWhile_dropWhile] at h
  cases h
  exact ⟨(List.takeWhile_append_dropWhile).symm, fun _ hc => List.mem_takeWhile_imp hc⟩

theorem head_of_span {p : Char → Bool} {cs run rest : List Char}
    (h : cs.span p = (run, rest)) {c : Char} (hc : rest.head? = some c) : p c = false := by
  rw [List.span_eq_takeWhile_dropWhile] at h
  cases h
  obtain ⟨rest, hrest⟩ := List.head?_eq_some_iff.mp hc
  have hfails := List.head_dropWhile_not p (l := cs) (by simp [hrest])
  simpa only [hrest, List.head_cons] using hfails

/-! ## Characters as bytes -/

theorem encode_ofList (cs : List Char) :
    encode (String.ofList cs) = cs.flatMap String.utf8EncodeChar := by
  rw [encode, String.toByteArray_ofList, List.utf8Encode, List.data_toByteArray]

theorem encode_eq_flatMap (s : String) : encode s = s.toList.flatMap String.utf8EncodeChar := by
  rw [← encode_ofList, String.ofList_toList]

/-- Every character takes a byte at least. -/
theorem length_le_length_encode_ofList (cs : List Char) :
    cs.length ≤ (encode (String.ofList cs)).length := by
  rw [encode_ofList]
  induction cs with
  | nil => exact Nat.le_refl 0
  | cons c cs ih =>
      have hc := c.utf8Size_pos
      rw [List.flatMap_cons, List.length_append, String.length_utf8EncodeChar, List.length_cons]
      omega

theorem utf8EncodeChar_of_lt {c : Char} (hc : c.toNat < 128) :
    String.utf8EncodeChar c = [c.toUInt8] := by
  refine String.utf8EncodeChar_eq_singleton (Char.utf8Size_eq_one_iff.mpr ?_)
  rw [UInt32.le_iff_toNat_le]
  exact Nat.le_of_lt_succ hc

/-- Characters below 128, a byte each. -/
def ascii (cs : List Char) : Bytes :=
  cs.map Char.toUInt8

theorem encode_ascii {cs : List Char} (hcs : ∀ c ∈ cs, c.toNat < 128) :
    encode (String.ofList cs) = ascii cs := by
  rw [encode_ofList, ascii]
  induction cs with
  | nil => rfl
  | cons c cs ih =>
      rw [List.forall_mem_cons] at hcs
      rw [List.flatMap_cons, List.map_cons, utf8EncodeChar_of_lt hcs.1, ih hcs.2]
      rfl

/-- From 128 on no byte of a character is below 128. -/
theorem le_of_mem_utf8EncodeChar {c : Char} (hc : 128 ≤ c.toNat) {b : UInt8}
    (hb : b ∈ String.utf8EncodeChar c) : 128 ≤ b.toNat := by
  have hval : 127 < c.val.toNat := hc
  have hoffset : ∀ n k : Nat, 128 ≤ k → n + k < 256 → 128 ≤ (UInt8.ofNat (n + k)).toNat := by
    intro n k hk hlt
    rw [UInt8.toNat_ofNat', Nat.mod_eq_of_lt hlt]
    omega
  unfold String.utf8EncodeChar at hb
  rw [if_neg (Nat.not_le.mpr hval)] at hb
  split at hb
  · simp only [List.mem_cons, List.not_mem_nil, or_false] at hb
    rcases hb with rfl | rfl <;> exact hoffset _ _ (by decide) (by omega)
  split at hb
  · simp only [List.mem_cons, List.not_mem_nil, or_false] at hb
    rcases hb with rfl | rfl | rfl <;> exact hoffset _ _ (by decide) (by omega)
  · simp only [List.mem_cons, List.not_mem_nil, or_false] at hb
    rcases hb with rfl | rfl | rfl | rfl <;> exact hoffset _ _ (by decide) (by omega)

theorem ofUInt8_toUInt8 {c : Char} (hc : c.toNat < 256) : Char.ofUInt8 c.toUInt8 = c := by
  apply Char.toNat_inj.mp
  show c.toNat % 256 = c.toNat
  exact Nat.mod_eq_of_lt hc

/-! ## One byte per character -/

theorem toNat_ofNat_toNat (b : UInt8) : (Char.ofNat b.toNat).toNat = b.toNat := by
  have hvalid : b.toNat.isValidChar := .inl (Nat.lt_trans b.toNat_lt (by decide))
  rw [Char.ofNat, dif_pos hvalid]
  rfl

theorem utf8Size_ofNat_toNat_le (b : UInt8) : (Char.ofNat b.toNat).utf8Size ≤ 2 := by
  have hlt : (Char.ofNat b.toNat).toNat < 256 := by
    rw [toNat_ofNat_toNat]
    exact b.toNat_lt
  by_cases hone : (Char.ofNat b.toNat).val ≤ 127
  · rw [Char.utf8Size_eq_one_iff.mpr hone]
    exact Nat.le_succ 1
  · refine Nat.le_of_eq (Char.utf8Size_eq_two_iff.mpr ⟨UInt32.not_le.mp hone, ?_⟩)
    rw [UInt32.le_iff_toNat_le]
    exact Nat.le_of_lt (Nat.lt_trans hlt (by decide))

/-- A text of one byte per character takes at most twice as many bytes in UTF-8. -/
theorem length_encode_ofCodePoints_le (bytes : Bytes) :
    (encode (ofCodePoints bytes)).length ≤ 2 * bytes.length := by
  rw [ofCodePoints, encode_ofList]
  induction bytes with
  | nil => exact Nat.le_refl 0
  | cons b rest ih =>
      have := utf8Size_ofNat_toNat_le b
      rw [List.map_cons, List.flatMap_cons, List.length_append, String.length_utf8EncodeChar,
        List.length_cons]
      omega

theorem length_encode_replicate (n : Nat) (b : UInt8) :
    (encode (ofCodePoints (List.replicate n b))).length = n * (Char.ofNat b.toNat).utf8Size := by
  rw [ofCodePoints, encode_ofList, List.map_replicate, List.length_flatMap, List.map_replicate,
    List.sum_replicate_nat, String.length_utf8EncodeChar]

end DynamicData.Text
