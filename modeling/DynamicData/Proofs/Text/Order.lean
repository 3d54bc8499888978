import DynamicData.Proofs.Text

/-!
# The order of texts is the order of their bytes

Texts are ordered character by character. Encoded in UTF-8 they are ordered in the same way
byte by byte: the first byte of a character tells how many bytes it has, more bytes begin
with a greater first byte, and characters of as many bytes differ first where their code
points do.
-/

namespace DynamicData.Text

/-! ## Single characters -/

/-- A number in a first byte, counted from `marker`, and so many further bytes of six bits
each. -/
def units (marker : Nat) : Nat → Nat → Bytes
  | 0, v => [UInt8.ofNat (v + marker)]
  | count + 1, v => units marker count (v / 64) ++ [UInt8.ofNat (v % 64 + 128)]

theorem ofNat_lt_ofNat {m n : Nat} (h : m < n) (hn : n < 256) :
    UInt8.ofNat m < UInt8.ofNat n := by
  rw [UInt8.lt_iff_toNat_lt, UInt8.toNat_ofNat', UInt8.toNat_ofNat', Nat.mod_eq_of_lt hn,
    Nat.mod_eq_of_lt (Nat.lt_trans h hn)]
  exact h

/-- Of two numbers in as many bytes the lesser one comes first, whatever follows. -/
theorem units_lt {marker count v w : Nat} (h : v < w) (hw : w / 64 ^ count + marker < 256)
    (l m : Bytes) : units marker count v ++ l < units marker count w ++ m := by
  induction count generalizing v w l m with
  | zero =>
      rw [Nat.pow_zero, Nat.div_one] at hw
      exact List.cons_lt_cons_iff.mpr (.inl (ofNat_lt_ofNat (by omega) hw))
  | succ count ih =>
      rw [Nat.pow_succ', ← Nat.div_div_eq_div_mul] at hw
      rw [units, units, List.append_assoc, List.append_assoc]
      have hle : v / 64 ≤ w / 64 := Nat.div_le_div_right (Nat.le_of_lt h)
      rcases Nat.lt_or_eq_of_le hle with hfront | hfront
      · exact ih hfront hw _ _
      · rw [hfront]
        refine List.append_left_lt (List.cons_lt_cons_iff.mpr (.inl ?_))
        exact ofNat_lt_ofNat (by omega) (by omega)

theorem units_eq_cons (marker count v : Nat) :
    ∃ rest, units marker count v = UInt8.ofNat (v / 64 ^ count + marker) :: rest := by
  induction count generalizing v with
  | zero => exact ⟨[], by rw [units, Nat.pow_zero, Nat.div_one]⟩
  | succ count ih =>
      obtain ⟨rest, hrest⟩ := ih (v / 64)
      refine ⟨rest ++ [UInt8.ofNat (v % 64 + 128)], ?_⟩
      rw [units, hrest, Nat.pow_succ', ← Nat.div_div_eq_div_mul, List.cons_append]

/-- How many bytes follow the first one. -/
def following (v : Nat) : Nat :=
  if v ≤ 127 then 0 else if v ≤ 2047 then 1 else if v ≤ 65535 then 2 else 3

/-- What the first byte is counted from. -/
def marker : Nat → Nat
  | 0 => 0
  | 1 => 192
  | 2 => 224
  | _ => 240

/-- The first byte of a code point. -/
def leading (v : Nat) : Nat :=
  v / 64 ^ following v + marker (following v)

/-- The first bytes for each count of further bytes lie in a range of their own. -/
theorem leading_cases (v : Nat) :
    v ≤ 127 ∧ following v = 0 ∧ leading v = v ∨
    127 < v ∧ v ≤ 2047 ∧ following v = 1 ∧ leading v = v / 64 + 192 ∨
    2047 < v ∧ v ≤ 65535 ∧ following v = 2 ∧ leading v = v / 4096 + 224 ∨
    65535 < v ∧ following v = 3 ∧ leading v = v / 262144 + 240 := by
  unfold leading following
  repeat' split
  all_goals
    simp only [marker, Nat.reducePow, Nat.div_one, Nat.add_zero, and_true]
    omega

theorem toNat_lt (c : Char) : c.toNat < 0x110000 := by
  have hvalid : c.toNat.isValidChar := c.valid
  unfold Nat.isValidChar at hvalid
  omega

theorem utf8EncodeChar_eq_units (c : Char) :
    String.utf8EncodeChar c = units (marker (following c.toNat)) (following c.toNat) c.toNat := by
  have hlt := toNat_lt c
  have hval : c.val.toNat = c.toNat := rfl
  unfold String.utf8EncodeChar
  rw [hval]
  generalize c.toNat = v at hlt
  dsimp only
  rcases leading_cases v with ⟨hv, hf, -⟩ | ⟨hlow, hv, hf, -⟩ | ⟨hlow, hv, hf, -⟩ | ⟨hlow, hf, -⟩
  · rw [hf, if_pos hv]
    rfl
  · rw [hf, if_neg (by omega), if_pos hv, Nat.mod_eq_of_lt (by omega : v / 64 < 32)]
    rfl
  · rw [hf, if_neg (by omega), if_neg (by omega), if_pos hv,
      ← Nat.div_div_eq_div_mul v 64 64, Nat.mod_eq_of_lt (by omega : v / 64 / 64 < 16)]
    rfl
  · rw [hf, if_neg (by omega), if_neg (by omega), if_neg (by omega),
      ← Nat.div_div_eq_div_mul v 4096 64, ← Nat.div_div_eq_div_mul v 64 64,
      Nat.mod_eq_of_lt (by omega : v / 64 / 64 / 64 < 8)]
    rfl

/-- The lesser of two characters has the bytes that come first, whatever follows. -/
theorem utf8EncodeChar_lt {c d : Char} (h : c < d) (l m : Bytes) :
    String.utf8EncodeChar c ++ l < String.utf8EncodeChar d ++ m := by
  have hcd : c.toNat < d.toNat := h
  have hlt := toNat_lt d
  have hc := leading_cases c.toNat
  have hd := leading_cases d.toNat
  rw [utf8EncodeChar_eq_units, utf8EncodeChar_eq_units]
  by_cases hsame : following c.toNat = following d.toNat
  · have hleading : leading d.toNat < 256 := by omega
    rw [hsame]
    exact units_lt hcd hleading l m
  · obtain ⟨l', hl⟩ := units_eq_cons (marker (following c.toNat)) (following c.toNat) c.toNat
    obtain ⟨m', hm⟩ := units_eq_cons (marker (following d.toNat)) (following d.toNat) d.toNat
    have hleading : leading c.toNat < leading d.toNat ∧ leading d.toNat < 256 := by omega
    rw [hl, hm]
    exact List.cons_lt_cons_iff.mpr (.inl (ofNat_lt_ofNat hleading.1 hleading.2))

/-! ## Texts -/

theorem flatMap_lt_of_lt {cs ds : List Char} (h : cs < ds) :
    cs.flatMap String.utf8EncodeChar < ds.flatMap String.utf8EncodeChar := by
  have hlex := List.lex_lt.mpr h
  clear h
  induction hlex with
  | @nil c ds =>
      obtain ⟨rest, hrest⟩ := units_eq_cons (marker (following c.toNat)) (following c.toNat) c.toNat
      rw [List.flatMap_cons, utf8EncodeChar_eq_units, hrest]
      exact List.nil_lt_cons _ _
  | rel hcd => exact utf8EncodeChar_lt hcd _ _
  | cons _ ih => exact List.append_left_lt ih

/-- Texts are in the order of their bytes. -/
theorem encode_lt_iff {s t : String} : encode s < encode t ↔ s < t := by
  have hlt : ∀ {s t : String}, s < t → encode s < encode t := by
    intro s t h
    rw [encode_eq_flatMap, encode_eq_flatMap]
    exact flatMap_lt_of_lt (String.lt_iff.mp h)
  refine ⟨fun h => ?_, hlt⟩
  by_contra hst
  by_cases hts : t < s
  · exact List.lt_asymm (hlt hts) h
  · obtain rfl := String.le_antisymm (String.not_lt.mp hts) (String.not_lt.mp hst)
    exact List.lt_irrefl _ h

end DynamicData.Text
