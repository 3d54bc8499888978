import DynamicData.Json.Parse
import DynamicData.Proofs.Json.Double
import DynamicData.Proofs.Json.Quoted
import DynamicData.Proofs.Tree

/-!
# What is written as JSON is read back

`Written budget word d` says that the reader takes `word` from the front of an input
and yields `d`, if nothing follows that could belong to a number. It holds of the texts
of scalars, and of a container if it holds of everything directly inside it.
-/

namespace DynamicData.Json

open DynamicData.Parser DynamicData.Text
open DynamicData.Numeral (isDigit_of_mem_toDigits)

/-- What a value may begin with: no blank, and nothing that would end a container. -/
def Begins : Bytes → Prop
  | [] => False
  | b :: _ => isBlank b = false ∧ b ≠ ']'.toUInt8 ∧ b ≠ '\x7d'.toUInt8

instance : DecidablePred Begins
  | [] => .isFalse id
  | b :: _ => inferInstanceAs
      (Decidable (isBlank b = false ∧ b ≠ ']'.toUInt8 ∧ b ≠ '\x7d'.toUInt8))

theorem begins_cons {b : UInt8} (tail : Bytes)
    (hb : isBlank b = false ∧ b ≠ ']'.toUInt8 ∧ b ≠ '\x7d'.toUInt8) : Begins (b :: tail) :=
  hb

theorem isBlank_of_isDigit {b : UInt8} (hb : isDigit b = true) : isBlank b = false := by
  cases hblank : isBlank b with
  | false => rfl
  | true =>
      simp only [isBlank, Bool.or_eq_true, decide_eq_true_eq] at hblank
      rcases hblank with ((rfl | rfl) | rfl) | rfl <;> exact absurd hb (by decide)

theorem begins_of_isDigit {b : UInt8} (hb : isDigit b = true) (tail : Bytes) :
    Begins (b :: tail) := by
  refine begins_cons tail ⟨isBlank_of_isDigit hb, ?_, ?_⟩
  · rintro rfl
    exact absurd hb (by decide)
  · rintro rfl
    exact absurd hb (by decide)

/-- The word is read as the document. -/
structure Written (budget : Nat) (word : Bytes) (d : Document) : Prop where
  begins : Begins word
  read : ∀ rest, Stops rest → value budget (word ++ rest) = .ok (d, rest)

/-! ## Scalars -/

/-- Where no part is read the budget does not matter. -/
theorem Written.of_valueWith {word : Bytes} {d : Document} (hbegins : Begins word)
    (hread : ∀ array object rest, Stops rest →
      valueWith array object (word ++ rest) = .ok (d, rest)) (budget : Nat) :
    Written budget word d where
  begins := hbegins
  read rest hrest := by
    cases budget with
    | zero => exact hread _ _ rest hrest
    | succ budget => exact hread _ _ rest hrest

theorem written_null (budget : Nat) : Written budget (encode "null") .null :=
  .of_valueWith (by decide) (fun _ _ _ _ => rfl) budget

theorem written_bool (b : Bool) (budget : Nat) :
    Written budget (encode (if b then "true" else "false")) (.bool b) := by
  cases b with
  | false => exact .of_valueWith (by decide) (fun _ _ _ _ => rfl) budget
  | true => exact .of_valueWith (by decide) (fun _ _ _ _ => rfl) budget

theorem written_string {word : Bytes} {s : String} (hword : StringForm word s.toList)
    (budget : Nat) : Written budget ('"'.toUInt8 :: word) (.text s) := by
  refine .of_valueWith (begins_cons _ (by decide)) (fun array object rest _ => ?_) budget
  have hopen : valueWith array object ('"'.toUInt8 :: (word ++ rest)) =
      (string >>= fun s => pure (.text s) : Reader Document) (word ++ rest) := rfl
  rw [List.cons_append]
  exact hopen.trans (bind_of_ok (hword.string rest))

theorem visit_digit {α : Type} (v : Visitor α) {b : UInt8} (hb : isDigit b = true)
    (tail : Bytes) : visit v (b :: tail) = v.number false (b :: tail) := by
  rw [visit, bind_of_ok (rest_apply _)]
  dsimp only
  rw [Opening.ofByte?, if_pos hb]

theorem valueWith_digit (array object : Reader Document) {b : UInt8} (hb : isDigit b = true)
    (tail : Bytes) :
    valueWith array object (b :: tail) =
      (number false >>= fun n => pure n.tree : Reader Document) (b :: tail) := by
  have hblank : ¬ isBlank b = true := by
    rw [isBlank_of_isDigit hb]
    decide
  rw [valueWith, blanks, bind_apply, modify_apply, skipBlanks, List.dropWhile_cons_of_neg hblank]
  exact visit_digit _ hb tail

theorem valueWith_minus (array object : Reader Document) (tail : Bytes) :
    valueWith array object ('-'.toUInt8 :: tail) =
      (number true >>= fun n => pure n.tree : Reader Document) tail := rfl

/-- A number is written with a minus sign where it is negative. -/
theorem written_number {negative : Bool} {s : Spelling} (hs : s.Regular) {n : Number}
    (hn : ∀ rest, Stops rest → number negative (ascii s.chars ++ rest) = .ok (n, rest))
    (budget : Nat) :
    Written budget (ascii (if negative then '-' :: s.chars else s.chars)) n.tree := by
  cases negative with
  | true =>
      refine .of_valueWith (begins_cons _ (by decide)) (fun array object rest hrest => ?_) budget
      show valueWith array object ('-'.toUInt8 :: (ascii s.chars ++ rest)) = _
      rw [valueWith_minus, bind_of_ok (hn rest hrest)]
      rfl
  | false =>
      obtain ⟨c, cs, hchars, hc⟩ := hs.exists_cons
      have hbegins : Begins (ascii s.chars) := by
        rw [hchars]
        exact begins_of_isDigit (isDigit_toUInt8 hc) _
      refine .of_valueWith hbegins (fun array object rest hrest => ?_) budget
      have hread := hn rest hrest
      rw [hchars] at hread
      show valueWith array object (ascii s.chars ++ rest) = _
      rw [hchars]
      show valueWith array object (c.toUInt8 :: (ascii cs ++ rest)) = _
      rw [valueWith_digit array object (isDigit_toUInt8 hc)]
      exact bind_of_ok hread

theorem encode_toDigits (n : Nat) :
    encode (String.ofList (Nat.toDigits 10 n)) = ascii (Nat.toDigits 10 n) :=
  encode_ascii fun _ hc => lt_of_isDigit (isDigit_of_mem_toDigits hc)

/-- An integer of 64 bits as it is written. -/
theorem written_toDigits (negative : Bool) {n : Nat} (hn : n ≤ 2 ^ 64) {i : Number}
    (hi : Number.ofInteger? negative n = some i) (budget : Nat) :
    Written budget (ascii (if negative then '-' :: Nat.toDigits 10 n else Nat.toDigits 10 n))
      i.tree := by
  have hshort : n < 10 ^ 20 := Nat.lt_of_le_of_lt hn (by decide)
  have hread := @number_toDigits negative n hshort i hi
  have hwritten := written_number (Spelling.regular_ofNat hshort)
    (fun rest hrest => by rw [Spelling.chars_ofNat]; exact hread hrest) budget
  rwa [Spelling.chars_ofNat] at hwritten

theorem written_uint (u : UInt64) (budget : Nat) :
    Written budget (encode (toString u.toNat)) (Tree.unsigned u) := by
  have hi : Number.ofInteger? false u.toNat = some (.unsigned u) := by
    rw [Number.ofInteger?, if_neg Bool.false_ne_true, if_pos u.toNat_lt, UInt64.ofNat_toNat]
  rw [Nat.toString_eq_ofList_toDigits, encode_toDigits]
  exact written_toDigits false (Nat.le_of_lt u.toNat_lt) hi budget

theorem unsigned_ofNat {i : Int64} (hi : 0 ≤ i.toInt) :
    (Tree.unsigned (UInt64.ofNat i.toInt.toNat) : Document) = .int i := by
  have hlt := i.toInt_lt
  have hnat : (UInt64.ofNat i.toInt.toNat).toNat = i.toInt.toNat :=
    UInt64.toNat_ofNat_of_lt' (by show _ < 2 ^ 64; omega)
  rw [Tree.unsigned, hnat, if_pos (by omega), ← Int64.ofInt_eq_ofNat, Int.toNat_of_nonneg hi,
    Int64.ofInt_toInt]

theorem written_int (i : Int64) (budget : Nat) :
    Written budget (encode (toString i.toInt)) (.int i) := by
  have hlow := i.le_toInt
  have hhigh := i.toInt_lt
  rw [Int.toString_eq_repr, Int.repr_eq_if]
  by_cases hsign : 0 ≤ i.toInt
  · -- from zero on it is written like an unsigned word
    have hnat : (UInt64.ofNat i.toInt.toNat).toNat = i.toInt.toNat :=
      UInt64.toNat_ofNat_of_lt' (by show _ < 2 ^ 64; omega)
    have hwritten := written_uint (UInt64.ofNat i.toInt.toNat) budget
    rw [unsigned_ofNat hsign, hnat] at hwritten
    rw [if_pos hsign]
    exact hwritten
  · have hi : Number.ofInteger? true (-i.toInt).toNat = some (.signed i) := by
      have hback : -((-i.toInt).toNat : Int) = i.toInt := by omega
      rw [Number.ofInteger?, if_pos rfl, if_pos (by omega), hback, Int64.ofInt_toInt]
    have hminus : encode "-" = ['-'.toUInt8] := by decide
    rw [if_neg hsign, encode_append, Nat.repr_eq_ofList_toDigits, encode_toDigits, hminus]
    exact written_toDigits true (by omega) hi budget

/-- A finite double comes back, any other is null. -/
theorem written_double (x : Binary64) (budget : Nat) :
    Written budget (encode (ofBinary64 x)) (if x.isFinite then .float x else .null) := by
  unfold ofBinary64
  by_cases hx : x.isFinite = true
  · obtain ⟨s, hs, hreal, hdouble, htext⟩ := exists_spelling_text hx
    have hinfinite : ¬ x.isInfinite = true := by
      intro h
      exact Nat.ne_of_lt (of_decide_eq_true hx) (of_decide_eq_true h)
    have hnumber : ∀ rest, Stops rest →
        number x.isNegative (ascii s.chars ++ rest) = .ok (.real x, rest) := by
      intro rest hrest
      rw [number_ascii hs x.isNegative hrest, hreal, hdouble]
      exact if_neg hinfinite
    have hascii : ∀ c ∈ (if x.isNegative then '-' :: s.chars else s.chars), c.toNat < 128 := by
      intro c hc
      split at hc
      · rcases List.mem_cons.mp hc with rfl | hc
        · decide
        · exact hs.lt_of_mem_chars hc
      · exact hs.lt_of_mem_chars hc
    rw [if_pos hx, if_pos hx, ← String.ofList_toList (s := FloatStyle.json.text x), htext,
      encode_ascii hascii]
    exact written_number hs hnumber budget
  · rw [if_neg hx, if_neg hx]
    exact written_null budget

end DynamicData.Json
