import DynamicData.Json.Print
import DynamicData.Json.Token
import DynamicData.Proofs.Parser
import DynamicData.Proofs.Text

/-!
# Texts of strings

A character stands in a string as itself or as an escape: one letter, a code of four
hexadecimal digits, or two such codes for its two surrogates. `CharForm` lists these ways. In
each of them the reader of strings adds the bytes of the character to what it has, so a text
is read from all its spellings, of which the quoted form is one.
-/

namespace DynamicData.Json

open DynamicData.Parser DynamicData.Text

/-! ## The grammar -/

/-- The bytes stand for the character between quotes. -/
inductive CharForm : Bytes → Char → Prop
  | plain {c : Char} (notQuote : c ≠ '"') (notBackslash : c ≠ '\\')
      (notControl : 0x20 ≤ c.toNat) : CharForm (String.utf8EncodeChar c) c
  | letter {e : Char × Char} (listed : e ∈ letterEscapes) :
      CharForm ['\\'.toUInt8, e.1.toUInt8] e.2
  | code {b₁ b₂ b₃ b₄ : UInt8} {c : Char} (digits : ofHex? b₁ b₂ b₃ b₄ = some c.toNat) :
      CharForm ['\\'.toUInt8, 'u'.toUInt8, b₁, b₂, b₃, b₄] c
  | pair {b₁ b₂ b₃ b₄ d₁ d₂ d₃ d₄ : UInt8} {high low : Nat} {c : Char}
      (digits : ofHex? b₁ b₂ b₃ b₄ = some high) (digits' : ofHex? d₁ d₂ d₃ d₄ = some low)
      (isHigh : 0xD800 ≤ high ∧ high < 0xDC00) (isLow : 0xDC00 ≤ low ∧ low ≤ 0xDFFF)
      (value : c.toNat = 0x10000 + (high - 0xD800) * 0x400 + (low - 0xDC00)) :
      CharForm ['\\'.toUInt8, 'u'.toUInt8, b₁, b₂, b₃, b₄, '\\'.toUInt8, 'u'.toUInt8,
        d₁, d₂, d₃, d₄] c

/-- The bytes stand for the characters, up to and with the closing quote. -/
inductive StringForm : Bytes → List Char → Prop
  | close : StringForm ['"'.toUInt8] []
  | cons {word words : Bytes} {c : Char} {cs : List Char} (head : CharForm word c)
      (tail : StringForm words cs) : StringForm (word ++ words) (c :: cs)

/-- The bytes that stand for a character in a string. -/
def escaped (c : Char) : Bytes :=
  encode (escapeChar c)

/-! ## Escapes -/

theorem hexCode_of_ofHex {b₁ b₂ b₃ b₄ : UInt8} {n : Nat} (h : ofHex? b₁ b₂ b₃ b₄ = some n)
    (rest : Bytes) : hexCode (b₁ :: b₂ :: b₃ :: b₄ :: rest) = .ok (n, rest) := by
  rw [hexCode, h]

theorem toNat_ne_surrogate (c : Char) : c.toNat < 0xD800 ∨ 0xDFFF < c.toNat :=
  c.valid.imp_right And.left

theorem escape_code {b₁ b₂ b₃ b₄ : UInt8} {c : Char} (h : ofHex? b₁ b₂ b₃ b₄ = some c.toNat)
    (rest : Bytes) :
    escape ('u'.toUInt8 :: b₁ :: b₂ :: b₃ :: b₄ :: rest) = .ok (c, rest) := by
  rw [escape, if_pos rfl, unicodeEscape, bind_of_ok (hexCode_of_ofHex h rest)]
  rw [if_pos (toNat_ne_surrogate c), Char.ofNat_toNat]
  rfl

theorem escape_pair {b₁ b₂ b₃ b₄ d₁ d₂ d₃ d₄ : UInt8} {high low : Nat} {c : Char}
    (hhigh : ofHex? b₁ b₂ b₃ b₄ = some high) (hlow : ofHex? d₁ d₂ d₃ d₄ = some low)
    (isHigh : 0xD800 ≤ high ∧ high < 0xDC00) (isLow : 0xDC00 ≤ low ∧ low ≤ 0xDFFF)
    (hc : c.toNat = 0x10000 + (high - 0xD800) * 0x400 + (low - 0xDC00)) (rest : Bytes) :
    escape ('u'.toUInt8 :: b₁ :: b₂ :: b₃ :: b₄ :: '\\'.toUInt8 :: 'u'.toUInt8 ::
      d₁ :: d₂ :: d₃ :: d₄ :: rest) = .ok (c, rest) := by
  have hpair : ∀ c input, pairByte c (c.toUInt8 :: input) = .ok ((), input) :=
    fun c input => if_pos rfl
  rw [escape, if_pos rfl, unicodeEscape, bind_of_ok (hexCode_of_ofHex hhigh _),
    if_neg (by omega), if_neg (by omega)]
  dsimp only
  rw [bind_of_ok (hpair '\\' _), bind_of_ok (hpair 'u' _), bind_of_ok (hexCode_of_ofHex hlow rest),
    if_neg (by omega), ← hc, Char.ofNat_toNat]
  rfl

/-- A control character without an escape of its own is written as its code. -/
theorem ofHex_control : ∀ n < 0x20, ofHex? '0'.toUInt8 '0'.toUInt8
    (Nat.digitChar (n / 16)).toUInt8 (Nat.digitChar (n % 16)).toUInt8 = some n := by
  decide

theorem encode_control : ∀ n < 0x20,
    encode ("\\u00" ++ (if n < 0x10 then "0" else "") ++ String.ofList (Nat.toDigits 16 n)) =
      '\\'.toUInt8 :: 'u'.toUInt8 :: '0'.toUInt8 :: '0'.toUInt8 ::
        (Nat.digitChar (n / 16)).toUInt8 :: (Nat.digitChar (n % 16)).toUInt8 :: [] := by
  decide

/-- The escapes of one letter that are written. A slash needs none. -/
def writtenEscapes : List (Char × Char) :=
  letterEscapes.filter fun e => e.1 ≠ '/'

theorem encode_letter : ∀ e ∈ writtenEscapes, escaped e.2 = ['\\'.toUInt8, e.1.toUInt8] := by
  decide

theorem escape_letter : ∀ e ∈ letterEscapes, ∀ rest,
    escape (e.1.toUInt8 :: rest) = .ok (e.2, rest) := by
  simp only [letterEscapes, List.forall_mem_cons]
  exact ⟨fun _ => rfl, fun _ => rfl, fun _ => rfl, fun _ => rfl, fun _ => rfl, fun _ => rfl,
    fun _ => rfl, fun _ => rfl, fun _ he => nomatch he⟩

theorem escapeChar_of_forall_ne {c : Char} (hc : ∀ e ∈ writtenEscapes, c ≠ e.2) :
    escapeChar c = if c.toNat < 0x20 then
        "\\u00" ++ (if c.toNat < 0x10 then "0" else "") ++ String.ofList (Nat.toDigits 16 c.toNat)
      else c.toString := by
  have hne : ∀ a b, (a, b) ∈ writtenEscapes → c ≠ b := fun a b he => hc (a, b) he
  rw [escapeChar, if_neg (hne '"' '"' (by decide)), if_neg (hne '\\' '\\' (by decide)),
    if_neg (hne 'b' '\x08' (by decide)), if_neg (hne 'f' '\x0c' (by decide)),
    if_neg (hne 'n' '\n' (by decide)), if_neg (hne 'r' '\r' (by decide)),
    if_neg (hne 't' '\t' (by decide))]

/-- A character is written in one of its forms. -/
theorem charForm_escaped (c : Char) : CharForm (escaped c) c := by
  by_cases hletter : ∃ e ∈ writtenEscapes, c = e.2
  · obtain ⟨e, he, rfl⟩ := hletter
    rw [encode_letter e he]
    exact .letter (List.mem_filter.mp he).1
  have hne : ∀ e ∈ writtenEscapes, c ≠ e.2 := fun e he heq => hletter ⟨e, he, heq⟩
  rw [escaped, escapeChar_of_forall_ne hne]
  by_cases hcontrol : c.toNat < 0x20
  · rw [if_pos hcontrol, encode_control c.toNat hcontrol]
    exact .code (ofHex_control c.toNat hcontrol)
  · have hself : encode c.toString = String.utf8EncodeChar c := by
      rw [Char.toString, encode_eq_flatMap, String.toList_singleton]
      exact List.append_nil _
    rw [if_neg hcontrol, hself]
    exact .plain (hne ('"', '"') (by decide)) (hne ('\\', '\\') (by decide))
      (Nat.le_of_not_lt hcontrol)

/-- Either an escape is read as the character, or the character stands for itself. -/
theorem CharForm.cases {word : Bytes} {c : Char} (h : CharForm word c) :
    (∃ tail, word = '\\'.toUInt8 :: tail ∧ ∀ rest, escape (tail ++ rest) = .ok (c, rest)) ∨
      word = String.utf8EncodeChar c ∧ c ≠ '"' ∧ c ≠ '\\' ∧ 0x20 ≤ c.toNat := by
  cases h with
  | plain notQuote notBackslash notControl =>
      exact .inr ⟨rfl, notQuote, notBackslash, notControl⟩
  | letter listed => exact .inl ⟨_, rfl, escape_letter _ listed⟩
  | code digits => exact .inl ⟨_, rfl, escape_code digits⟩
  | pair digits digits' isHigh isLow value =>
      exact .inl ⟨_, rfl, escape_pair digits digits' isHigh isLow value⟩

/-! ## Bytes of a string -/

/-- A byte that is taken as it is. -/
def Plain (b : UInt8) : Prop :=
  b ≠ '"'.toUInt8 ∧ b ≠ '\\'.toUInt8 ∧ ¬ b < 0x20

theorem plain_of_mem {c : Char} (hquote : c ≠ '"') (hbackslash : c ≠ '\\')
    (hcontrol : 0x20 ≤ c.toNat) {b : UInt8} (hb : b ∈ String.utf8EncodeChar c) : Plain b := by
  by_cases hc : c.toNat < 128
  · rw [utf8EncodeChar_of_lt hc, List.mem_singleton] at hb
    subst hb
    have hback := ofUInt8_toUInt8 (Nat.lt_trans hc (by decide))
    refine ⟨fun h => hquote ?_, fun h => hbackslash ?_, fun h => ?_⟩
    · rw [← hback, h]
      rfl
    · rw [← hback, h]
      rfl
    · have hbyte : c.toUInt8.toNat = c.toNat := Nat.mod_eq_of_lt (Nat.lt_trans hc (by decide))
      rw [UInt8.lt_iff_toNat_lt, hbyte] at h
      exact Nat.not_lt.mpr hcontrol h
  · have hhigh := le_of_mem_utf8EncodeChar (Nat.le_of_not_lt hc) hb
    refine ⟨?_, ?_, fun h => ?_⟩
    · rintro rfl
      exact absurd hhigh (by decide)
    · rintro rfl
      exact absurd hhigh (by decide)
    · rw [UInt8.lt_iff_toNat_lt] at h
      exact absurd (Nat.lt_of_le_of_lt hhigh h) (by decide)

theorem stringBytes_plain {bs : Bytes} (hbs : ∀ b ∈ bs, Plain b) {fuel : Bytes}
    (hfuel : bs.length ≤ fuel.length) (done rest : Bytes) :
    stringBytes fuel done (bs ++ rest) =
      stringBytes (fuel.drop bs.length) (bs.reverse ++ done) rest := by
  induction bs generalizing fuel done with
  | nil => rfl
  | cons b bs ih =>
      cases fuel with
      | nil => exact absurd hfuel (Nat.not_succ_le_zero _)
      | cons f fuel =>
          rw [List.forall_mem_cons] at hbs
          obtain ⟨⟨hquote, hbackslash, hcontrol⟩, hrest⟩ := hbs
          rw [List.cons_append, stringBytes]
          dsimp only
          rw [if_neg hquote, if_neg hbackslash, if_neg hcontrol,
            ih hrest (Nat.le_of_succ_le_succ hfuel), List.reverse_cons, List.append_assoc]
          rfl

/-- The bytes that stand for a character add the bytes of the character. -/
theorem CharForm.stringBytes {word : Bytes} {c : Char} (h : CharForm word c) {fuel : Bytes}
    (hfuel : word.length ≤ fuel.length) (done rest : Bytes) :
    ∃ fuel', fuel.length ≤ fuel'.length + word.length ∧
      Json.stringBytes fuel done (word ++ rest) =
        Json.stringBytes fuel' ((String.utf8EncodeChar c).reverse ++ done) rest := by
  rcases h.cases with ⟨tail, rfl, hread⟩ | ⟨rfl, hquote, hbackslash, hcontrol⟩
  · cases fuel with
    | nil => exact absurd hfuel (Nat.not_succ_le_zero _)
    | cons f fuel =>
        refine ⟨fuel, by simp, ?_⟩
        rw [List.cons_append, Json.stringBytes]
        dsimp only
        rw [if_neg (by decide), if_pos rfl, hread]
  · refine ⟨fuel.drop (String.utf8EncodeChar c).length, ?_, ?_⟩
    · rw [List.length_drop]
      omega
    · exact stringBytes_plain (fun b => plain_of_mem hquote hbackslash hcontrol) hfuel done rest

/-- All characters up to the closing quote. -/
theorem StringForm.stringBytes {word : Bytes} {cs : List Char} (h : StringForm word cs)
    {fuel : Bytes} (hfuel : word.length ≤ fuel.length) (done rest : Bytes) :
    Json.stringBytes fuel done (word ++ rest) =
      .ok (done.reverse ++ cs.flatMap String.utf8EncodeChar, rest) := by
  -- over the characters; each leaves fuel for those after it and for the quote
  induction h generalizing fuel done with
  | close =>
      cases fuel with
      | nil => exact absurd hfuel (Nat.not_succ_le_zero _)
      | cons f fuel =>
          rw [List.flatMap_nil, List.append_nil]
          rfl
  | @cons word words c cs head tail ih =>
      rw [List.length_append] at hfuel
      obtain ⟨fuel', hlength, hstep⟩ :=
        head.stringBytes (by omega : _ ≤ fuel.length) done (words ++ rest)
      rw [List.append_assoc, hstep, ih (by omega), List.reverse_append, List.reverse_reverse,
        List.append_assoc, List.flatMap_cons]

theorem stringForm_escaped (cs : List Char) :
    StringForm (cs.flatMap escaped ++ ['"'.toUInt8]) cs := by
  induction cs with
  | nil => exact .close
  | cons c cs ih =>
      rw [List.flatMap_cons, List.append_assoc]
      exact .cons (charForm_escaped c) ih

/-! ## Texts -/

theorem encode_join (words : List String) :
    encode (String.join words) = words.flatMap encode := by
  induction words with
  | nil => rfl
  | cons w ws ih => rw [String.join_cons, encode_append, ih, List.flatMap_cons]

theorem encode_quote (s : String) :
    encode (quote s) = '"'.toUInt8 :: (s.toList.flatMap escaped ++ ['"'.toUInt8]) := by
  rw [quote, encode_append, encode_append, encode_join, List.flatMap_map]
  rfl

/-- What is between the quotes is read as the text. -/
theorem StringForm.string {word : Bytes} {s : String} (h : StringForm word s.toList)
    (rest : Bytes) : Json.string (word ++ rest) = .ok (s, rest) := by
  have hread := h.stringBytes (List.length_append ▸ Nat.le_add_right _ _ :
    word.length ≤ (word ++ rest).length) [] rest
  rw [← encode_eq_flatMap] at hread
  rw [Json.string, bind_of_ok (rest_apply _), bind_of_ok hread, List.reverse_nil,
    List.nil_append, decode?_encode]
  rfl

end DynamicData.Json
