import DynamicData.Bytes.Basic

/-!
# Text as bytes

Text travels as UTF-8, or one byte per character where only the first 256 code
points are in use. `decode?` accepts exactly the well-formed UTF-8 strings, and
`validLength` measures how far a malformed one can be read.
-/

namespace DynamicData.Text

/-- The UTF-8 bytes of a text. -/
def encode (s : String) : Bytes :=
  s.toByteArray.data.toList

def decode? (bytes : Bytes) : Option String :=
  String.fromUTF8? ⟨bytes.toArray⟩

/-- The text with one character per byte, each of the byte's own code point. -/
def ofCodePoints (bytes : Bytes) : String :=
  String.ofList (bytes.map fun b => Char.ofNat b.toNat)

/-- Walks whole characters from `start`; `fuel` bounds their number. -/
def validLength.go (bytes : ByteArray) : (fuel start : Nat) → Nat
  | 0, start => start
  | fuel + 1, start =>
    match bytes.utf8DecodeChar? start with
    | none => start
    | some c => validLength.go bytes fuel (start + c.utf8Size)

/-- The length of the longest initial run of well-formed characters. -/
def validLength (bytes : Bytes) : Nat :=
  validLength.go ⟨bytes.toArray⟩ bytes.length 0

@[simp] theorem encode_empty : encode "" = [] := rfl

@[simp] theorem encode_append (s t : String) :
    encode (s ++ t) = encode s ++ encode t := by
  simp [encode]

theorem decode?_encode (s : String) : decode? (encode s) = some s := by
  have h : (⟨(encode s).toArray⟩ : ByteArray) = s.toByteArray := by
    simp [encode]
  unfold decode? String.fromUTF8?
  rw [h, dif_pos s.isValidUTF8]
  rfl

theorem encode_of_decode? {bytes : Bytes} {s : String} (h : decode? bytes = some s) :
    encode s = bytes := by
  unfold decode? String.fromUTF8? at h
  split at h
  · cases h
    rfl
  · simp at h

end DynamicData.Text
