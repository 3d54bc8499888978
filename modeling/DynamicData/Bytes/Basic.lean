import DynamicData.Number.Power

/-!
# Byte strings and their integers

Payloads are lists of bytes. An integer field is read and written at a fixed
width, most significant byte first (`ofBigEndian`, `toBigEndian`), or as the
digits of a magnitude, least significant byte first (`ofLittleEndian`,
`toLittleEndian`).
-/

namespace DynamicData

/-- A payload: the bytes still to be read, or the bytes written so far. -/
abbrev Bytes := List UInt8

namespace Bytes

def ofLittleEndian : Bytes → Nat
  | [] => 0
  | b :: rest => b.toNat + 256 * ofLittleEndian rest

/-- The low `width` base-256 digits of `n`, least significant first. -/
def toLittleEndian : (width : Nat) → Nat → Bytes
  | 0, _ => []
  | width + 1, n => UInt8.ofNat n :: toLittleEndian width (n / 256)

def ofBigEndian (bytes : Bytes) : Nat :=
  bytes.foldl (fun n b => 256 * n + b.toNat) 0

/-- `n` in `width` bytes, most significant first; higher digits are dropped. -/
def toBigEndian (width n : Nat) : Bytes :=
  (toLittleEndian width n).reverse

/-- How many base-256 digits `n` has; zero is written with one digit. -/
def digitCount (n : Nat) : Nat :=
  n.log2 / 8 + 1

/-- The shortest little-endian form of `n`. -/
def magnitude (n : Nat) : Bytes :=
  toLittleEndian (digitCount n) n

/-- The signed reading of an unsigned number of `bits` bits. -/
def toSigned (bits n : Nat) : Int :=
  if n < 2 ^ (bits - 1) then n else (n : Int) - 2 ^ bits

/-- The unsigned number of `bits` bits congruent to `i`. -/
def toUnsigned (bits : Nat) (i : Int) : Nat :=
  (i % (2 ^ bits : Int)).toNat

@[simp] theorem length_toLittleEndian (width n : Nat) :
    (toLittleEndian width n).length = width := by
  induction width generalizing n with
  | zero => rfl
  | succ width ih => simp [toLittleEndian, ih]

@[simp] theorem length_toBigEndian (width n : Nat) :
    (toBigEndian width n).length = width := by
  simp [toBigEndian]

end Bytes
end DynamicData
