import DynamicData.Term.Basic
import DynamicData.Term.Tag

/-!
# Writing terms

A term is written as its tag, the lengths and integers that the tag calls for, and
the parts. Every term has one written form here: integers take the narrowest form
that holds them and atoms are UTF-8 with the shortest length field. A payload is
the version byte and one term.
-/

namespace DynamicData.Term

/-- The byte that opens a payload. -/
def version : UInt8 := 131

def writeBinary (bytes : Bytes) : Bytes :=
  Tag.binary.code :: Bytes.toBigEndian 4 bytes.length ++ bytes

/-- The written form of an atom. A name too long for any length field is written
as a binary. -/
def writeAtom (name : String) : Bytes :=
  let bytes := Text.encode name
  if bytes.length < 2 ^ 8 then
    Tag.smallAtomUtf8.code :: Bytes.toBigEndian 1 bytes.length ++ bytes
  else if bytes.length < 2 ^ 16 then
    Tag.atomUtf8.code :: Bytes.toBigEndian 2 bytes.length ++ bytes
  else writeBinary bytes

/-- The written form of an integer: one byte, four bytes, or sign and magnitude. -/
def writeInteger (i : Int) : Bytes :=
  if 0 ≤ i ∧ i < 2 ^ 8 then Tag.smallInteger.code :: Bytes.toBigEndian 1 i.toNat
  else if -2 ^ 31 ≤ i ∧ i < 2 ^ 31 then
    Tag.integer.code :: Bytes.toBigEndian 4 (Bytes.toUnsigned 32 i)
  else
    let digits := Bytes.magnitude i.natAbs
    Tag.smallBig.code :: Bytes.toBigEndian 1 digits.length ++
      (if i < 0 then 1 else 0) :: digits

mutual

def write : Term → Bytes
  | .nil => writeAtom "nil"
  | .bool true => writeAtom "true"
  | .bool false => writeAtom "false"
  | .integer i => writeInteger i
  | .float x => Tag.newFloat.code :: Bytes.toBigEndian 8 x.bits.toNat
  | .binary bytes => writeBinary bytes
  | .atom name => writeAtom name
  | .list [] => [Tag.nil.code]
  | .list (t :: rest) =>
    Tag.list.code :: Bytes.toBigEndian 4 (rest.length + 1) ++
      (write t ++ writeItems rest ++ [Tag.nil.code])
  | .map pairs => Tag.map.code :: Bytes.toBigEndian 4 pairs.length ++ writePairs pairs

def writeItems : List Term → Bytes
  | [] => []
  | t :: rest => write t ++ writeItems rest

def writePairs : List (Term × Term) → Bytes
  | [] => []
  | (k, v) :: rest => write k ++ (write v ++ writePairs rest)

end

def encode (t : Term) : Bytes :=
  version :: write t

end DynamicData.Term
