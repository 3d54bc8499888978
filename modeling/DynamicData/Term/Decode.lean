import DynamicData.Bytes.Parser
import DynamicData.Term.Encode
import DynamicData.Term.Error

/-!
# Reading terms

A term is read from the front of a byte string and the rest is handed on. Lists
and maps may nest only so deep: `max` is the limit and `left` what remains of it.
A container that announces more parts than there are bytes left is refused before
any part is read, since every part takes at least a byte.
-/

namespace DynamicData.Term

abbrev Reader := Parser TermError

def readBytes (count : Nat) : Reader Bytes := fun bytes =>
  let head := bytes.take count
  if head.length = count then .ok (head, bytes.drop count)
  else .error (.unexpectedEnd count head.length)

/-- Checks that `count` bytes are left. -/
def expectBytes (count : Nat) : Reader Unit := fun bytes =>
  let available := (bytes.take count).length
  if available = count then .ok ((), bytes) else .error (.unexpectedEnd count available)

def readByte : Reader UInt8
  | [] => .error (.unexpectedEnd 1 0)
  | b :: rest => .ok (b, rest)

def readWord (width : Nat) : Reader Nat := do
  return Bytes.ofBigEndian (← readBytes width)

/-- Reads a length field of `width` bytes and as many bytes as it says. -/
def readField (width : Nat) : Reader Bytes := do
  readBytes (← readWord width)

def readAtom (decode? : Bytes → Option String) (width : Nat) : Reader Term := do
  match decode? (← readField width) with
  | none => throw .invalidUtf8
  | some name => return ofAtom name

/-- The integer with this sign and magnitude, if 128 bits hold it. -/
def ofMagnitude? (negative : Bool) (magnitude : Nat) : Option Int :=
  if negative then
    if magnitude ≤ 2 ^ 127 then some (-(magnitude : Int)) else none
  else if magnitude < 2 ^ 127 then some magnitude
  else none

def maxDigits : Nat := 16

/-- Reads a digit count of `width` bytes, a sign and a magnitude. -/
def readBig (width : Nat) : Reader Term := do
  let count ← readWord width
  let sign ← readByte
  let digits ← readBytes count
  -- the count alone decides here, whatever the digits are worth
  if maxDigits < count then throw (.integerOutOfRange count)
  match ofMagnitude? (sign != 0) (Bytes.ofLittleEndian digits) with
  | none => throw (.integerOutOfRange count)
  | some i => return .integer i

/-- Reads what follows the tag of a term without parts. -/
def readLeaf : Tag → Reader Term
  | .smallInteger => return .integer (← readWord 1)
  | .integer => return .integer (Bytes.toSigned 32 (← readWord 4))
  | .newFloat => return .float ⟨UInt64.ofNat (← readWord 8)⟩
  | .smallBig => readBig 1
  | .largeBig => readBig 4
  | .atom => readAtom (some ∘ Text.ofCodePoints) 2
  | .smallAtom => readAtom (some ∘ Text.ofCodePoints) 1
  | .atomUtf8 => readAtom Text.decode? 2
  | .smallAtomUtf8 => readAtom Text.decode? 1
  | .binary => return .binary (← readField 4)
  | .string => return .binary (← readField 2)
  -- of these only `.nil` comes here: `readWith` has readers for the others
  | .nil | .list | .map => return .list []

def readList (term : Reader Term) : Reader Term := do
  let count ← readWord 4
  expectBytes count
  let items ← term.times count
  let tail ← readByte
  if tail = Tag.nil.code then return .list items else throw .improperList

def readMap (term : Reader Term) : Reader Term := do
  let count ← readWord 4
  expectBytes (2 * count)
  return .map (← (term.pair term).times count)

/-- Reads a term, leaving what follows the tag of a container to the given readers. -/
def readWith (list map : Reader Term) : Reader Term := do
  let code ← readByte
  match Tag.ofCode? code with
  | none => throw (.unknownTag code)
  | some .list => list
  | some .map => map
  | some tag => readLeaf tag

/-- Reads a term in which containers nest at most `left` deep. -/
def read (max : Nat) : (left : Nat) → Reader Term
  | 0 => readWith (throw (.depthExceeded max)) (throw (.depthExceeded max))
  | left + 1 => readWith (readList (read max left)) (readMap (read max left))

def readPayload (max : Nat) : Reader Term := do
  let found ← readByte
  if found ≠ version then throw (.versionMismatch version found)
  read max max

/-- Reads a payload whose term nests at most `max` deep and takes up all of it. -/
def decode (max : Nat) (payload : Bytes) : Except TermError Term :=
  match readPayload max payload with
  | .error e => .error e
  | .ok (term, []) => .ok term
  | .ok (_, rest) => .error (.trailingBytes rest.length)

def standardDepth : Nat := 512

end DynamicData.Term
