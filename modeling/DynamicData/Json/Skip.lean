import DynamicData.Json.Parse

/-!
# Skipping JSON values

A value that nobody asks for is read past without being built. Its brackets,
commas and numbers must still fit, but containers may nest to any depth, and
neither surrogates nor bytes of strings are looked at.
-/

namespace DynamicData.Json

def skipEscape : Reader Unit
  | [] => .error ⟨.endInString, 0⟩
  | b :: rest =>
    if b = 'u'.toUInt8 then do
      let (_, rest) ← hexCode rest
      return ((), rest)
    else if letterEscapes.any fun e => e.1.toUInt8 = b then .ok ((), rest)
    else .error ⟨.invalidEscape, rest.length⟩

def skipString : (fuel : Bytes) → Reader Unit
  | [] => failHere .endInString
  | _ :: fuel => fun
    | [] => .error ⟨.endInString, 0⟩
    | b :: rest =>
      if b = '"'.toUInt8 then .ok ((), rest)
      else if b = '\\'.toUInt8 then
        match skipEscape rest with
        | .error e => .error e
        | .ok (_, rest) => skipString fuel rest
      else if b < 0x20 then .error ⟨.controlCharacter, rest.length + 1⟩
      else skipString fuel rest

/-- Reads past digits, of which there is at least one. -/
def skipDigits (fault : Reader Unit) : Reader Unit := do
  match ← Parser.rest with
  | b :: rest => if isDigit b then set (rest.dropWhile isDigit) else fault
  | [] => fault

def skipExponent : Reader Unit := do
  match ← Parser.rest with
  | b :: rest =>
    if b = 'e'.toUInt8 ∨ b = 'E'.toUInt8 then
      set rest
      let _ ← exponentSign
      skipDigits (failNext .invalidNumber)
    else return ()
  | [] => return ()

def skipNumber : Reader Unit := do
  match ← Parser.rest with
  | b :: rest =>
    if b = '0'.toUInt8 then
      set rest
      match rest with
      | c :: _ => if isDigit c then failNext .invalidNumber
      | [] => pure ()
    else skipDigits (failNext .invalidNumber)
  | [] => failHere .invalidNumber
  match ← Parser.rest with
  | b :: rest =>
    if b = '.'.toUInt8 then
      set rest
      skipDigits (failNext .invalidNumber)
    skipExponent
  | [] => return ()

def skipColon : Reader Unit := do
  blanks
  match ← Parser.rest with
  | [] => failNext .endInObject
  | b :: rest => if b = ':'.toUInt8 then set rest else failNext .expectedColon

def skipKey : Reader Unit := do
  blanks
  match ← Parser.rest with
  | [] => failNext .endInObject
  | b :: rest =>
    if b = '"'.toUInt8 then
      set rest
      skipString rest
      skipColon
    else failNext .keyMustBeString

/-- Reads past parts separated by commas and the closing bracket. Each round reads a
byte or more and uses one up of `fuel`, so the input itself is fuel enough. -/
def skipParts (br : Brackets) (part : Reader Unit) : (fuel : Bytes) → Reader Unit
  | [] => failNext .endInValue
  | _ :: fuel => do
    part
    blanks
    match ← Parser.rest with
    | [] => failNext br.atEnd
    | b :: rest =>
      if b = br.close then set rest
      else if b = ','.toUInt8 then
        set rest
        skipParts br part fuel
      else failNext br.noComma

def skipEnclosed (br : Brackets) (part : Reader Unit) : Reader Unit := do
  blanks
  match ← Parser.rest with
  | [] => failNext br.atEnd
  | b :: rest => if b = br.close then set rest else skipParts br part (b :: rest)

/-- Reads past a value, leaving its parts to `nested` if it is a container. -/
def skipWith (nested : Reader Unit) : Reader Unit := do
  blanks
  visit {
    null := pure ()
    bool := fun _ => pure ()
    number := fun _ => skipNumber
    string := do skipString (← Parser.rest)
    array := do
      modify List.tail
      skipEnclosed .array nested
    object := do
      modify List.tail
      skipEnclosed .object (skipKey *> nested)
  }

/-- Reads past a value. A container uses one up of `fuel`, and its bracket is a byte,
so the input itself is fuel enough. -/
def skipValue : (fuel : Bytes) → Reader Unit
  | [] => failNext .endInValue
  | _ :: fuel => skipWith (skipValue fuel)

end DynamicData.Json
