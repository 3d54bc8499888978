import DynamicData.Json.Token

/-!
# Reading JSON

`Json.parse` turns a payload into a document. Where a key comes again, its value
replaces the earlier one in the place of the first. Containers nest at most
`maxDepth` deep.
-/

namespace DynamicData.Json

/-- What tells an array from an object while its parts are read. -/
structure Brackets where
  close : UInt8
  /-- the cause if the input ends between parts -/
  atEnd : Cause
  /-- the cause if something else than a comma follows a part -/
  noComma : Cause

def Brackets.array : Brackets := ⟨']'.toUInt8, .endInList, .expectedListCommaOrEnd⟩

def Brackets.object : Brackets := ⟨'\x7d'.toUInt8, .endInObject, .expectedObjectCommaOrEnd⟩

/-- Reads parts separated by commas up to the closing bracket, from the start of a
part. Each part adds itself to what has been read; it reads a byte or more and uses
one up of `fuel`, so the input itself is fuel enough. -/
def parts {σ : Type} (br : Brackets) (part : σ → Reader σ) : (fuel : Bytes) → σ → Reader σ
  | [], _ => failNext .endInValue
  | _ :: fuel, done => do
    let done ← part done
    blanks
    match ← Parser.rest with
    | [] => failNext br.atEnd
    | b :: rest =>
      if b = br.close then
        set rest
        return done
      else if b = ','.toUInt8 then
        set (skipBlanks rest)
        match ← Parser.rest with
        | [] => failNext .endInValue
        | c :: _ =>
          if c = br.close then failNext .trailingComma else parts br part fuel done
      else failNext br.noComma

/-- Reads what follows an opening bracket. -/
def enclosed {σ : Type} (br : Brackets) (part : σ → Reader σ) (start : σ) : Reader σ := do
  blanks
  match ← Parser.rest with
  | [] => failNext br.atEnd
  | b :: rest =>
    if b = br.close then
      set rest
      return start
    else parts br part (b :: rest) start

/-- Reads the key of a member and the colon after it. -/
def key : Reader String := do
  match ← Parser.rest with
  | b :: rest =>
    if b = '"'.toUInt8 then
      set rest
      let k ← string
      blanks
      match ← Parser.rest with
      | [] => failNext .endInObject
      | c :: rest =>
        if c = ':'.toUInt8 then
          set rest
          return k
        else failNext .expectedColon
    else failNext .keyMustBeString
  | [] => failNext .keyMustBeString

def member (value : Reader Document) (done : Entries Document) :
    Reader (Entries Document) := do
  let k ← key
  let v ← value
  return done.insert k v

def array (value : Reader Document) : Reader Document := do
  modify List.tail
  let items ← enclosed .array (fun done => do return (← value) :: done) []
  return .array () items.reverse

def object (value : Reader Document) : Reader Document := do
  modify List.tail
  return .object () (← enclosed .object (member value) [])

/-- What is done with a value, by its sort. The letters of a literal name have been read
by then, and so have a minus sign and the quote that opens a string; a digit or a
bracket has not. -/
structure Visitor (α : Type) where
  null : Reader α
  bool : Bool → Reader α
  number : (negative : Bool) → Reader α
  string : Reader α
  array : Reader α
  object : Reader α

/-- Looks at the byte that a value begins with and leaves the rest to the visitor. -/
def visit {α : Type} (v : Visitor α) : Reader α := do
  match ← Parser.rest with
  | [] => failNext .endInValue
  | b :: rest =>
    match Opening.ofByte? b with
    | none => failNext .expectedValue
    | some .null =>
      set rest
      letters ['u', 'l', 'l']
      v.null
    | some .true =>
      set rest
      letters ['r', 'u', 'e']
      v.bool true
    | some .false =>
      set rest
      letters ['a', 'l', 's', 'e']
      v.bool false
    | some .minus =>
      set rest
      v.number true
    | some .digit => v.number false
    | some .quote =>
      set rest
      v.string
    | some .bracket => v.array
    | some .brace => v.object

/-- Reads a value, leaving its parts to the given readers if it is a container. -/
def valueWith (array object : Reader Document) : Reader Document := do
  blanks
  visit {
    null := return .null
    bool := fun b => return .bool b
    number := fun negative => do return (← number negative).tree
    string := do return .text (← string)
    array := array
    object := object
  }

/-- Reads a value in which containers nest at most `budget` deep. -/
def value : (budget : Nat) → Reader Document
  | 0 => valueWith (failNext .recursionLimit) (failNext .recursionLimit)
  | budget + 1 => valueWith (array (value budget)) (object (value budget))

/-- How deeply containers may nest, whatever other limit there is. -/
def maxDepth : Nat := 127

/-- Reads to the end of the input, where only blanks may be left. -/
def atEnd {α : Type} (p : Reader α) : Reader α := do
  let a ← p
  blanks
  match ← Parser.rest with
  | [] => return a
  | _ => failNext .trailingCharacters

def parse (payload : Bytes) : Except Fault Document :=
  (atEnd (value maxDepth) payload).map Prod.fst

end DynamicData.Json
