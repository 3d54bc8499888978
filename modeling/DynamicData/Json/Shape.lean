import DynamicData.Json.Skip
import DynamicData.Kind
import DynamicData.Json.Print
import DynamicData.Limits
import DynamicData.Tree.Debug

/-!
# JSON of a fixed shape

Limits and kinds have JSON forms of their own. Limits are an object, in which
fields may be left out and unknown ones are skipped, or a list of the three fields
in order, of which the last may be left out. A kind is its name, or an object with
the name as its only key and null under it.
-/

namespace DynamicData

namespace Json

/-! ## Values that are not what was asked for -/

def invalidType (found expected : String) : Cause :=
  .shape ("invalid type: " ++ found ++ ", expected " ++ expected)

def Number.described : Number → String
  | .unsigned u => "integer `" ++ toString u.toNat ++ "`"
  | .signed i => "integer `" ++ toString i.toInt ++ "`"
  | .real x => "floating point `" ++ FloatStyle.json.text x ++ "`"

/-- Refuses every value and names it in the message. Scalars are read first, and a fault
in one comes before the refusal; containers are not. -/
def refusal {α : Type} (expected : String) : Visitor α where
  null := failHere (invalidType "null" expected)
  bool b := failHere (invalidType ("boolean `" ++ toString b ++ "`") expected)
  number negative := do failHere (invalidType (← number negative).described expected)
  string := do failHere (invalidType ("string " ++ Debug.quote (← string)) expected)
  array := failHere (invalidType "sequence" expected)
  object := failHere (invalidType "map" expected)

/-! ## Limits -/

def asSize : Number → Reader Nat
  | .unsigned u => return u.toNat
  | .signed i =>
    failHere (.shape ("invalid value: " ++ (Number.signed i).described ++ ", expected usize"))
  | .real x => failHere (invalidType (Number.real x).described "usize")

def size : Reader Nat := do
  blanks
  visit { refusal "usize" with number := fun negative => do asSize (← number negative) }

inductive LimitField
  | nestingDepth
  | pathSteps
  | payloadBytes
  deriving DecidableEq, Repr

namespace LimitField

def all : List LimitField := [.nestingDepth, .pathSteps, .payloadBytes]

def name : LimitField → String
  | .nestingDepth => "max_nesting_depth"
  | .pathSteps => "max_path_steps"
  | .payloadBytes => "max_payload_bytes"

def get (l : Limits) : LimitField → Nat
  | .nestingDepth => l.maxNestingDepth
  | .pathSteps => l.maxPathSteps
  | .payloadBytes => l.maxPayloadBytes

def set (l : Limits) (n : Nat) : LimitField → Limits
  | .nestingDepth => { l with maxNestingDepth := n }
  | .pathSteps => { l with maxPathSteps := n }
  | .payloadBytes => { l with maxPayloadBytes := n }

end LimitField

/-- The limits read so far, and the fields that were given. -/
structure PartialLimits where
  limits : Limits
  given : List LimitField

/-- Refuses a second value for a field. The end of the object, if it follows, counts
as read. -/
def duplicateField {α : Type} (f : LimitField) : Reader α := do
  blanks
  match ← Parser.rest with
  | b :: rest => if b = Brackets.object.close then set rest
  | [] => pure ()
  failHere (.shape ("duplicate field `" ++ f.name ++ "`"))

/-- Reads a key without its colon. -/
def bareKey : Reader String := do
  match ← Parser.rest with
  | b :: rest =>
    if b = '"'.toUInt8 then
      set rest
      string
    else failNext .keyMustBeString
  | [] => failNext .keyMustBeString

def limitMember (done : PartialLimits) : Reader PartialLimits := do
  let k ← bareKey
  match LimitField.all.find? fun f => f.name = k with
  | some f =>
    if f ∈ done.given then duplicateField f
    skipColon
    let n ← size
    return ⟨f.set done.limits n, f :: done.given⟩
  | none =>
    skipColon
    skipValue (← Parser.rest)
    return done

/-- Reads what may follow the last field of a list. -/
def endOfFields : Reader Unit := do
  blanks
  match ← Parser.rest with
  | [] => failNext .endInList
  | b :: rest =>
    if b = Brackets.array.close then set rest
    else if b = ','.toUInt8 then
      set (skipBlanks rest)
      match ← Parser.rest with
      | c :: _ =>
        if c = Brackets.array.close then failNext .trailingComma
        else failNext .trailingCharacters
      | [] => failNext .trailingCharacters
    else failNext .trailingCharacters

/-- Reads the values of the fields, separated by commas, as far as they go. -/
def limitItems (done : Limits) (isFirst : Bool) : List LimitField → Reader Limits
  | [] => do
    endOfFields
    return done
  | f :: fields => do
    blanks
    match ← Parser.rest with
    | [] => failNext .endInList
    | b :: rest =>
      if b = Brackets.array.close then
        set rest
        return done
      if !isFirst then
        if b = ','.toUInt8 then
          set (skipBlanks rest)
          match ← Parser.rest with
          | [] => failNext .endInValue
          | c :: _ => if c = Brackets.array.close then failNext .trailingComma
        else failNext .expectedListCommaOrEnd
      let n ← size
      limitItems (f.set done n) false fields

def limits : Reader Limits := do
  blanks
  visit { refusal "struct DataLimits" with
    array := do
      modify List.tail
      limitItems .standard true LimitField.all
    object := do
      modify List.tail
      return (← enclosed .object limitMember ⟨.standard, []⟩).limits
  }

/-! ## Kinds -/

/-- The names of all kinds, for a reader who met another. -/
def kindNames : String :=
  ", ".intercalate (Kind.all.map fun k => "`" ++ k.name ++ "`")

/-- Reads the name of a kind after its opening quote. -/
def kindName : Reader Kind := do
  let s ← string
  match Kind.ofName? s with
  | some k => return k
  | none => failHere (.shape ("unknown variant `" ++ s ++ "`, expected one of " ++ kindNames))

/-- Reads the only key of an object that stands for a kind. -/
def kindKey : Reader Kind := do
  blanks
  match ← Parser.rest with
  | [] => failNext .endInObject
  | b :: rest =>
    if b = '"'.toUInt8 then
      set rest
      kindName
    else if b = Brackets.object.close then failNext .expectedValue
    else failNext .keyMustBeString

/-- Reads the null under the name of a kind. -/
def unit : Reader Unit := do
  blanks
  visit { refusal "unit" with null := pure () }

def kind : Reader Kind := do
  blanks
  match ← Parser.rest with
  | [] => failNext .endInValue
  | b :: rest =>
    if b = '"'.toUInt8 then
      set rest
      kindName
    else if b = '\x7b'.toUInt8 then
      set rest
      let k ← kindKey
      skipColon
      unit
      blanks
      match ← Parser.rest with
      | [] => failHere .endInObject
      | c :: rest =>
        if c = Brackets.object.close then
          set rest
          return k
        else failHere .expectedValue
    else failNext .expectedValue

end Json

def Limits.ofJson (payload : Bytes) : Except Json.Fault Limits :=
  (Json.atEnd Json.limits payload).map Prod.fst

def Limits.toJson (l : Limits) : String :=
  let field (f : Json.LimitField) := Json.quote f.name ++ ":" ++ toString (f.get l)
  "\x7b" ++ ",".intercalate (Json.LimitField.all.map field) ++ "\x7d"

def Kind.ofJson (payload : Bytes) : Except Json.Fault Kind :=
  (Json.atEnd Json.kind payload).map Prod.fst

def Kind.toJson (k : Kind) : String :=
  Json.quote k.name

end DynamicData
