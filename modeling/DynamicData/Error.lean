import DynamicData.Kind

/-!
# Failures

Everything that can go wrong with data is a `DataError`: a value that is missing
or of the wrong sort, a payload that does not parse, a call that breaks a rule, an
index outside an array. Context may be wrapped around an error; the code and the
class are those of its root cause.
-/

namespace DynamicData

/-- Where in a container a value was looked up. -/
inductive Location
  | key (key : String)
  | index (index : Nat)
  deriving DecidableEq, Repr

def Location.text : Location → String
  | .key k => "key '" ++ k ++ "'"
  | .index i => "index " ++ toString i

inductive DataError
  /-- a required value is absent -/
  | missing (location : Location)
  /-- a required value is null -/
  | null (location : Location)
  /-- a value cannot be had as the kind asked for -/
  | typeMismatch (location : Location) (expected : String) (actual : Kind) (value : String)
  /-- a text does not denote a value of the kind asked for -/
  | invalidText (location : Location) (expected : String) (value : String)
  /-- a JSON payload is malformed or has the wrong root -/
  | json (message : String)
  /-- a binary payload is malformed or has the wrong root -/
  | binary (message : String)
  /-- a source failed while it was read -/
  | io (message : String)
  /-- a path is outside the grammar -/
  | invalidPath (path : String) (position : Nat) (reason : String)
  /-- a rule of the interface is broken -/
  | contract (reason : String)
  /-- an index is outside an array -/
  | indexOutOfBounds (index length : Nat)
  /-- a configured limit is exceeded -/
  | limitExceeded (limit : String) (max actual : Nat)
  /-- a failure with a message put before it -/
  | withContext (message : String) (source : DataError)
  deriving DecidableEq, Repr

inductive ErrorClass
  | parsing
  | contract
  | bounds
  deriving DecidableEq, Repr

def ErrorClass.name : ErrorClass → String
  | .parsing => "parsing"
  | .contract => "contract"
  | .bounds => "bounds"

namespace DataError

def message : DataError → String
  | .missing location =>
    "Unable to resolve value at " ++ location.text ++ ": value is missing"
  | .null location => "Unable to resolve value at " ++ location.text ++ ": value is null"
  | .typeMismatch location expected actual value =>
    "Cannot parse value at " ++ location.text ++ " as " ++ expected ++ ": found " ++
      actual.name ++ " value " ++ value
  | .invalidText location expected value =>
    "Cannot parse value at " ++ location.text ++ " as " ++ expected ++ ": invalid text '" ++
      value ++ "'"
  | .json message => "Invalid JSON payload: " ++ message
  | .binary message => "Invalid binary payload: " ++ message
  | .io message => "Failed to read payload: " ++ message
  | .invalidPath path position reason =>
    "Invalid path '" ++ path ++ "' at position " ++ toString position ++ ": " ++ reason
  | .contract reason => "Contract violation: " ++ reason
  | .indexOutOfBounds index length =>
    "Index " ++ toString index ++ " out of bounds (length: " ++ toString length ++ ")"
  | .limitExceeded limit max actual =>
    limit ++ " exceeded: " ++ toString actual ++ " > " ++ toString max
  | .withContext message source => message ++ ": " ++ source.message

def rootCause : DataError → DataError
  | .withContext _ source => source.rootCause
  | e => e

def code : DataError → String
  | .missing _ => "DATA_MISSING"
  | .null _ => "DATA_NULL"
  | .typeMismatch .. => "DATA_TYPE_MISMATCH"
  | .invalidText .. => "DATA_INVALID_TEXT"
  | .json _ => "DATA_JSON"
  | .binary _ => "DATA_BINARY"
  | .io _ => "DATA_IO"
  | .invalidPath .. => "DATA_INVALID_PATH"
  | .contract _ => "DATA_CONTRACT"
  | .indexOutOfBounds .. => "DATA_INDEX_OUT_OF_BOUNDS"
  | .limitExceeded .. => "DATA_LIMIT_EXCEEDED"
  | .withContext _ source => source.code

/-- The class of the cause: missing, incompatible or malformed data, a broken rule,
or a position outside its container. -/
def errorClass : DataError → ErrorClass
  | .missing _ | .null _ | .typeMismatch .. | .invalidText .. => .parsing
  | .json _ | .binary _ | .io _ => .parsing
  | .invalidPath .. | .contract _ | .limitExceeded .. => .contract
  | .indexOutOfBounds .. => .bounds
  | .withContext _ source => source.errorClass

def atPath (e : DataError) (path : String) : DataError :=
  .withContext ("at path '" ++ path ++ "'") e

/-! ## Rules that an operation can break -/

def objectCycle : DataError :=
  .contract "an object cannot contain itself, directly or through a child"

def arrayCycle : DataError :=
  .contract "an array cannot contain itself, directly or through a child"

def pathNeedsName : DataError :=
  .contract "a path into an object must start with a name step"

def pathNeedsIndex : DataError :=
  .contract "a path into an array must start with an index step"

def pathFromScalar (actual : Kind) : DataError :=
  .contract ("a path cannot be resolved against a " ++ actual.name ++ " value")

def pathWithoutSteps : DataError :=
  .contract "path has no steps"

/-! ## Payloads with the wrong root -/

/-- The message for a payload whose root is not of the expected kind. -/
def wrongRoot (expected actual : Kind) : String :=
  "expected " ++ expected.name ++ " root, found " ++ actual.name

theorem code_rootCause (e : DataError) : e.rootCause.code = e.code := by
  induction e <;> simp_all [rootCause, code]

theorem errorClass_rootCause (e : DataError) : e.rootCause.errorClass = e.errorClass := by
  induction e <;> simp_all [rootCause, errorClass]

end DataError
end DynamicData
