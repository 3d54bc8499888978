/-!
# Kinds of values

Every value has one of seven kinds. `unknown` is an eighth name that a caller may
ask about and that no value has.
-/

namespace DynamicData

inductive Kind
  | integer
  | float
  | string
  | boolean
  | array
  | object
  | null
  | unknown
  deriving DecidableEq, Repr

namespace Kind

def all : List Kind :=
  [.integer, .float, .string, .boolean, .array, .object, .null, .unknown]

/-- The name of a kind, in texts and on the wire. -/
def name : Kind → String
  | .integer => "integer"
  | .float => "float"
  | .string => "string"
  | .boolean => "boolean"
  | .array => "array"
  | .object => "object"
  | .null => "null"
  | .unknown => "unknown"

def ofName? (s : String) : Option Kind :=
  all.find? fun k => k.name = s

/-- Whether a value of kind `actual` answers to `k`; nothing answers to
`unknown`. -/
def accepts (k actual : Kind) : Bool :=
  k != .unknown && k == actual

/-- `accepts` for a place that may be empty; an empty place counts as null. -/
def acceptsSlot (k : Kind) : Option Kind → Bool
  | some actual => k.accepts actual
  | none => k == .null

theorem ofName?_name (k : Kind) : ofName? k.name = some k := by
  cases k <;> decide

end Kind
end DynamicData
