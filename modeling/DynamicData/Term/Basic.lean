import DynamicData.Bytes.Text
import DynamicData.Number.Binary64

/-!
# External terms

The values that the binary term format carries. Integers are signed and at most
128 bits wide on the wire; a map is its list of pairs, in order and with any
repetitions.
-/

namespace DynamicData

inductive Term where
  | nil
  | bool (b : Bool)
  | integer (i : Int)
  | float (x : Binary64)
  | binary (bytes : Bytes)
  | atom (name : String)
  | list (items : List Term)
  | map (pairs : List (Term × Term))

namespace Term

def ofText (s : String) : Term :=
  .binary (Text.encode s)

/-- The term that an atom of this name denotes: some names are reserved. -/
def ofAtom (name : String) : Term :=
  if name = "nil" ∨ name = "null" then .nil
  else if name = "true" then .bool true
  else if name = "false" then .bool false
  else .atom name

def typeName : Term → String
  | .nil => "nil"
  | .bool _ => "boolean"
  | .integer _ => "integer"
  | .float _ => "float"
  | .binary _ => "binary"
  | .atom _ => "atom"
  | .list _ => "list"
  | .map _ => "map"

/-- The text of a binary or an atom. -/
def text? : Term → Option String
  | .binary bytes => Text.decode? bytes
  | .atom name => some name
  | _ => none

end Term
end DynamicData
