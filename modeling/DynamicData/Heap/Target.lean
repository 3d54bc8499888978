import DynamicData.Heap
import DynamicData.Json.Print
import DynamicData.Number.Numeral
import DynamicData.Time.DateTime

/-!
# Types that values can be read as

A `Target` says how values of some type are had from nodes: taken as they are, read
from a text, or narrowed from a number. Each type that a caller may ask for is one
`Target`.
-/

namespace DynamicData

/-- What a numeric node is worth. -/
inductive Numeric
  | integer (i : Int)
  | float (x : Binary64)
  deriving DecidableEq, Repr

def Node.numeric? : Node → Option Numeric
  | .int i => some (.integer i.toInt)
  | .uint u => some (.integer u.toNat)
  | .float x => some (.float x)
  | _ => none

/-- A type that nodes can be read as. -/
structure Target (α : Type) where
  /-- the name in messages -/
  name : String
  /-- the value of a node that needs no conversion -/
  exact : Heap → Node → Option α
  /-- the value that a text denotes -/
  ofText : String → Option α
  /-- the value that a number becomes -/
  ofNumber : Numeric → Option α

namespace Target

/-- Any node as it is. -/
def value : Target Node where
  name := "value"
  exact _ n := some n
  ofText _ := none
  ofNumber _ := none

def object : Target ObjectRef where
  name := "object"
  exact _
    | .object o => some o
    | _ => none
  ofText _ := none
  ofNumber _ := none

def array : Target ArrayRef where
  name := "array"
  exact _
    | .array a => some a
    | _ => none
  ofText _ := none
  ofNumber _ := none

/-- The text of any node. -/
def string : Target String where
  name := "string"
  exact h n := some (h.tree n).natural
  ofText s := some s
  ofNumber _ := none

/-- Booleans, also by name in any case. -/
def boolean : Target Bool where
  name := "boolean"
  exact _
    | .bool b => some b
    | _ => none
  ofText s :=
    let name := String.ofList (s.toList.map Char.toLower)
    if name = "true" then some true else if name = "false" then some false else none
  ofNumber _ := none

/-- Integers of some width, from `low` to `high`. Numbers wrap, doubles are cut
toward zero and clamped, and texts must be in range. -/
def integer {α : Type} (name : String) (low high : Int) (read? : String → Option Int)
    (ofInt : Int → α) : Target α where
  name := name
  exact _ _ := none
  ofText s := ((read? s).filter fun i => low ≤ i ∧ i ≤ high).map ofInt
  ofNumber
    | .integer i => some (ofInt i)
    | .float x => some (ofInt (x.clampTo low high))

def int : Target Int32 :=
  integer "int" (-2 ^ 31) (2 ^ 31 - 1) Numeral.signed? Int32.ofInt

def unsignedInt : Target UInt32 :=
  integer "unsigned int" 0 (2 ^ 32 - 1) (fun s => (Numeral.unsigned? s).map Int.ofNat) UInt32.ofInt

def long : Target Int64 :=
  integer "long" (-2 ^ 63) (2 ^ 63 - 1) Numeral.signed? Int64.ofInt

def unsignedLong : Target UInt64 :=
  integer "unsigned long" 0 (2 ^ 64 - 1) (fun s => (Numeral.unsigned? s).map Int.ofNat)
    UInt64.ofInt

/-- Doubles; integers go to the nearest one. -/
def double : Target Binary64 where
  name := "double"
  exact _
    | .float x => some x
    | _ => none
  ofText := Binary64.read?
  ofNumber
    | .integer i => some (.ofInt i)
    | .float x => some x

/-- Points in time, from their strict text. -/
def offsetDateTime : Target OffsetDateTime where
  name := "offset date-time"
  exact _ _ := none
  ofText := OffsetDateTime.read?
  ofNumber _ := none

end Target

end DynamicData
