import DynamicData.Entries
import DynamicData.Kind
import DynamicData.Number.Binary64

/-!
# Trees of dynamic values

A `Tree` is a value with everything below it: null, a boolean, an integer, a
double, a text, or a container of further trees. Each container carries a mark of
the type `ι`. Trees read off a heap are marked with the storage they came from;
trees read from a payload have no storage yet, and are called documents.
-/

namespace DynamicData

/-- A value and everything below it, containers marked with an `ι`. An integer is
kept signed where it can be. -/
inductive Tree (ι : Type) where
  | null
  | bool (b : Bool)
  | int (i : Int64)
  | uint (u : UInt64)
  | float (x : Binary64)
  | text (s : String)
  | array (mark : ι) (items : List (Tree ι))
  | object (mark : ι) (entries : List (String × Tree ι))

/-- A tree without storage. -/
abbrev Document := Tree Unit

namespace Tree

variable {ι : Type}

/-- The kind of the root. Both integer forms are integers. -/
def kind : Tree ι → Kind
  | .null => .null
  | .bool _ => .boolean
  | .int _ | .uint _ => .integer
  | .float _ => .float
  | .text _ => .string
  | .array _ _ => .array
  | .object _ _ => .object

/-- The integer form of an unsigned word: signed if it fits. -/
def unsigned (u : UInt64) : Tree ι :=
  if u.toNat < 2 ^ 63 then .int (Int64.ofNat u.toNat) else .uint u

/-- The integer form of a number of either sign, if it has 64 bits. -/
def integer? (i : Int) : Option (Tree ι) :=
  if -2 ^ 63 ≤ i ∧ i < 2 ^ 63 then some (.int (Int64.ofInt i))
  else if 0 ≤ i ∧ i < 2 ^ 64 then some (.uint (UInt64.ofNat i.toNat))
  else none

mutual

/-- How deeply containers nest, the root included. -/
def depth : Tree ι → Nat
  | .null | .bool _ | .int _ | .uint _ | .float _ | .text _ => 0
  | .array _ items => 1 + depthOfItems items
  | .object _ entries => 1 + depthOfEntries entries

def depthOfItems : List (Tree ι) → Nat
  | [] => 0
  | t :: rest => max (depth t) (depthOfItems rest)

def depthOfEntries : List (String × Tree ι) → Nat
  | [] => 0
  | (_, t) :: rest => max (depth t) (depthOfEntries rest)

end

mutual

/-- The tree with the keys of every object in ascending order. -/
def sorted : Tree ι → Tree ι
  | .null => .null
  | .bool b => .bool b
  | .int i => .int i
  | .uint u => .uint u
  | .float x => .float x
  | .text s => .text s
  | .array mark items => .array mark (sortedItems items)
  | .object mark entries => .object mark (Entries.sortByKey (sortedEntries entries))

def sortedItems : List (Tree ι) → List (Tree ι)
  | [] => []
  | t :: rest => sorted t :: sortedItems rest

/-- Sorts below every value, leaving the entries in place. -/
def sortedEntries : List (String × Tree ι) → List (String × Tree ι)
  | [] => []
  | (k, t) :: rest => (k, sorted t) :: sortedEntries rest

end

end Tree
end DynamicData
