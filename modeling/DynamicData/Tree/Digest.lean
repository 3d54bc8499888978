import DynamicData.Tree

/-!
# What a hash of a tree is computed from

A hasher is fed a sequence of words; two trees hash alike when their sequences
are the same. Equal trees must agree here, so an integer is fed as a number, both
zeros as the same word, and the entries of an object in the order of their keys.
-/

namespace DynamicData

/-- One thing fed to a hasher. -/
inductive Feed
  | kind (k : Kind)
  | flag (b : Bool)
  | integer (i : Int)
  | word (w : UInt64)
  | text (s : String)
  | length (n : Nat)
  deriving DecidableEq, Repr

namespace Tree

variable {ι : Type}

mutual

/-- The sequence that a tree feeds to a hasher, its kind first. -/
def digest : Tree ι → List Feed
  | .null => [.kind .null]
  | .bool b => [.kind .boolean, .flag b]
  | .int i => [.kind .integer, .integer i.toInt]
  | .uint u => [.kind .integer, .integer u.toNat]
  | .float x => [.kind .float, .word (if x.isZero then 0 else x.bits)]
  | .text s => [.kind .string, .text s]
  | .array _ items => .kind .array :: .length items.length :: digestItems items
  | .object _ entries =>
    .kind .object :: .length entries.length ::
      ((Entries.sortByKey (digestEntries entries)).flatMap fun e => .text e.1 :: e.2)

def digestItems : List (Tree ι) → List Feed
  | [] => []
  | t :: rest => digest t ++ digestItems rest

def digestEntries : List (String × Tree ι) → List (String × List Feed)
  | [] => []
  | (k, t) :: rest => (k, digest t) :: digestEntries rest

end

end Tree
end DynamicData
