import DynamicData.Heap

/-!
# Equality and containment of shared trees

Two nodes are equal when their trees agree, except that containers in the same
storage are equal at once: the difference shows only below a NaN, which is not
equal to itself. `holds` says whether a storage occurs in a tree.
-/

namespace DynamicData

namespace Tree

mutual

/-- Whether two trees are equal: integers as numbers, doubles numerically, arrays
item by item, objects key by key in any order. -/
def same : Tree Storage → Tree Storage → Bool
  | .null, .null => true
  | .bool a, .bool b => a == b
  | .int a, .int b => a == b
  | .uint a, .uint b => a == b
  | .int a, .uint b => a.toInt == b.toNat
  | .uint a, .int b => b.toInt == a.toNat
  | .float x, .float y => x.equals y
  | .text s, .text t => s == t
  | .array p xs, .array q ys => p == q || sameItems xs ys
  | .object p es, .object q fs => p == q || (es.length == fs.length && sameEntries es fs)
  | _, _ => false

def sameItems : List (Tree Storage) → List (Tree Storage) → Bool
  | [], [] => true
  | t :: ts, u :: us => same t u && sameItems ts us
  | _, _ => false

/-- Whether every entry has an equal one under its key among the others. -/
def sameEntries : List (String × Tree Storage) → List (String × Tree Storage) → Bool
  | [], _ => true
  | (k, t) :: rest, fs =>
    (match Entries.get? k fs with
      | some u => same t u
      | none => false) && sameEntries rest fs

end

mutual

/-- Whether a container of the tree is the given storage. -/
def holds (s : Storage) : Tree Storage → Bool
  | .null | .bool _ | .int _ | .uint _ | .float _ | .text _ => false
  | .array p items => p == s || holdsInItems s items
  | .object p entries => p == s || holdsInEntries s entries

def holdsInItems (s : Storage) : List (Tree Storage) → Bool
  | [] => false
  | t :: rest => holds s t || holdsInItems s rest

def holdsInEntries (s : Storage) : List (String × Tree Storage) → Bool
  | [] => false
  | (_, t) :: rest => holds s t || holdsInEntries s rest

end

end Tree

namespace Heap

def same (h : Heap) (a b : Node) : Bool :=
  (h.tree a).same (h.tree b)

/-- Whether a storage is the node's own or below it. -/
def reaches (h : Heap) (n : Node) (s : Storage) : Bool :=
  (h.tree n).holds s

end Heap
end DynamicData
