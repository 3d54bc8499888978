import DynamicData.Error
import DynamicData.Heap

/-!
# Places in containers

A `Place` is a key of an object or an index of an array. `Heap.lookup` is the node
that stands there; every question about a place is answered from it.
-/

namespace DynamicData

/-- Where a value stands: under a key or at an index. -/
inductive Place
  | key (o : ObjectRef) (key : String)
  | index (a : ArrayRef) (index : Nat)
  deriving DecidableEq, Repr

def Place.location : Place → Location
  | .key _ k => .key k
  | .index _ i => .index i

namespace Heap

/-- The node at a place, if the key is present or the index in range. -/
def lookup (h : Heap) : Place → Option Node
  | .key o k => (h.entries o).get? k
  | .index a i => (h.items a)[i]?

/-- The error for reading a place where there is nothing. -/
def absence (h : Heap) : Place → DataError
  | .key _ k => .missing (.key k)
  | .index a i => .indexOutOfBounds i (h.items a).length

/-- Whether a place is empty or holds null. -/
def isNull (h : Heap) (p : Place) : Bool :=
  match h.lookup p with
  | none => true
  | some n => n.isNull

/-- Whether the value at a place is of a kind; an empty place counts as null. -/
def isType (h : Heap) (p : Place) (k : Kind) : Bool :=
  k.acceptsSlot ((h.lookup p).map Node.kind)

/-- The node at a place unless it is null. -/
def present? (h : Heap) (p : Place) : Option Node :=
  (h.lookup p).filter fun n => !n.isNull

def hasKey (h : Heap) (o : ObjectRef) (key : String) : Bool :=
  (h.lookup (.key o key)).isSome

def length (h : Heap) : Storage → Nat
  | .array a => (h.items a).length
  | .object o => (h.entries o).length

end Heap
end DynamicData
