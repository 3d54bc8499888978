import DynamicData.Tree

/-!
# The heap of shared containers

A `Node` is a value as a program holds it: a scalar, or a reference to an array
or object in a `Heap`. Copying a node copies the reference, so changes made
through one holder are seen by all. `Heap.tree` reads off the tree below a node,
and `Heap.build` puts a tree into fresh storage.
-/

namespace DynamicData

structure ArrayRef where
  index : Nat
  deriving DecidableEq, Repr, Inhabited

structure ObjectRef where
  index : Nat
  deriving DecidableEq, Repr, Inhabited

inductive Storage
  | array (r : ArrayRef)
  | object (r : ObjectRef)
  deriving DecidableEq, Repr

/-- A value, with containers by reference. -/
inductive Node
  | null
  | bool (b : Bool)
  | int (i : Int64)
  | uint (u : UInt64)
  | float (x : Binary64)
  | text (s : String)
  | array (r : ArrayRef)
  | object (r : ObjectRef)
  deriving DecidableEq, Repr, Inhabited

namespace Node

def kind : Node → Kind
  | .null => .null
  | .bool _ => .boolean
  | .int _ | .uint _ => .integer
  | .float _ => .float
  | .text _ => .string
  | .array _ => .array
  | .object _ => .object

def isNull : Node → Bool
  | .null => true
  | _ => false

/-- The integer node of an unsigned word: signed if it fits. -/
def unsigned (u : UInt64) : Node :=
  if u.toNat < 2 ^ 63 then .int (Int64.ofNat u.toNat) else .uint u

end Node

/-- The contents of every array and object made so far. -/
structure Heap where
  arrays : Array (List Node)
  objects : Array (Entries Node)

namespace Heap

def empty : Heap := ⟨#[], #[]⟩

def size (h : Heap) : Nat :=
  h.arrays.size + h.objects.size

def items (h : Heap) (r : ArrayRef) : List Node :=
  h.arrays.getD r.index []

def entries (h : Heap) (r : ObjectRef) : Entries Node :=
  h.objects.getD r.index []

def setItems (h : Heap) (r : ArrayRef) (items : List Node) : Heap :=
  { h with arrays := h.arrays.setIfInBounds r.index items }

def setEntries (h : Heap) (r : ObjectRef) (entries : Entries Node) : Heap :=
  { h with objects := h.objects.setIfInBounds r.index entries }

def newArray (h : Heap) (items : List Node) : Heap × ArrayRef :=
  ({ h with arrays := h.arrays.push items }, ⟨h.arrays.size⟩)

def newObject (h : Heap) (entries : Entries Node) : Heap × ObjectRef :=
  ({ h with objects := h.objects.push entries }, ⟨h.objects.size⟩)

/-! ## Reading off trees -/

/-- The tree below a node, cut off after `fuel` containers on a path. -/
def unfold (h : Heap) : (fuel : Nat) → Node → Tree Storage
  | _, .null => .null
  | _, .bool b => .bool b
  | _, .int i => .int i
  | _, .uint u => .uint u
  | _, .float x => .float x
  | _, .text s => .text s
  | 0, .array _ => .null
  | 0, .object _ => .null
  | fuel + 1, .array r => .array (.array r) ((h.items r).map (unfold h fuel))
  | fuel + 1, .object r =>
    .object (.object r) ((h.entries r).map fun e => (e.1, unfold h fuel e.2))

/-- The tree below a node. Where no container is below itself, a path meets each
container at most once, so the number of containers is fuel enough. -/
def tree (h : Heap) (n : Node) : Tree Storage :=
  h.unfold h.size n

/-! ## Fresh storage -/

mutual

/-- Puts a tree into fresh storage, children before their container. -/
def build {ι : Type} (h : Heap) : Tree ι → Heap × Node
  | .null => (h, .null)
  | .bool b => (h, .bool b)
  | .int i => (h, .int i)
  | .uint u => (h, .uint u)
  | .float x => (h, .float x)
  | .text s => (h, .text s)
  | .array _ items =>
    let (h, nodes) := buildItems h items
    let (h, r) := h.newArray nodes
    (h, .array r)
  | .object _ entries =>
    let (h, nodes) := buildEntries h entries
    let (h, r) := h.newObject nodes
    (h, .object r)

def buildItems {ι : Type} (h : Heap) : List (Tree ι) → Heap × List Node
  | [] => (h, [])
  | t :: rest =>
    let (h, node) := build h t
    let (h, nodes) := buildItems h rest
    (h, node :: nodes)

def buildEntries {ι : Type} (h : Heap) : List (String × Tree ι) → Heap × Entries Node
  | [] => (h, [])
  | (k, t) :: rest =>
    let (h, node) := build h t
    let (h, nodes) := buildEntries h rest
    (h, (k, node) :: nodes)

end

/-- A copy of a node that shares no storage with it, nor one part of the copy
with another. -/
def deepCopy (h : Heap) (n : Node) : Heap × Node :=
  h.build (h.tree n)

end Heap
end DynamicData
