import DynamicData.Heap
import DynamicData.Time.DateTime

/-!
# What can be put into a container

An `Insertable` is a value as a caller supplies it. Before it is stored it becomes
a node: scalars in their stored form, containers by reference, optional values as
null or what they hold, and a list of values as a fresh array.
-/

namespace DynamicData

/-- How a value of a caller's own type presents itself: as the container it wraps,
or as a plain node. -/
inductive Capability
  | object (o : ObjectRef)
  | array (a : ArrayRef)
  | raw (n : Node)
  deriving DecidableEq, Repr

namespace Capability

def node : Capability → Node
  | .object o => .object o
  | .array a => .array a
  | .raw n => n

def ofNode : Node → Capability
  | .object o => .object o
  | .array a => .array a
  | n => .raw n

theorem node_ofNode (n : Node) : (ofNode n).node = n := by
  cases n <;> rfl

end Capability

inductive Insertable where
  | bool (b : Bool)
  | signed (i : Int64)
  | unsigned (u : UInt64)
  | single (x : Binary32)
  | double (x : Binary64)
  | text (s : String)
  | char (c : Char)
  | dateTime (t : OffsetDateTime)
  | node (n : Node)
  | capability (c : Capability)
  | none
  | some (v : Insertable)
  | list (vs : List Insertable)

namespace Heap

mutual

/-- The node of a value, with fresh arrays for its lists. -/
def nodeOf (h : Heap) : Insertable → Heap × Node
  | .bool b => (h, .bool b)
  | .signed i => (h, .int i)
  | .unsigned u => (h, .unsigned u)
  | .single x => (h, .float x.widen)
  | .double x => (h, .float x)
  | .text s => (h, .text s)
  | .char c => (h, .text c.toString)
  | .dateTime t => (h, .text t.text)
  | .node n => (h, n)
  | .capability c => (h, c.node)
  | .none => (h, .null)
  | .some v => nodeOf h v
  | .list vs =>
    let (h, nodes) := nodesOf h vs
    let (h, a) := h.newArray nodes
    (h, .array a)

def nodesOf (h : Heap) : List Insertable → Heap × List Node
  | [] => (h, [])
  | v :: rest =>
    let (h, n) := nodeOf h v
    let (h, nodes) := nodesOf h rest
    (h, n :: nodes)

end

end Heap
end DynamicData
