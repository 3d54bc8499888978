import DynamicData.Heap.Read
import DynamicData.Path.Basic
import DynamicData.Tree.Debug

/-!
# Following paths

A path is followed from a container. Each step but the last leads to a container
of the kind that the step after it asks for, and the last one to a place. An
optional step whose place is empty or null ends the walk without an error. Whatever
error arises on the way is reported with the path.
-/

namespace DynamicData

/-- Where following a path ends: at a place, or at an optional step that leads
nowhere. -/
inductive Destination
  | place (p : Place)
  | absent (location : Location)
  deriving DecidableEq, Repr

namespace Segment

def location : Segment → Location
  | .key k => .key k
  | .index i => .index i

end Segment

namespace DataError

def stepMismatch (s : Segment) (container : Kind) : DataError :=
  let step :=
    match s with
    | .key k => "Key(" ++ Debug.quote k ++ ")"
    | .index i => "Index(" ++ toString i ++ ")"
  .contract ("step " ++ step ++ " cannot address an " ++ container.name)

end DataError

namespace Storage

def place (c : Storage) (s : Segment) : Except DataError Place :=
  match c, s with
  | .object o, .key k => .ok (.key o k)
  | .array a, .index i => .ok (.index a i)
  | .object _, s => .error (.stepMismatch s .object)
  | .array _, s => .error (.stepMismatch s .array)

def ofRoot (root : Node) (first : Segment) : Except DataError Storage :=
  match root, first with
  | .object o, .key _ => .ok (.object o)
  | .array a, .index _ => .ok (.array a)
  | .object _, .index _ => .error .pathNeedsName
  | .array _, .key _ => .error .pathNeedsIndex
  | n, _ => .error (.pathFromScalar n.kind)

end Storage

namespace Heap

variable {α : Type}

/-- The container at a place, of the kind that the given step can be taken from. -/
def child (h : Heap) (p : Place) (following : Segment) : Except DataError Storage :=
  match following with
  | .key _ => (h.get .object p).map .object
  | .index _ => (h.get .array p).map .array

def walk (h : Heap) (c : Storage) : List Step → Except DataError Destination
  | [] => .error .pathWithoutSteps
  | [last] => do
    let p ← c.place last.segment
    if last.isOptional && h.isNull p then return .absent last.segment.location
    return .place p
  | step :: next :: rest => do
    let p ← c.place step.segment
    if step.isOptional && h.isNull p then return .absent step.segment.location
    walk h (← h.child p next.segment) (next :: rest)

def resolve (h : Heap) (path : Path) (root : Node) : Except DataError Destination :=
  match path.steps with
  | [] => .error .pathWithoutSteps
  | first :: rest => do h.walk (← Storage.ofRoot root first.segment) (first :: rest)

/-- The outcome of following a path, with the path put before an error. -/
def along (path : Path) (outcome : Except DataError α) : Except DataError α :=
  outcome.mapError fun e => e.atPath path.text

/-- The value a path leads to; absence and null are errors. -/
def getPath (h : Heap) (t : Target α) (path : Path) (root : Node) : Except DataError α :=
  along path do
    match ← h.resolve path root with
    | .absent location => throw (.missing location)
    | .place p => h.get t p

def getPathOr (h : Heap) (t : Target α) (fallback : α) (path : Path) (root : Node) :
    Except DataError α :=
  along path do
    match ← h.resolve path root with
    | .absent _ => return fallback
    | .place p => h.getOr t fallback p

def optPath (h : Heap) (t : Target α) (path : Path) (root : Node) :
    Except DataError (Option α) :=
  along path do
    match ← h.resolve path root with
    | .absent _ => return none
    | .place p => h.opt t p

end Heap
end DynamicData
