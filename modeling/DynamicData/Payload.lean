import DynamicData.Heap
import DynamicData.Json.Parse
import DynamicData.Json.Print
import DynamicData.Limits
import DynamicData.Term.Decode
import DynamicData.Term.Document

/-!
# Payloads

Documents come in as JSON or as terms, under limits on their size and nesting. The
size is checked before anything is read. The nesting of JSON is that of the finished
document; the term decoder counts as it goes. A JSON payload may also come from a
source, of which no more is read than it takes to know that it is too long.
-/

namespace DynamicData

namespace Document

def ofJson (limits : Limits) (payload : Bytes) : Except DataError Document := do
  limits.checkPayloadBytes payload.length
  match Json.parse payload with
  | .error fault => throw (.json (fault.text payload))
  | .ok d =>
    limits.checkNestingDepth d.depth
    return d

def ofBinary (limits : Limits) (payload : Bytes) : Except DataError Document := do
  limits.checkPayloadBytes payload.length
  match Term.decode limits.maxNestingDepth payload with
  | .error e => throw (.binary e.message)
  | .ok t =>
    match t.document with
    | .error e => throw (.binary e.message)
    | .ok d => return d

end Document

/-! ## Sources -/

/-- Bytes that arrive in chunks, after which the source ends or fails. -/
structure Source where
  chunks : List Bytes
  failure : Option String := none

namespace Source

/-- Reads at most `cap` bytes. A failure is met only if the source is asked for more
than its chunks hold, and a chunk that fills the rest of `cap` is the last. -/
def read (cap : Nat) : (chunks : List Bytes) → (failure : Option String) →
    Except DataError Bytes
  | [], none => .ok []
  | [], some message => if cap = 0 then .ok [] else .error (.io message)
  | chunk :: rest, failure =>
    if cap ≤ chunk.length then .ok (chunk.take cap)
    else do return chunk ++ (← read (cap - chunk.length) rest failure)

/-- How much of a source is read under limits: one byte more than is allowed, where
that is still a number of machine size. -/
def cap (limits : Limits) : Nat :=
  min (limits.maxPayloadBytes + 1) Limits.sizeMax

def payload (s : Source) (limits : Limits) : Except DataError Bytes :=
  read (cap limits) s.chunks s.failure

end Source

def Document.ofSource (limits : Limits) (s : Source) : Except DataError Document := do
  Document.ofJson limits (← s.payload limits)

/-! ## Payloads with a container at the root -/

namespace Document

/-- The entries of a document that is an object, or a message about what it is. -/
def entries : Document → Except String (Entries Document)
  | .object _ entries => .ok entries
  | d => .error (DataError.wrongRoot .object d.kind)

def items : Document → Except String (List Document)
  | .array _ items => .ok items
  | d => .error (DataError.wrongRoot .array d.kind)

/-- Reads a JSON payload whose root is judged as soon as it is read, before whatever
comes after it. The failure is a message; only a fault in the text has a place. -/
def judged {α : Type} (judge : Document → Except String α) (payload : Bytes) :
    Except String α := do
  let located {β : Type} (r : Except Json.Fault β) : Except String β :=
    r.mapError fun fault => fault.text payload
  let (d, rest) ← located (Json.value Json.maxDepth payload)
  let a ← judge d
  let _ ← located (Json.atEnd (pure ()) rest)
  return a

end Document

namespace Heap

def loadObject (h : Heap) (entries : Entries Document) : Heap × ObjectRef :=
  let (h, nodes) := h.buildEntries entries
  h.newObject nodes

def loadArray (h : Heap) (items : List Document) : Heap × ArrayRef :=
  let (h, nodes) := h.buildItems items
  h.newArray nodes

def objectOfJson (h : Heap) (limits : Limits) (payload : Bytes) :
    Except DataError (Heap × ObjectRef) := do
  return h.loadObject (← (← Document.ofJson limits payload).entries.mapError .json)

def arrayOfJson (h : Heap) (limits : Limits) (payload : Bytes) :
    Except DataError (Heap × ArrayRef) := do
  return h.loadArray (← (← Document.ofJson limits payload).items.mapError .json)

def objectOfSource (h : Heap) (limits : Limits) (s : Source) :
    Except DataError (Heap × ObjectRef) := do
  return h.loadObject (← (← Document.ofSource limits s).entries.mapError .json)

def arrayOfSource (h : Heap) (limits : Limits) (s : Source) :
    Except DataError (Heap × ArrayRef) := do
  return h.loadArray (← (← Document.ofSource limits s).items.mapError .json)

def objectOfBinary (h : Heap) (limits : Limits) (payload : Bytes) :
    Except DataError (Heap × ObjectRef) := do
  return h.loadObject (← (← Document.ofBinary limits payload).entries.mapError .binary)

def arrayOfBinary (h : Heap) (limits : Limits) (payload : Bytes) :
    Except DataError (Heap × ArrayRef) := do
  return h.loadArray (← (← Document.ofBinary limits payload).items.mapError .binary)

def toBinary (h : Heap) (n : Node) : Bytes :=
  Term.encode (h.tree n).term

def toJson (h : Heap) (n : Node) : Bytes :=
  Text.encode (h.tree n).compact

end Heap
end DynamicData
