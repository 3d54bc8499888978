import DynamicData.Heap.Insertable
import DynamicData.Heap.Place
import DynamicData.Heap.Sharing

/-!
# Changing containers

Each operation takes a heap to the heap after it, or fails and leaves the heap as
it was. A value from which the container itself can be reached is refused, so no
container ever comes to lie below itself.
-/

namespace DynamicData

namespace Heap

/-! ## Objects -/

def put (h : Heap) (o : ObjectRef) (key : String) (v : Insertable) : Except DataError Heap :=
  let (h, n) := h.nodeOf v
  if h.reaches n (.object o) then .error .objectCycle
  else .ok (h.setEntries o ((h.entries o).insert key n))

def putNull (h : Heap) (o : ObjectRef) (key : String) : Heap :=
  h.setEntries o ((h.entries o).insert key .null)

def removeKey (h : Heap) (o : ObjectRef) (key : String) : Heap × Option Node :=
  (h.setEntries o ((h.entries o).erase key), (h.entries o).get? key)

def rename (h : Heap) (o : ObjectRef) (old new : String) : Heap :=
  h.setEntries o ((h.entries o).rename old new)

/-! ## Arrays -/

/-- Appends values, all of them or none. The values are at hand when this starts:
none of them is still to be produced, so that no container changes between the
admission of one and of the next. -/
def addAll (h : Heap) (a : ArrayRef) (vs : List Insertable) : Except DataError Heap :=
  let (h, nodes) := h.nodesOf vs
  if nodes.any fun n => h.reaches n (.array a) then .error .arrayCycle
  else .ok (h.setItems a (h.items a ++ nodes))

def add (h : Heap) (a : ArrayRef) (v : Insertable) : Except DataError Heap :=
  let (h, n) := h.nodeOf v
  if h.reaches n (.array a) then .error .arrayCycle
  else .ok (h.setItems a (h.items a ++ [n]))

/-- Appends the items that another array, or this one, has now. -/
def addAllOf (h : Heap) (a other : ArrayRef) : Except DataError Heap :=
  h.addAll a ((h.items other).map .node)

/-- Puts a value before the item at an index, or at the end. -/
def insertAt (h : Heap) (a : ArrayRef) (index : Nat) (v : Insertable) :
    Except DataError Heap :=
  let (h, n) := h.nodeOf v
  let items := h.items a
  if h.reaches n (.array a) then .error .arrayCycle
  else if items.length < index then .error (.indexOutOfBounds index items.length)
  else .ok (h.setItems a (items.insertIdx index n))

def setAt (h : Heap) (a : ArrayRef) (index : Nat) (v : Insertable) : Except DataError Heap :=
  let (h, n) := h.nodeOf v
  let items := h.items a
  if h.reaches n (.array a) then .error .arrayCycle
  else if index < items.length then .ok (h.setItems a (items.set index n))
  else .error (.indexOutOfBounds index items.length)

def removeAt (h : Heap) (a : ArrayRef) (index : Nat) : Except DataError (Heap × Node) :=
  let items := h.items a
  match items[index]? with
  | some n => .ok (h.setItems a (items.eraseIdx index), n)
  | none => .error (.indexOutOfBounds index items.length)

/-- Removes the first item equal to a value, and says whether there was one. -/
def removeValue (h : Heap) (a : ArrayRef) (v : Insertable) : Heap × Bool :=
  let (h, n) := h.nodeOf v
  let items := h.items a
  match items.findIdx? fun item => h.same item n with
  | some index => (h.setItems a (items.eraseIdx index), true)
  | none => (h, false)

end Heap
end DynamicData
