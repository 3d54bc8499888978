import DynamicData.Heap.Place
import DynamicData.Heap.Target

/-!
# Typed reads

`Heap.coerce` reads a node as a target. A read of a place is required (`get`), has a
fallback (`getOr`), or is optional (`opt`); null and absence are settled before any
conversion, so a fallback never hides a value that is there.
-/

namespace DynamicData

namespace Heap

variable {α : Type}

/-- Reads a node as a target: as it is, else a text by what it denotes, else a number
by narrowing. -/
def coerce (h : Heap) (t : Target α) (location : Location) (n : Node) : Except DataError α :=
  match t.exact h n with
  | some a => .ok a
  | none =>
    match n with
    | .text s =>
      match t.ofText s with
      | some a => .ok a
      | none => .error (.invalidText location t.name s)
    | _ =>
      match n.numeric?.bind t.ofNumber with
      | some a => .ok a
      | none => .error (.typeMismatch location t.name n.kind (h.tree n).compact)

/-- The value at a place; absence and null are errors. -/
def get (h : Heap) (t : Target α) (p : Place) : Except DataError α :=
  match h.lookup p with
  | none => .error (h.absence p)
  | some .null => .error (.null p.location)
  | some n => h.coerce t p.location n

def getOr (h : Heap) (t : Target α) (fallback : α) (p : Place) : Except DataError α :=
  match h.lookup p with
  | none => .ok fallback
  | some .null => .ok fallback
  | some n => h.coerce t p.location n

def opt (h : Heap) (t : Target α) (p : Place) : Except DataError (Option α) :=
  match h.lookup p with
  | none => .ok none
  | some .null => .ok none
  | some n => (h.coerce t p.location n).map some

/-- A read of every item of an array. -/
def stream {β : Type} (h : Heap) (a : ArrayRef) (read : Place → β) : List β :=
  (List.range (h.items a).length).map fun i => read (.index a i)

end Heap
end DynamicData
