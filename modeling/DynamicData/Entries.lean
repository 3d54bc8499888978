/-!
# Entries in insertion order

The contents of an object: pairs of a key and a value, each key once, in the
order in which the keys first came. Writing to a present key keeps its place;
removing one closes the gap.
-/

namespace DynamicData

/-- Keyed values in insertion order. -/
abbrev Entries (α : Type) := List (String × α)

namespace Entries

variable {α : Type}

def get? (key : String) : Entries α → Option α
  | [] => none
  | (k, v) :: rest => if k = key then some v else get? key rest

/-- Replaces the value under `key`, or appends the pair. -/
def insert (key : String) (value : α) : Entries α → Entries α
  | [] => [(key, value)]
  | (k, v) :: rest =>
    if k = key then (k, value) :: rest else (k, v) :: insert key value rest

/-- Removes the first pair under `key`. -/
def erase (key : String) : Entries α → Entries α
  | [] => []
  | (k, v) :: rest => if k = key then rest else (k, v) :: erase key rest

/-- Moves the value under `old` to `new`, if there is one. -/
def rename (old new : String) (es : Entries α) : Entries α :=
  if old = new then es
  else
    match es.get? old with
    | none => es
    | some v => (es.erase old).insert new v

/-- The entries left by inserting the pairs one after the other. -/
def ofPairs (pairs : List (String × α)) : Entries α :=
  pairs.foldl (fun es p => es.insert p.1 p.2) []

def keys (es : Entries α) : List String :=
  es.map Prod.fst

def values (es : Entries α) : List α :=
  es.map Prod.snd

def sortByKey (es : Entries α) : Entries α :=
  es.mergeSort fun a b => !decide (b.1 < a.1)

@[simp] theorem get?_insert (key k : String) (v : α) (es : Entries α) :
    (es.insert k v).get? key = if k = key then some v else es.get? key := by
  induction es with
  | nil => rfl
  | cons e rest ih =>
      obtain ⟨k', v'⟩ := e
      by_cases hk : k' = k
      · subst hk
        by_cases h : k' = key <;> simp [insert, get?, h]
      · by_cases h : k' = key
        · subst h
          simp [insert, get?, hk, Ne.symm hk]
        · simp [insert, get?, hk, h, ih]

end Entries
end DynamicData
