import DynamicData.Proofs.Entries
import DynamicData.Tree

/-!
# Induction over trees, and their images

An `image` is a document of the same shape: marks are dropped, unsigned words and
doubles are replaced and all else stays. The plain form of a tree, what comes back
from JSON and what comes back from the term format are all images. `KeysDistinct`
says that no object anywhere in the tree has a key twice, and `EveryDouble` that all doubles
in the tree have some property.
-/

namespace DynamicData.Tree

variable {ι : Type}

/-- What holds of scalars, and of a container when it holds of everything directly
inside it, holds of every tree. -/
theorem induction {P : Tree ι → Prop} (null : P .null) (bool : ∀ b, P (.bool b))
    (int : ∀ i, P (.int i)) (uint : ∀ u, P (.uint u)) (float : ∀ x, P (.float x))
    (text : ∀ s, P (.text s))
    (array : ∀ mark items, (∀ t ∈ items, P t) → P (.array mark items))
    (object : ∀ mark entries, (∀ e ∈ entries, P e.2) → P (.object mark entries))
    (t : Tree ι) : P t := by
  refine @Tree.rec ι P (fun items => ∀ t ∈ items, P t)
    (fun entries => ∀ e ∈ entries, P e.2) (fun e => P e.2)
    null bool int uint float text array object ?_ ?_ ?_ ?_ ?_ t
  · exact fun _ ht => absurd ht List.not_mem_nil
  · intro t rest ht hrest u hu
    rcases List.mem_cons.mp hu with rfl | hu
    · exact ht
    · exact hrest u hu
  · exact fun _ he => absurd he List.not_mem_nil
  · intro e rest he hrest f hf
    rcases List.mem_cons.mp hf with rfl | hf
    · exact he
    · exact hrest f hf
  · exact fun _ _ ht => ht

/-! ## Depth -/

theorem depthOfItems_le {d : Nat} {items : List (Tree ι)} :
    depthOfItems items ≤ d ↔ ∀ t ∈ items, t.depth ≤ d := by
  induction items with
  | nil => simp [depthOfItems]
  | cons t rest ih => rw [depthOfItems, Nat.max_le, ih, List.forall_mem_cons]

theorem depthOfEntries_le {d : Nat} {entries : List (String × Tree ι)} :
    depthOfEntries entries ≤ d ↔ ∀ e ∈ entries, e.2.depth ≤ d := by
  induction entries with
  | nil => simp [depthOfEntries]
  | cons e rest ih =>
      obtain ⟨k, t⟩ := e
      rw [depthOfEntries, Nat.max_le, ih, List.forall_mem_cons]

theorem depth_array_le {d : Nat} {mark : ι} {items : List (Tree ι)} :
    (Tree.array mark items).depth ≤ d + 1 ↔ ∀ t ∈ items, t.depth ≤ d := by
  rw [depth, Nat.add_comm, Nat.add_le_add_iff_right, depthOfItems_le]

theorem depth_object_le {d : Nat} {mark : ι} {entries : List (String × Tree ι)} :
    (Tree.object mark entries).depth ≤ d + 1 ↔ ∀ e ∈ entries, e.2.depth ≤ d := by
  rw [depth, Nat.add_comm, Nat.add_le_add_iff_right, depthOfEntries_le]

/-! ## Images -/

mutual

/-- The document of the same shape with its unsigned words and doubles replaced. -/
def image (uint : UInt64 → Document) (float : Binary64 → Document) : Tree ι → Document
  | .null => .null
  | .bool b => .bool b
  | .int i => .int i
  | .uint u => uint u
  | .float x => float x
  | .text s => .text s
  | .array _ items => .array () (imageOfItems uint float items)
  | .object _ entries => .object () (imageOfEntries uint float entries)

/-- The images of the items. -/
def imageOfItems (uint : UInt64 → Document) (float : Binary64 → Document) :
    List (Tree ι) → List Document
  | [] => []
  | t :: rest => image uint float t :: imageOfItems uint float rest

/-- The images of the values, under their keys. -/
def imageOfEntries (uint : UInt64 → Document) (float : Binary64 → Document) :
    List (String × Tree ι) → List (String × Document)
  | [] => []
  | (k, t) :: rest => (k, image uint float t) :: imageOfEntries uint float rest

end

/-- The tree without its marks. -/
def bare (t : Tree ι) : Document :=
  t.image .uint .float

/-- What comes back from the term format: an unsigned word that fits is signed. -/
def termForm (t : Tree ι) : Document :=
  t.image .unsigned .float

/-- What comes back from JSON: as from the term format, and a double that is not
finite is null. -/
def jsonForm (t : Tree ι) : Document :=
  t.image .unsigned fun x => if x.isFinite then .float x else .null

section
variable (uint : UInt64 → Document) (float : Binary64 → Document)

theorem imageOfItems_eq_map (items : List (Tree ι)) :
    imageOfItems uint float items = items.map (image uint float) := by
  induction items with
  | nil => rfl
  | cons t rest ih => rw [imageOfItems, ih, List.map_cons]

theorem imageOfEntries_eq_map (entries : List (String × Tree ι)) :
    imageOfEntries uint float entries = entries.map fun e => (e.1, image uint float e.2) := by
  induction entries with
  | nil => rfl
  | cons e rest ih => rw [imageOfEntries, ih, List.map_cons]

theorem image_array (mark : ι) (items : List (Tree ι)) :
    image uint float (.array mark items) = .array () (items.map (image uint float)) := by
  rw [image, imageOfItems_eq_map]

theorem image_object (mark : ι) (entries : List (String × Tree ι)) :
    image uint float (.object mark entries) =
      .object () (entries.map fun e => (e.1, image uint float e.2)) := by
  rw [image, imageOfEntries_eq_map]

end

/-- An image nests as deeply as its tree, if no word or double turns into a container. -/
theorem depth_image {uint : UInt64 → Document} {float : Binary64 → Document}
    (huint : ∀ u, (uint u).depth = 0) (hfloat : ∀ x, (float x).depth = 0) (t : Tree ι) :
    (t.image uint float).depth = t.depth := by
  -- the depth of a container is known by its upper bounds
  have hle : ∀ d, (t.image uint float).depth ≤ d ↔ t.depth ≤ d := by
    induction t using induction with
    | null => exact fun _ => Iff.rfl
    | bool b => exact fun _ => Iff.rfl
    | int i => exact fun _ => Iff.rfl
    | text s => exact fun _ => Iff.rfl
    | uint u => exact fun _ => by rw [image, huint, depth]
    | float x => exact fun _ => by rw [image, hfloat, depth]
    | array mark items ih =>
        intro d
        cases d with
        | zero => rw [image, depth, depth, Nat.le_zero, Nat.le_zero]; omega
        | succ d =>
            rw [image_array, depth_array_le, depth_array_le, List.forall_mem_map]
            exact forall₂_congr fun t ht => ih t ht d
    | object mark entries ih =>
        intro d
        cases d with
        | zero => rw [image, depth, depth, Nat.le_zero, Nat.le_zero]; omega
        | succ d =>
            rw [image_object, depth_object_le, depth_object_le, List.forall_mem_map]
            exact forall₂_congr fun e he => ih e he d
  exact Nat.le_antisymm ((hle _).mpr (Nat.le_refl _)) ((hle _).mp (Nat.le_refl _))

theorem depth_unsigned (u : UInt64) : (Tree.unsigned u : Document).depth = 0 := by
  unfold unsigned
  split <;> rfl

theorem depth_jsonForm (t : Tree ι) : t.jsonForm.depth = t.depth := by
  refine depth_image depth_unsigned (fun x => ?_) t
  split <;> rfl

theorem bare_array (mark : ι) (items : List (Tree ι)) :
    bare (.array mark items) = .array () (items.map bare) :=
  image_array _ _ mark items

theorem bare_object (mark : ι) (entries : List (String × Tree ι)) :
    bare (.object mark entries) = .object () (entries.map fun e => (e.1, bare e.2)) :=
  image_object _ _ mark entries

theorem jsonForm_array (mark : ι) (items : List (Tree ι)) :
    jsonForm (.array mark items) = .array () (items.map jsonForm) :=
  image_array _ _ mark items

theorem jsonForm_object (mark : ι) (entries : List (String × Tree ι)) :
    jsonForm (.object mark entries) = .object () (entries.map fun e => (e.1, jsonForm e.2)) :=
  image_object _ _ mark entries

/-- A document has no marks to drop. -/
theorem bare_document (d : Document) : d.bare = d := by
  induction d using induction with
  | array mark items ih => rw [bare_array, List.map_congr_left ih, List.map_id']
  | object mark entries ih =>
      have hmap : entries.map (fun e => (e.1, bare e.2)) = entries.map id :=
        List.map_congr_left fun e he => by rw [ih e he]; rfl
      rw [bare_object, hmap, List.map_id]
  | _ => rfl

/-! ## Distinct keys -/

/-- No object of the tree has a key twice. -/
inductive KeysDistinct : Tree ι → Prop
  | null : KeysDistinct .null
  | bool (b : Bool) : KeysDistinct (.bool b)
  | int (i : Int64) : KeysDistinct (.int i)
  | uint (u : UInt64) : KeysDistinct (.uint u)
  | float (x : Binary64) : KeysDistinct (.float x)
  | text (s : String) : KeysDistinct (.text s)
  | array (mark : ι) {items : List (Tree ι)} (parts : ∀ t ∈ items, KeysDistinct t) :
      KeysDistinct (.array mark items)
  | object (mark : ι) {entries : List (String × Tree ι)}
      (nodup : (Entries.keys entries).Nodup) (parts : ∀ e ∈ entries, KeysDistinct e.2) :
      KeysDistinct (.object mark entries)

/-- An image has the keys of its tree. -/
theorem KeysDistinct.image {uint : UInt64 → Document} {float : Binary64 → Document}
    (huint : ∀ u, (uint u).KeysDistinct) (hfloat : ∀ x, (float x).KeysDistinct) {t : Tree ι}
    (ht : t.KeysDistinct) : (t.image uint float).KeysDistinct := by
  induction ht with
  | null => exact .null
  | bool b => exact .bool b
  | int i => exact .int i
  | uint u => exact huint u
  | float x => exact hfloat x
  | text s => exact .text s
  | array mark parts ih =>
      rw [image_array]
      refine .array () fun d hd => ?_
      obtain ⟨t, ht, rfl⟩ := List.mem_map.mp hd
      exact ih t ht
  | object mark nodup parts ih =>
      rw [image_object]
      refine .object () ?_ fun d hd => ?_
      · rw [Entries.keys_map]
        exact nodup
      · obtain ⟨e, he, rfl⟩ := List.mem_map.mp hd
        exact ih e he

theorem keysDistinct_unsigned (u : UInt64) : KeysDistinct (Tree.unsigned u : Tree ι) := by
  unfold unsigned
  split
  · exact .int _
  · exact .uint u

theorem KeysDistinct.termForm {t : Tree ι} (ht : t.KeysDistinct) : t.termForm.KeysDistinct :=
  ht.image keysDistinct_unsigned .float

theorem KeysDistinct.jsonForm {t : Tree ι} (ht : t.KeysDistinct) : t.jsonForm.KeysDistinct := by
  apply ht.image keysDistinct_unsigned
  intro x
  split
  · exact .float x
  · exact .null

/-! ## Doubles -/

/-- Every double of the tree has a property. -/
inductive EveryDouble (p : Binary64 → Prop) : Tree ι → Prop
  | null : EveryDouble p .null
  | bool (b : Bool) : EveryDouble p (.bool b)
  | int (i : Int64) : EveryDouble p (.int i)
  | uint (u : UInt64) : EveryDouble p (.uint u)
  | float {x : Binary64} (hx : p x) : EveryDouble p (.float x)
  | text (s : String) : EveryDouble p (.text s)
  | array (mark : ι) {items : List (Tree ι)} (parts : ∀ t ∈ items, EveryDouble p t) :
      EveryDouble p (.array mark items)
  | object (mark : ι) {entries : List (String × Tree ι)}
      (parts : ∀ e ∈ entries, EveryDouble p e.2) : EveryDouble p (.object mark entries)

end DynamicData.Tree
