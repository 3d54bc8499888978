import DynamicData.Proofs.Term.Merged
import DynamicData.Proofs.Term.Written

/-!
# Trees carried by terms

The term of a tree carries the tree itself, up to the form of unsigned words that fit
in the signed form, with the entries of each object in their order. If no text and no container in the tree is too large for a length
field, the term is written without loss.
-/

namespace DynamicData

namespace Tree

variable {ι : Type}

/-- Every text, key and container of the tree has a length of at most 32 bits. -/
inductive Sized : Tree ι → Prop
  | null : Sized .null
  | bool (b : Bool) : Sized (.bool b)
  | int (i : Int64) : Sized (.int i)
  | uint (u : UInt64) : Sized (.uint u)
  | float (x : Binary64) : Sized (.float x)
  | text {s : String} (short : (Text.encode s).length < 2 ^ 32) : Sized (.text s)
  | array (mark : ι) {items : List (Tree ι)} (short : items.length < 2 ^ 32)
      (parts : ∀ t ∈ items, Sized t) : Sized (.array mark items)
  | object (mark : ι) {entries : List (String × Tree ι)} (short : entries.length < 2 ^ 32)
      (keys : ∀ e ∈ entries, (Text.encode e.1).length < 2 ^ 32)
      (parts : ∀ e ∈ entries, Sized e.2) : Sized (.object mark entries)

theorem termItems_eq_map (items : List (Tree ι)) : termItems items = items.map term := by
  induction items with
  | nil => rfl
  | cons t rest ih => rw [termItems, ih, List.map_cons]

theorem termEntries_eq_map (entries : List (String × Tree ι)) :
    termEntries entries = entries.map fun e => (.ofText e.1, e.2.term) := by
  induction entries with
  | nil => rfl
  | cons e rest ih => rw [termEntries, ih, List.map_cons]

/-- The term of a tree nests as the tree does. -/
theorem Sized.writable {t : Tree ι} (ht : t.Sized) {d : Nat} (hd : t.depth ≤ d) :
    t.term.Writable d := by
  induction ht generalizing d with
  | null => exact .nil
  | bool b => exact .bool b
  | int i =>
      have := i.le_toInt
      have := i.toInt_lt
      exact .integer (by omega) (by omega)
  | uint u =>
      have := u.toNat_lt
      exact .integer (by omega) (by omega)
  | float x => exact .float x
  | text short => exact .binary short
  | @array mark items short parts ih =>
      cases d with
      | zero => exact absurd hd (by rw [depth]; omega)
      | succ d =>
          rw [depth_array_le] at hd
          rw [term, termItems_eq_map]
          refine .list (by rwa [List.length_map]) fun u hu => ?_
          obtain ⟨t, ht, rfl⟩ := List.mem_map.mp hu
          exact ih t ht (hd t ht)
  | @object mark entries short keys parts ih =>
      cases d with
      | zero => exact absurd hd (by rw [depth]; omega)
      | succ d =>
          rw [depth_object_le] at hd
          rw [term, termEntries_eq_map]
          refine .map (by rwa [List.length_map]) (fun p hp => ?_) fun p hp => ?_
          · obtain ⟨e, he, rfl⟩ := List.mem_map.mp hp
            exact .binary (keys e he)
          · obtain ⟨e, he, rfl⟩ := List.mem_map.mp hp
            exact ih e he (hd e he)

end Tree

namespace Term

open DynamicData.Tree

variable {ι : Type}

theorem carriesItems_map {items : List (Tree ι)}
    (hcarries : ∀ t ∈ items, Carries t.term t.termForm) :
    CarriesItems (items.map Tree.term) (items.map Tree.termForm) := by
  induction items with
  | nil => exact .nil
  | cons t rest ih =>
      rw [List.forall_mem_cons] at hcarries
      exact .cons hcarries.1 (ih hcarries.2)

theorem carriesPairs_map {entries : List (String × Tree ι)}
    (hcarries : ∀ e ∈ entries, Carries e.2.term e.2.termForm) :
    CarriesPairs (entries.map fun e => (.ofText e.1, e.2.term))
      (entries.map fun e => (e.1, e.2.termForm)) := by
  induction entries with
  | nil => exact .nil
  | cons e rest ih =>
      rw [List.forall_mem_cons] at hcarries
      exact .cons (.binary e.1) hcarries.1 (ih hcarries.2)

theorem carries_unsigned (u : UInt64) : Carries (.integer u.toNat) (Tree.unsigned u) := by
  unfold Tree.unsigned
  split
  · next hsigned =>
      rw [← Int64.toInt_ofNat_of_lt hsigned]
      exact .int _
  · next hlarge => exact .uint (Nat.not_lt.mp hlarge)

/-- The term of a tree carries the tree. -/
theorem carries_term (t : Tree ι) : Carries t.term t.termForm := by
  induction t using Tree.induction with
  | null => exact .null
  | bool b => exact .bool b
  | int i => exact .int i
  | uint u => exact carries_unsigned u
  | float x => exact .float x
  | text s => exact .text (.binary s)
  | array mark items ih =>
      rw [term, termItems_eq_map, termForm, image_array]
      exact .list (carriesItems_map ih)
  | object mark entries ih =>
      rw [term, termEntries_eq_map, termForm, image_object]
      exact .map (carriesPairs_map ih)

/-- Keys that are distinct stay where they are. -/
theorem document_term {t : Tree ι} (ht : t.KeysDistinct) : t.term.document = .ok t.termForm := by
  rw [(carries_term t).document, ht.termForm.merged_eq]

end Term
end DynamicData
