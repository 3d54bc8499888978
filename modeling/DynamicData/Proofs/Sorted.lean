import DynamicData.Proofs.Text.Order
import DynamicData.Proofs.Tree
import Mathlib.Data.List.Forall2

/-!
# Sorted trees

A tree is sorted object by object, inside arrays as well. The entries of every object are put
in the order of their keys, which is the order of the bytes of the keys, and nothing else is
changed, added or lost.

The canonical form of a tree is what is left of it in a text with sorted keys: the sorted form
of what comes back from JSON.
-/

namespace DynamicData

open Text

namespace Entries

variable {α : Type} {es fs : Entries α}

/-! ## Entries -/

theorem sortByKey_perm (es : Entries α) : es.sortByKey.Perm es :=
  List.mergeSort_perm es _

theorem nodup_sortByKey (hes : es.keys.Nodup) : es.sortByKey.keys.Nodup :=
  ((sortByKey_perm es).map Prod.fst).nodup_iff.mpr hes

/-- Keys are compared and values are not. -/
theorem sortByKey_map {β : Type} (f : α → β) (es : Entries α) :
    sortByKey (es.map fun e => (e.1, f e.2)) = es.sortByKey.map fun e => (e.1, f e.2) :=
  (List.map_mergeSort (f := fun e : String × α => (e.1, f e.2)) fun _ _ _ _ => rfl).symm

/-- Every key comes before those behind it, byte by byte. -/
def Ascending (es : Entries α) : Prop :=
  es.keys.Pairwise fun k l => encode k < encode l

theorem ascending_sortByKey (hes : es.keys.Nodup) : es.sortByKey.Ascending := by
  have hsorted := List.pairwise_mergeSort keyOrder_trans keyOrder_total es
  have hdistinct := List.pairwise_map.mp (nodup_sortByKey hes)
  refine List.pairwise_map.mpr ((hsorted.and hdistinct).imp fun {e f} h => encode_lt_iff.mpr ?_)
  obtain ⟨hle, hne⟩ := h
  simp only [Bool.not_eq_true', decide_eq_false_iff_not, String.not_lt] at hle
  exact String.not_le.mp fun hge => hne (String.le_antisymm hle hge)

/-- Of all orders of the entries there is one in which the keys ascend. -/
theorem sortByKey_eq_of_ascending (hp : es.Perm fs) (hfs : fs.Ascending) : es.sortByKey = fs := by
  have hlt : fs.Pairwise fun e f => e.1 < f.1 :=
    List.pairwise_map.mp (hfs.imp encode_lt_iff.mp)
  have hnodup : fs.keys.Nodup :=
    List.pairwise_map.mpr (hlt.imp String.ne_of_lt)
  have hes : es.keys.Nodup := (hp.map Prod.fst).nodup_iff.mpr hnodup
  rw [sortByKey_eq_of_perm hes hp]
  refine List.mergeSort_of_pairwise (hlt.imp fun h => ?_)
  simp only [Bool.not_eq_true', decide_eq_false_iff_not]
  exact String.lt_asymm h

end Entries

namespace Tree

variable {ι : Type}

/-! ## Trees -/

theorem sortedItems_eq_map (items : List (Tree ι)) : sortedItems items = items.map sorted := by
  induction items with
  | nil => rfl
  | cons t rest ih => rw [sortedItems, ih, List.map_cons]

theorem sortedEntries_eq_map (entries : List (String × Tree ι)) :
    sortedEntries entries = entries.map fun e => (e.1, sorted e.2) := by
  induction entries with
  | nil => rfl
  | cons e rest ih => rw [sortedEntries, ih, List.map_cons]

theorem sorted_array (mark : ι) (items : List (Tree ι)) :
    sorted (.array mark items) = .array mark (items.map sorted) := by
  rw [sorted, sortedItems_eq_map]

theorem sorted_object (mark : ι) (entries : List (String × Tree ι)) :
    sorted (.object mark entries) =
      .object mark (Entries.sortByKey (entries.map fun e => (e.1, sorted e.2))) := by
  rw [sorted, sortedEntries_eq_map]

theorem depth_sorted (t : Tree ι) : t.sorted.depth = t.depth := by
  have hle : ∀ d, t.sorted.depth ≤ d ↔ t.depth ≤ d := by
    induction t using induction with
    | array mark items ih =>
        intro d
        cases d with
        | zero => rw [sorted, depth, depth, Nat.le_zero, Nat.le_zero]; omega
        | succ d =>
            rw [sorted_array, depth_array_le, depth_array_le, List.forall_mem_map]
            exact forall₂_congr fun t ht => ih t ht d
    | object mark entries ih =>
        intro d
        cases d with
        | zero => rw [sorted, depth, depth, Nat.le_zero, Nat.le_zero]; omega
        | succ d =>
            rw [sorted_object, depth_object_le, depth_object_le]
            simp only [(Entries.sortByKey_perm _).mem_iff]
            rw [List.forall_mem_map]
            exact forall₂_congr fun e he => ih e he d
    | _ => exact fun _ => Iff.rfl
  exact Nat.le_antisymm ((hle _).mpr (Nat.le_refl _)) ((hle _).mp (Nat.le_refl _))

theorem kind_sorted (t : Tree ι) : t.sorted.kind = t.kind := by
  cases t <;> rfl

theorem KeysDistinct.sorted {t : Tree ι} (ht : t.KeysDistinct) : t.sorted.KeysDistinct := by
  induction ht with
  | array mark parts ih =>
      rw [sorted_array]
      exact .array mark (List.forall_mem_map.mpr ih)
  | object mark nodup parts ih =>
      rw [sorted_object]
      refine .object mark (Entries.nodup_sortByKey (by rw [Entries.keys_map]; exact nodup)) ?_
      intro e he
      obtain ⟨f, hf, rfl⟩ := List.mem_map.mp ((Entries.sortByKey_perm _).mem_iff.mp he)
      exact ih f hf
  | null => exact .null
  | bool b => exact .bool b
  | int i => exact .int i
  | uint u => exact .uint u
  | float x => exact .float x
  | text s => exact .text s

/-- The second tree is the first one with the entries of every object, inside arrays as well,
in ascending order of the bytes of their keys. Items stay where they are, and the entries are
the same entries, each with its value sorted. -/
inductive SortsTo : Tree ι → Tree ι → Prop
  | scalar {t : Tree ι} (ht : t.depth = 0) : SortsTo t t
  | array (mark : ι) {items sorted : List (Tree ι)} (parts : List.Forall₂ SortsTo items sorted) :
      SortsTo (.array mark items) (.array mark sorted)
  | object (mark : ι) {entries mid sorted : Entries (Tree ι)} (keys : mid.keys = entries.keys)
      (parts : List.Forall₂ SortsTo entries.values mid.values) (perm : sorted.Perm mid)
      (ascending : sorted.Ascending) : SortsTo (.object mark entries) (.object mark sorted)

theorem KeysDistinct.sortsTo {t : Tree ι} (ht : t.KeysDistinct) : t.SortsTo t.sorted := by
  induction ht with
  | array mark parts ih =>
      rw [sorted_array]
      exact .array mark (List.forall₂_map_right_iff.mpr (List.forall₂_same.mpr ih))
  | object mark nodup parts ih =>
      rw [sorted_object]
      refine .object mark (Entries.keys_map _ _) ?_ (Entries.sortByKey_perm _)
        (Entries.ascending_sortByKey (by rw [Entries.keys_map]; exact nodup))
      rw [Entries.values, Entries.values, List.forall₂_map_left_iff, List.forall₂_map_right_iff,
        List.forall₂_map_right_iff]
      exact List.forall₂_same.mpr ih
  | _ => exact .scalar rfl

/-! ## Images -/

/-- A tree can be sorted before its words and doubles are replaced, or after. -/
theorem image_sorted {uint : UInt64 → Document} {float : Binary64 → Document}
    (huint : ∀ u, (uint u).sorted = uint u) (hfloat : ∀ x, (float x).sorted = float x)
    (t : Tree ι) : t.sorted.image uint float = (t.image uint float).sorted := by
  induction t using induction with
  | array mark items ih =>
      rw [sorted_array, image_array, image_array, sorted_array, List.map_map, List.map_map]
      exact congrArg (Tree.array ()) (List.map_congr_left ih)
  | object mark entries ih =>
      have hmap : entries.map (fun e => (e.1, e.2.sorted.image uint float)) =
          entries.map fun e => (e.1, (e.2.image uint float).sorted) :=
        List.map_congr_left fun e he => by rw [ih e he]
      rw [sorted_object, image_object, image_object, sorted_object, ← Entries.sortByKey_map,
        List.map_map, List.map_map]
      exact congrArg (fun es => Tree.object () (Entries.sortByKey es)) hmap
  | uint u => exact (huint u).symm
  | float x => exact (hfloat x).symm
  | _ => rfl

/-- What is left of a tree in a JSON text with sorted keys. -/
def canonical (t : Tree ι) : Document :=
  t.jsonForm.sorted

theorem canonical_uint (u : UInt64) : canonical (.uint u : Tree ι) = unsigned u := by
  show (unsigned u : Document).sorted = _
  unfold unsigned
  split <;> rfl

theorem canonical_array (mark : ι) (items : List (Tree ι)) :
    canonical (.array mark items) = .array () (items.map canonical) := by
  rw [canonical, jsonForm_array, sorted_array, List.map_map]
  rfl

theorem canonical_object (mark : ι) (entries : List (String × Tree ι)) :
    canonical (.object mark entries) =
      .object () (Entries.sortByKey (entries.map fun e => (e.1, canonical e.2))) := by
  rw [canonical, jsonForm_object, sorted_object, List.map_map]
  rfl

theorem jsonForm_sorted (t : Tree ι) : t.sorted.jsonForm = t.canonical := by
  refine image_sorted (fun u => ?_) (fun x => ?_) t
  · unfold unsigned
    split <;> rfl
  · split <;> rfl

end Tree
end DynamicData
