import DynamicData.Proofs.Entries
import DynamicData.Proofs.Tree
import Mathlib.Data.List.Induction

/-!
# Pairs with repeated keys

Where keys come again, the pairs stand for the entries that `Entries.merge` describes without
going through them: each key once, in the order in which the keys first come, with the value
that it comes with last. Inserting the pairs one after the other gives these entries. A
document may repeat keys in any object; `Tree.merged` merges all of them.
-/

namespace DynamicData

namespace Entries

variable {α : Type}

/-- The pairs with each key once, at its first place and with its last value. -/
def merge (pairs : List (String × α)) : Entries α :=
  (pairs.map Prod.fst).eraseDups.filterMap fun key =>
    (pairs.reverse.lookup key).map fun v => (key, v)

/-! ## Inserting one pair after the other -/

theorem ofPairs_concat (pairs : List (String × α)) (p : String × α) :
    ofPairs (pairs ++ [p]) = (ofPairs pairs).insert p.1 p.2 := by
  rw [ofPairs, List.foldl_append]
  rfl

theorem keys_ofPairs (pairs : List (String × α)) :
    (ofPairs pairs).keys = (pairs.map Prod.fst).eraseDups := by
  induction pairs using List.reverseRecOn with
  | nil => rfl
  | append_singleton pairs p ih =>
      rw [ofPairs_concat, keys_insert, ih, List.map_append, List.eraseDups_append]
      by_cases hp : p.1 ∈ pairs.map Prod.fst
      · simp [hp, List.removeAll]
      · simp [hp, List.removeAll, List.eraseDups_cons]

theorem get?_ofPairs (pairs : List (String × α)) (key : String) :
    (ofPairs pairs).get? key = pairs.reverse.lookup key := by
  induction pairs using List.reverseRecOn with
  | nil => rfl
  | append_singleton pairs p ih =>
      rw [ofPairs_concat, get?_insert, ih, List.reverse_append, List.reverse_singleton,
        List.singleton_append, List.lookup_cons]
      by_cases h : p.1 = key
      · simp [h]
      · simp [h, beq_false_of_ne (Ne.symm h)]

theorem map_insert {β : Type} (f : α → β) (key : String) (v : α) (es : Entries α) :
    (es.insert key v).map (fun e => (e.1, f e.2)) =
      insert key (f v) (es.map fun e => (e.1, f e.2)) := by
  induction es with
  | nil => rfl
  | cons e rest ih =>
      rw [insert, List.map_cons, insert]
      split
      · rfl
      · rw [List.map_cons, ih]

/-- The values may be replaced before the pairs are inserted or afterwards. -/
theorem map_ofPairs {β : Type} (f : α → β) (pairs : List (String × α)) :
    (ofPairs pairs).map (fun e => (e.1, f e.2)) = ofPairs (pairs.map fun p => (p.1, f p.2)) := by
  induction pairs using List.reverseRecOn with
  | nil => rfl
  | append_singleton pairs p ih =>
      rw [ofPairs_concat, map_insert, ih, List.map_append, List.map_singleton, ofPairs_concat]

/-- Entries are known by their keys and by what stands under each. -/
theorem filterMap_keys {es : Entries α} (hes : es.keys.Nodup) :
    (es.keys.filterMap fun key => (es.get? key).map fun v => (key, v)) = es := by
  have hfind : ∀ e ∈ es,
      ((fun key => (es.get? key).map fun v => (key, v)) ∘ Prod.fst) e = some e := by
    rintro ⟨k, v⟩ he
    exact congrArg (Option.map fun w => (k, w)) (get?_of_mem hes he)
  rw [keys, List.filterMap_map, List.filterMap_congr hfind, List.filterMap_some]

/-- Pairs that are inserted one after the other are merged. -/
theorem ofPairs_eq_merge (pairs : List (String × α)) : ofPairs pairs = merge pairs := by
  rw [← filterMap_keys (nodup_ofPairs pairs), merge, keys_ofPairs]
  exact List.filterMap_congr fun key _ => congrArg _ (get?_ofPairs pairs key)

end Entries

/-! ## At every level -/

namespace Tree

variable {ι : Type}

mutual

/-- The tree with the pairs of every object merged. -/
def merged : Tree ι → Tree ι
  | .null => .null
  | .bool b => .bool b
  | .int i => .int i
  | .uint u => .uint u
  | .float x => .float x
  | .text s => .text s
  | .array mark items => .array mark (mergedItems items)
  | .object mark pairs => .object mark (Entries.merge (mergedPairs pairs))

/-- Merges below every item. -/
def mergedItems : List (Tree ι) → List (Tree ι)
  | [] => []
  | t :: rest => merged t :: mergedItems rest

/-- Merges below every value, leaving the pairs in place. -/
def mergedPairs : List (String × Tree ι) → List (String × Tree ι)
  | [] => []
  | (k, t) :: rest => (k, merged t) :: mergedPairs rest

end

theorem mergedItems_eq_map (items : List (Tree ι)) : mergedItems items = items.map merged := by
  induction items with
  | nil => rfl
  | cons t rest ih => rw [mergedItems, ih, List.map_cons]

theorem mergedPairs_eq_map (pairs : List (String × Tree ι)) :
    mergedPairs pairs = pairs.map fun p => (p.1, merged p.2) := by
  induction pairs with
  | nil => rfl
  | cons p rest ih => rw [mergedPairs, ih, List.map_cons]

theorem merged_array (mark : ι) (items : List (Tree ι)) :
    merged (.array mark items) = .array mark (items.map merged) := by
  rw [merged, mergedItems_eq_map]

theorem merged_object (mark : ι) (pairs : List (String × Tree ι)) :
    merged (.object mark pairs) =
      .object mark (Entries.ofPairs (pairs.map fun p => (p.1, merged p.2))) := by
  rw [merged, mergedPairs_eq_map, Entries.ofPairs_eq_merge]

theorem merged_scalar {t : Tree ι} (ht : t.depth = 0) : t.merged = t := by
  cases t <;> first | rfl | simp [depth] at ht

/-- Once merged, no object has a key twice. -/
theorem keysDistinct_merged (t : Tree ι) : t.merged.KeysDistinct := by
  induction t using induction with
  | null => exact .null
  | bool b => exact .bool b
  | int i => exact .int i
  | uint u => exact .uint u
  | float x => exact .float x
  | text s => exact .text s
  | array mark items ih =>
      rw [merged_array]
      refine .array mark fun t ht => ?_
      obtain ⟨u, hu, rfl⟩ := List.mem_map.mp ht
      exact ih u hu
  | object mark pairs ih =>
      rw [merged_object]
      refine .object mark (Entries.nodup_ofPairs _) fun e he => ?_
      obtain ⟨q, hq, hvalue⟩ := Entries.mem_values_ofPairs (List.mem_map_of_mem (f := Prod.snd) he)
      obtain ⟨p, hp, rfl⟩ := List.mem_map.mp hq
      exact hvalue ▸ ih p hp

/-- Where each key stands once there is nothing to merge. -/
theorem KeysDistinct.merged_eq {t : Tree ι} (ht : t.KeysDistinct) : t.merged = t := by
  induction ht with
  | array mark parts ih => rw [merged_array, List.map_congr_left ih, List.map_id']
  | @object mark entries nodup parts ih =>
      have hmap : entries.map (fun e => (e.1, e.2.merged)) = entries.map id :=
        List.map_congr_left fun e he => by rw [ih e he]; rfl
      rw [merged_object, hmap, List.map_id, Entries.ofPairs_of_nodup nodup]
  | _ => rfl

end Tree

/-- The object that pairs of a document stand for. -/
def Document.mergedObject (pairs : List (String × Document)) : Document :=
  .object () (Entries.merge (pairs.map fun p => (p.1, p.2.merged)))

theorem Tree.merged_eq_mergedObject (pairs : List (String × Document)) :
    Tree.merged (.object () pairs) = Document.mergedObject pairs := by
  rw [Tree.merged_object, Entries.ofPairs_eq_merge, Document.mergedObject]

theorem Document.keysDistinct_mergedObject (pairs : List (String × Document)) :
    (Document.mergedObject pairs).KeysDistinct := by
  rw [← Tree.merged_eq_mergedObject]
  exact Tree.keysDistinct_merged _

end DynamicData
