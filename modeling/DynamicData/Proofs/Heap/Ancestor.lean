import DynamicData.Proofs.Heap.Equivalence
import DynamicData.Proofs.Heap.Sequence

/-!
# No item is equal to an ancestor of its array

A value that is not in an array may be equal to an item of it all the same, as equality looks
at what containers hold and not at where they are. But it never is if the array can be reached
from the value: equal nodes nest equally deeply, and what is in a container does not nest as
deeply as anything from which this container can be reached. So such a value is never removed.
-/

namespace DynamicData.Heap

open Relation

variable {h : Heap}

/-! ## Depth along containment -/

theorem WellFormed.depth_lt_of_child (hw : h.WellFormed) {n m : Node} {s : Storage}
    (hn : n.storage? = some s) (hs : h.Allocated s) (hm : m ∈ h.children s) :
    (h.tree m).depth < (h.tree n).depth := by
  cases n with
  | array a =>
      cases hn
      have hle : Tree.depthOfItems ((h.items a).map h.tree) ≤ _ := Nat.le_refl _
      rw [hw.tree_array hs, Tree.depth, Nat.add_comm, Nat.lt_succ_iff]
      exact Tree.depthOfItems_le.mp hle _ (List.mem_map_of_mem hm)
  | object o =>
      cases hn
      obtain ⟨e, he, rfl⟩ := List.mem_map.mp hm
      have hle : Tree.depthOfEntries ((h.entries o).map fun e => (e.1, h.tree e.2)) ≤ _ :=
        Nat.le_refl _
      rw [hw.tree_object hs, Tree.depth, Nat.add_comm, Nat.lt_succ_iff]
      exact Tree.depthOfEntries_le.mp hle (e.1, h.tree e.2) (List.mem_map_of_mem he)
  | _ => cases hn

/-- What is in a container nests less deeply than what the container is reachable from. The
induction is along the way from the node to the container. -/
theorem WellFormed.depth_lt_of_reaches (hw : h.WellFormed) {n m : Node} {s : Storage}
    (hn : h.Knows n) (hreach : h.Reaches n s) (hm : m ∈ h.children s) :
    (h.tree m).depth < (h.tree n).depth := by
  obtain ⟨t, ht, hts⟩ := hreach
  induction hts using ReflTransGen.head_induction_on generalizing n with
  | refl => exact hw.depth_lt_of_child ht (hn _ ht) hm
  | head htu _ ih =>
      obtain ⟨k, hk, hku⟩ := htu
      exact (ih (hw.closed _ k hk) hku).trans (hw.depth_lt_of_child ht (hn _ ht) hk)

/-! ## Equality -/

theorem WellFormed.not_same_of_reaches (hw : h.WellFormed) {n m : Node} {s : Storage}
    (hn : h.Knows n) (hreach : h.Reaches n s) (hm : m ∈ h.children s) : h.same m n = false := by
  have hlt := hw.depth_lt_of_reaches hn hreach hm
  refine Bool.eq_false_iff.mpr fun hs => ?_
  exact hlt.ne (hw.depth_eq_of_same (hw.closed s m hm) hn hs)

/-- No item of an array is equal to a value from which the array is reachable, after the value
has become a node. -/
theorem WellFormed.not_equalTo_of_reaches (hw : h.WellFormed) {a : ArrayRef}
    (ha : h.Allocated (.array a)) {v : Insertable} (hv : h.KnowsValue v)
    (hreach : h.AnyReaches v.references (.array a)) {m : Node} (hm : m ∈ h.items a) :
    h.equalTo v m = false := by
  have hadmitted := hw.nodeOf v hv
  have hitems := hw.items_nodeOf hv ha
  refine hadmitted.wellFormed.not_same_of_reaches (s := .array a) hadmitted.knows ?_ ?_
  · exact (valueCases_reaches.value h v hw hv _ ha).mpr hreach
  · show m ∈ (h.nodeOf v).1.items a
    rwa [hitems]

/-- In every heap that a history leads to, an array removes nothing for a value from which the
array itself is reachable, as none of its items is equal to the value, whether or not sharing
is seen. Where the value is a node, the heap is as it was; otherwise the value may have taken
new storage, and every container is as it was. -/
theorem Reachable.removeValue_ancestor (hr : h.Reachable) {a : ArrayRef}
    (ha : h.Allocated (.array a)) :
    (∀ n, h.Knows n → h.Reaches n (.array a) →
      h.removeValue a (.node n) = (h, false) ∧
        ∀ m ∈ h.items a, h.same m n = false ∧ ¬ (h.tree m).Alike (h.tree n)) ∧
    ∀ v, h.KnowsValue v → h.AnyReaches v.references (.array a) →
      h.removeValue a v = ((h.nodeOf v).1, false) ∧ h.Grows (h.nodeOf v).1 ∧
        ∀ m ∈ h.items a, h.equalTo v m = false := by
  have hw := hr.wellFormed
  have hvalue : ∀ v, h.KnowsValue v → h.AnyReaches v.references (.array a) →
      h.removeValue a v = ((h.nodeOf v).1, false) ∧ h.Grows (h.nodeOf v).1 ∧
        ∀ m ∈ h.items a, h.equalTo v m = false := by
    intro v hv hreach
    have hno : ∀ m ∈ h.items a, h.equalTo v m = false := fun m hm =>
      hw.not_equalTo_of_reaches ha hv hreach hm
    refine ⟨?_, (hw.nodeOf v hv).grows, hno⟩
    have hsearch : (h.items a).findIdx? (fun m => (h.nodeOf v).1.same m (h.nodeOf v).2) = none :=
      List.findIdx?_eq_none_iff.mpr hno
    unfold Heap.removeValue
    dsimp only
    rw [hw.items_nodeOf hv ha, hsearch]
  refine ⟨fun n hn hreach => ?_, hvalue⟩
  have hknows : h.KnowsValue (.node n) := List.forall_mem_singleton.mpr hn
  refine ⟨(hvalue (.node n) hknows ⟨n, List.mem_singleton_self n, hreach⟩).1, fun m hm => ?_⟩
  have hno := hw.not_same_of_reaches hn hreach hm
  refine ⟨hno, fun halike => ?_⟩
  have hsame := hw.same_of_alike (hw.closed (.array a) m hm) hn halike
  rw [hno] at hsame
  cases hsame

/-- An array of a null and an object, the object that owns the array, and an object that is
equal to the one in it. The owner is not removed, alone or in a list, nor is the array from
itself, and the object from elsewhere is. -/
theorem removeValue_owner :
    let h₁ := (empty.after (.newArray [])).after (.newObject [("items", .array ⟨0⟩)])
    let h₂ := h₁.after (.newArray [.none, .node (.object ⟨0⟩)])
    let h₃ := h₂.after (.newObject [("items", .array ⟨1⟩)])
    let h := h₃.after (.newObject [("items", .array ⟨0⟩)])
    h.Reachable ∧ h.Reaches (.object ⟨1⟩) (.array ⟨1⟩) ∧
      h.removeValue ⟨1⟩ (.node (.object ⟨1⟩)) = (h, false) ∧
      h.removeValue ⟨1⟩ (.node (.array ⟨1⟩)) = (h, false) ∧
      (h.removeValue ⟨1⟩ (.list [.some (.capability (.object ⟨1⟩))])).2 = false ∧
      (h.removeValue ⟨1⟩ (.node (.object ⟨2⟩))).2 = true := by
  intro h₁ h₂ h₃ h
  have hr : h.Reachable :=
    .after (.after (.after (.after (.after .empty (by decide)) (by decide)) (by decide))
      (by decide)) (by decide)
  obtain ⟨hnode, hvalue⟩ := Reachable.removeValue_ancestor hr (a := ⟨1⟩) (by decide)
  have hknows : h.Knows (.object ⟨1⟩) := by decide
  have howner : h.Reaches (.object ⟨1⟩) (.array ⟨1⟩) :=
    (hr.wellFormed.reaches_eq_true_iff hknows _).mp (by decide)
  have hlist := hvalue (.list [.some (.capability (.object ⟨1⟩))]) (by decide)
    ⟨.object ⟨1⟩, List.mem_singleton_self _, howner⟩
  exact ⟨hr, howner, (hnode _ hknows howner).1,
    (hnode _ (by decide) ⟨_, rfl, .refl⟩).1, congrArg Prod.snd hlist.1, by decide⟩

end DynamicData.Heap
