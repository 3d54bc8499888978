import DynamicData.Proofs.Heap.Unfolding

/-!
# Equality, a container at a time

In a well-formed heap two containers are equal when they are the same storage or when
what they hold is equal: items one by one, entries key by key. Equality of nodes is the
one recursion over both, and these are its steps.
-/

namespace DynamicData

namespace Tree

theorem kind_eq_of_same {t u : Tree Storage} (hs : t.same u = true) : t.kind = u.kind := by
  cases t <;> cases u <;> first | rfl | simp [same] at hs

theorem sameItems_iff {ts us : List (Tree Storage)} :
    sameItems ts us = true ↔ List.Forall₂ (fun t u => t.same u = true) ts us := by
  induction ts generalizing us with
  | nil => cases us <;> simp [sameItems]
  | cons t ts ih => cases us <;> simp [sameItems, ih]

theorem sameEntries_iff {es fs : List (String × Tree Storage)} :
    sameEntries es fs = true ↔
      ∀ e ∈ es, ∃ u, Entries.get? e.1 fs = some u ∧ e.2.same u = true := by
  induction es with
  | nil => simp [sameEntries]
  | cons e rest ih =>
      obtain ⟨k, t⟩ := e
      rw [sameEntries, Bool.and_eq_true, ih, List.forall_mem_cons]
      refine and_congr_left fun _ => ?_
      cases Entries.get? k fs <;> simp

end Tree

namespace Heap

theorem WellFormed.same_array_iff {h : Heap} (hw : h.WellFormed) {a b : ArrayRef}
    (ha : h.Allocated (.array a)) (hb : h.Allocated (.array b)) :
    h.same (.array a) (.array b) = true ↔
      a = b ∨ List.Forall₂ (fun m n => h.same m n = true) (h.items a) (h.items b) := by
  unfold same
  rw [hw.tree_array ha, hw.tree_array hb, Tree.same, Bool.or_eq_true, beq_iff_eq,
    Storage.array.injEq, Tree.sameItems_iff, List.forall₂_map_left_iff,
    List.forall₂_map_right_iff]

theorem WellFormed.same_object_iff {h : Heap} (hw : h.WellFormed) {o p : ObjectRef}
    (ho : h.Allocated (.object o)) (hp : h.Allocated (.object p)) :
    h.same (.object o) (.object p) = true ↔
      o = p ∨ (h.entries o).length = (h.entries p).length ∧
        ∀ e ∈ h.entries o, ∃ n, (h.entries p).get? e.1 = some n ∧ h.same e.2 n = true := by
  unfold same
  rw [hw.tree_object ho, hw.tree_object hp, Tree.same, Bool.or_eq_true, beq_iff_eq,
    Storage.object.injEq, Bool.and_eq_true, beq_iff_eq, List.length_map, List.length_map,
    Tree.sameEntries_iff, List.forall_mem_map]
  simp only [Entries.get?_map, Option.map_eq_some_iff, exists_exists_and_eq_and]

/-- A node has the kind of its tree. -/
theorem WellFormed.kind_tree {h : Heap} (hw : h.WellFormed) {n : Node} (hn : h.Knows n) :
    (h.tree n).kind = n.kind := by
  cases n with
  | array a =>
      rw [hw.tree_array (knows_array.mp hn)]
      rfl
  | object o =>
      rw [hw.tree_object (knows_object.mp hn)]
      rfl
  | _ => simp [Tree.kind, Node.kind]

theorem WellFormed.kind_eq_of_same {h : Heap} (hw : h.WellFormed) {m n : Node}
    (hm : h.Knows m) (hn : h.Knows n) (hs : h.same m n = true) : m.kind = n.kind := by
  rw [← hw.kind_tree hm, ← hw.kind_tree hn]
  exact Tree.kind_eq_of_same hs

end Heap
end DynamicData
