import DynamicData.Proofs.Heap.Copying
import DynamicData.Proofs.Heap.Loading

/-!
# Positions in an image

A node that is loaded from a payload stands for an image of the node that was written, in
storage of its own. A position in the one is a position in the other: what a key or an index
leads to in the loaded node is an image of what it leads to in the original. A scalar can be
told from its image, which is a scalar again and is loaded as it is.
-/

namespace DynamicData

/-- The node of a document that is a scalar. -/
def Tree.leaf? : Document → Option Node
  | .null => some .null
  | .bool b => some (.bool b)
  | .int i => some (.int i)
  | .uint u => some (.uint u)
  | .float x => some (.float x)
  | .text s => some (.text s)
  | .array _ _ | .object _ _ => none

namespace Heap

variable {h h' : Heap} {n n' : Node} {uint : UInt64 → Document} {float : Binary64 → Document}

/-- The second node is an image of the first one, with everything below it. -/
structure Mirrors (uint : UInt64 → Document) (float : Binary64 → Document) (h : Heap)
    (n : Node) (h' : Heap) (n' : Node) : Prop where
  known : h.Knows n
  known' : h'.Knows n'
  image : (h'.tree n').bare = (h.tree n).image uint float

/-! ## Scalars -/

/-- A node whose tree is a scalar is this scalar. -/
theorem WellFormed.eq_of_leaf? (hw : h.WellFormed) (hn : h.Knows n) {m : Node}
    (hm : (h.tree n).bare.leaf? = some m) : n = m := by
  cases n with
  | array a =>
      rw [hw.tree_array (knows_array.mp hn), Tree.bare_array] at hm
      cases hm
  | object o =>
      rw [hw.tree_object (knows_object.mp hn), Tree.bare_object] at hm
      cases hm
  | _ => simpa [Tree.bare, Tree.image, Tree.leaf?] using hm

theorem Mirrors.eq_of_leaf? (hm : Mirrors uint float h n h' n') (hw' : h'.WellFormed) {m : Node}
    (hleaf : ((h.tree n).image uint float).leaf? = some m) : n' = m :=
  hw'.eq_of_leaf? hm.known' (by rw [hm.image, hleaf])

/-! ## Containers -/

theorem Mirrors.exists_array (hw : h.WellFormed) (hw' : h'.WellFormed) {a : ArrayRef}
    (hm : Mirrors uint float h (.array a) h' n') : ∃ a', n' = .array a' ∧
      (h'.items a').map (fun m => (h'.tree m).bare) =
        (h.items a).map fun m => (h.tree m).image uint float := by
  have himage := hm.image
  rw [hw.tree_array (knows_array.mp hm.known), Tree.image_array] at himage
  cases n' with
  | array a' =>
      rw [hw'.tree_array (knows_array.mp hm.known'), Tree.bare_array] at himage
      injection himage with _ himage
      rw [List.map_map, List.map_map] at himage
      exact ⟨a', rfl, himage⟩
  | object o' =>
      rw [hw'.tree_object (knows_object.mp hm.known'), Tree.bare_object] at himage
      cases himage
  | _ => simp [Tree.bare, Tree.image] at himage

theorem Mirrors.exists_object (hw : h.WellFormed) (hw' : h'.WellFormed) {o : ObjectRef}
    (hm : Mirrors uint float h (.object o) h' n') : ∃ o', n' = .object o' ∧
      (h'.entries o').map (fun e => (e.1, (h'.tree e.2).bare)) =
        (h.entries o).map fun e => (e.1, (h.tree e.2).image uint float) := by
  have himage := hm.image
  rw [hw.tree_object (knows_object.mp hm.known), Tree.image_object] at himage
  cases n' with
  | object o' =>
      rw [hw'.tree_object (knows_object.mp hm.known'), Tree.bare_object] at himage
      injection himage with _ himage
      rw [List.map_map, List.map_map] at himage
      exact ⟨o', rfl, himage⟩
  | array a' =>
      rw [hw'.tree_array (knows_array.mp hm.known'), Tree.bare_array] at himage
      cases himage
  | _ => simp [Tree.bare, Tree.image] at himage

/-! ## Positions -/

/-- A key or an index leads to mirrored nodes. -/
theorem Mirrors.child? (hm : Mirrors uint float h n h' n') (hw : h.WellFormed)
    (hw' : h'.WellFormed) {segment : Segment} {m : Node} (hchild : h.child? n segment = some m) :
    ∃ m', h'.child? n' segment = some m' ∧ Mirrors uint float h m h' m' := by
  cases n <;> cases segment <;> try cases hchild
  · next a i =>
      obtain ⟨a', rfl, hitems⟩ := hm.exists_array hw hw'
      have hitem : (h.items a)[i]? = some m := hchild
      have hi := congrArg (fun ds : List Document => ds[i]?) hitems
      simp only [List.getElem?_map, hitem, Option.map_some, Option.map_eq_some_iff] at hi
      obtain ⟨m', hm', himage⟩ := hi
      exact ⟨m', hm', hw.closed (.array a) m (List.mem_of_getElem? hitem),
        hw'.closed (.array a') m' (List.mem_of_getElem? hm'), himage⟩
  · next o k =>
      obtain ⟨o', rfl, hentries⟩ := hm.exists_object hw hw'
      have hentry : (h.entries o).get? k = some m := hchild
      have hk := congrArg (Entries.get? k) hentries
      rw [Entries.get?_map fun m => (h'.tree m).bare,
        Entries.get?_map fun m => (h.tree m).image uint float, hentry] at hk
      obtain ⟨m', hm', himage⟩ := Option.map_eq_some_iff.mp hk
      exact ⟨m', hm', hw.closed (.object o) m (Entries.mem_values_of_get? hentry),
        hw'.closed (.object o') m' (Entries.mem_values_of_get? hm'), himage⟩

/-- A position leads to mirrored nodes. -/
theorem Mirrors.nodeAt (hm : Mirrors uint float h n h' n') (hw : h.WellFormed)
    (hw' : h'.WellFormed) {position : List Segment} {m : Node}
    (hnode : h.nodeAt n position = some m) :
    ∃ m', h'.nodeAt n' position = some m' ∧ Mirrors uint float h m h' m' := by
  induction position generalizing n n' with
  | nil =>
      cases hnode
      exact ⟨n', rfl, hm⟩
  | cons segment rest ih =>
      obtain ⟨l, hl, hrest⟩ := Option.bind_eq_some_iff.mp hnode
      obtain ⟨l', hl', hmirrors⟩ := hm.child? hw hw' hl
      obtain ⟨m', hm', hmm⟩ := ih hmirrors hrest
      exact ⟨m', Option.bind_eq_some_iff.mpr ⟨l', hl', hm'⟩, hmm⟩

end Heap
end DynamicData
