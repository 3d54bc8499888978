import DynamicData.Proofs.Heap.History

/-!
# Containers loaded from a payload

A payload that is read as the image of a container of the heap is loaded as a fresh
container, whose tree is that image. Nothing that was in the heap before changes.
-/

namespace DynamicData.Heap

/-- A container comes back as `d`: where the node is an object the reader of objects
succeeds, where it is an array the reader of arrays does, and what they build is `d`. -/
structure ComesBack (h : Heap) (n : Node) (d : Document)
    (object : Except DataError (Heap × ObjectRef))
    (array : Except DataError (Heap × ArrayRef)) : Prop where
  object : ∀ o, n = .object o → ∃ h' o', object = .ok (h', o') ∧ h.Built d h' (.object o')
  array : ∀ a, n = .array a → ∃ h' a', array = .ok (h', a') ∧ h.Built d h' (.array a')

/-- A payload that is read as a container of the kind of the node is loaded as this
container. -/
theorem WellFormed.comesBack_of_kind {h : Heap} (hw : h.WellFormed) {n : Node}
    {x : Except DataError Document} (e : String → DataError) {d : Document} (hx : x = .ok d)
    (hkind : ∀ s, n.storage? = some s → d.kind = n.kind) (hkeys : d.KeysDistinct) :
    h.ComesBack n d (do return h.loadObject (← (← x).entries.mapError e))
      (do return h.loadArray (← (← x).items.mapError e)) where
  object := by
    rintro o rfl
    have hobject := hkind _ rfl
    cases d with
    | object mark entries => exact ⟨_, _, by rw [hx]; rfl, hw.loadObject hkeys⟩
    | _ => cases hobject
  array := by
    rintro a rfl
    have harray := hkind _ rfl
    cases d with
    | array mark items => exact ⟨_, _, by rw [hx]; rfl, hw.loadArray hkeys⟩
    | _ => cases harray

/-- The image of a container is a container of its kind. -/
theorem WellFormed.kind_image {h : Heap} (hw : h.WellFormed) {n : Node} (hn : h.Knows n)
    (uint : UInt64 → Document) (float : Binary64 → Document) {s : Storage}
    (hs : n.storage? = some s) : ((h.tree n).image uint float).kind = n.kind := by
  cases n with
  | object o =>
      rw [hw.tree_object (knows_object.mp hn), Tree.image_object]
      rfl
  | array a =>
      rw [hw.tree_array (knows_array.mp hn), Tree.image_array]
      rfl
  | _ => cases hs

theorem WellFormed.comesBack {h : Heap} (hw : h.WellFormed) {n : Node} (hn : h.Knows n)
    {x : Except DataError Document} (e : String → DataError) {uint : UInt64 → Document}
    {float : Binary64 → Document} (hx : x = .ok ((h.tree n).image uint float))
    (hkeys : ((h.tree n).image uint float).KeysDistinct) :
    h.ComesBack n ((h.tree n).image uint float)
      (do return h.loadObject (← (← x).entries.mapError e))
      (do return h.loadArray (← (← x).items.mapError e)) :=
  hw.comesBack_of_kind e hx (fun _ => hw.kind_image hn uint float) hkeys

end DynamicData.Heap
