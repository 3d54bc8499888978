import DynamicData.Heap.Update
import DynamicData.Proofs.Distinct
import DynamicData.Proofs.Heap.Growth

/-!
# What an accepted operation has done

One inversion for each operation that can be refused: what was checked, and the one write
that followed. An operation that stores a value first turns it into a node, which only adds
storage, and then writes once, after the search for the container has come back empty.
-/

namespace DynamicData.Heap

/-! ## Changes -/

section
variable {h h' : Heap}

theorem put_eq_ok {o : ObjectRef} {key : String} {v : Insertable}
    (hp : h.put o key v = .ok h') :
    ¬ (h.nodeOf v).1.reaches (h.nodeOf v).2 (.object o) = true ∧
      h' = (h.nodeOf v).1.setEntries o
        (((h.nodeOf v).1.entries o).insert key (h.nodeOf v).2) := by
  unfold Heap.put at hp
  dsimp only at hp
  split at hp
  · cases hp
  · next hno =>
      cases hp
      exact ⟨hno, rfl⟩

theorem add_eq_ok {a : ArrayRef} {v : Insertable} (hp : h.add a v = .ok h') :
    ¬ (h.nodeOf v).1.reaches (h.nodeOf v).2 (.array a) = true ∧
      h' = (h.nodeOf v).1.setItems a ((h.nodeOf v).1.items a ++ [(h.nodeOf v).2]) := by
  unfold Heap.add at hp
  dsimp only at hp
  split at hp
  · cases hp
  · next hno =>
      cases hp
      exact ⟨hno, rfl⟩

theorem addAll_eq_ok {a : ArrayRef} {vs : List Insertable} (hp : h.addAll a vs = .ok h') :
    (∀ n ∈ (h.nodesOf vs).2, ¬ (h.nodesOf vs).1.reaches n (.array a) = true) ∧
      h' = (h.nodesOf vs).1.setItems a ((h.nodesOf vs).1.items a ++ (h.nodesOf vs).2) := by
  unfold Heap.addAll at hp
  dsimp only at hp
  split at hp
  · cases hp
  · next hno =>
      cases hp
      -- a single hit anywhere in the batch would have refused all of it
      exact ⟨fun n hn hreach => hno (List.any_eq_true.mpr ⟨n, hn, hreach⟩), rfl⟩

theorem insertAt_eq_ok {a : ArrayRef} {index : Nat} {v : Insertable}
    (hp : h.insertAt a index v = .ok h') :
    ¬ (h.nodeOf v).1.reaches (h.nodeOf v).2 (.array a) = true ∧
      index ≤ ((h.nodeOf v).1.items a).length ∧
      h' = (h.nodeOf v).1.setItems a
        (((h.nodeOf v).1.items a).insertIdx index (h.nodeOf v).2) := by
  unfold Heap.insertAt at hp
  dsimp only at hp
  split at hp
  · cases hp
  · next hno =>
      split at hp
      · cases hp
      · next hle =>
          cases hp
          exact ⟨hno, Nat.le_of_not_lt hle, rfl⟩

theorem setAt_eq_ok {a : ArrayRef} {index : Nat} {v : Insertable}
    (hp : h.setAt a index v = .ok h') :
    ¬ (h.nodeOf v).1.reaches (h.nodeOf v).2 (.array a) = true ∧
      index < ((h.nodeOf v).1.items a).length ∧
      h' = (h.nodeOf v).1.setItems a (((h.nodeOf v).1.items a).set index (h.nodeOf v).2) := by
  unfold Heap.setAt at hp
  dsimp only at hp
  split at hp
  · cases hp
  · next hno =>
      split at hp
      · next hlt =>
          cases hp
          exact ⟨hno, hlt, rfl⟩
      · cases hp

theorem removeAt_eq_ok {a : ArrayRef} {index : Nat} {n : Node}
    (hp : h.removeAt a index = .ok (h', n)) :
    (h.items a)[index]? = some n ∧ h' = h.setItems a ((h.items a).eraseIdx index) := by
  unfold Heap.removeAt at hp
  dsimp only at hp
  split at hp
  · next hn =>
      cases hp
      exact ⟨hn, rfl⟩
  · cases hp

theorem removeValue_fst (h : Heap) (a : ArrayRef) (v : Insertable) :
    (h.removeValue a v).1 = (h.nodeOf v).1 ∨ ∃ index,
      (h.removeValue a v).1 =
        (h.nodeOf v).1.setItems a (((h.nodeOf v).1.items a).eraseIdx index) := by
  unfold Heap.removeValue
  dsimp only
  split
  · exact .inr ⟨_, rfl⟩
  · exact .inl rfl

end

/-! ## Loaded containers -/

theorem WellFormed.loadObject {h : Heap} (hw : h.WellFormed) {entries : Entries Document}
    (hd : (Tree.object () entries : Document).KeysDistinct) :
    h.Built (Tree.object () entries) (h.loadObject entries).1
      (.object (h.loadObject entries).2) :=
  hw.build hd

theorem WellFormed.loadArray {h : Heap} (hw : h.WellFormed) {items : List Document}
    (hd : (Tree.array () items : Document).KeysDistinct) :
    h.Built (Tree.array () items) (h.loadArray items).1 (.array (h.loadArray items).2) :=
  hw.build hd

end DynamicData.Heap
