import DynamicData.Proofs.Heap.Containment
import Mathlib.Data.List.Chain

/-!
# Trees of a well-formed heap

`Heap.tree` cuts a tree off after as many containers on a path as the heap has. In
a well-formed heap nothing is ever cut off: a path that long would meet a container
twice. So `tree` satisfies the recursion that it stands for (`tree_array`,
`tree_object`), that recursion is well founded, and a search of the tree finds
exactly what is reachable.
-/

namespace DynamicData

open Relation

namespace Heap

/-! ## Paths are no longer than the heap -/

/-- On no path from the node are there more than `k` containers. -/
def Shallow (h : Heap) : (k : Nat) → Node → Prop
  | 0, n => n.storage? = none
  | k + 1, n => ∀ s, n.storage? = some s → ∀ m ∈ h.children s, h.Shallow k m

theorem shallow_scalar {h : Heap} {n : Node} (hn : n.storage? = none) (k : Nat) :
    h.Shallow k n := by
  cases k with
  | zero => exact hn
  | succ k =>
      intro s hs
      rw [hn] at hs
      cases hs

theorem Shallow.succ {h : Heap} {k : Nat} {n : Node} (hs : h.Shallow k n) :
    h.Shallow (k + 1) n := by
  induction k generalizing n with
  | zero => exact shallow_scalar hs 1
  | succ k ih => exact fun s hn m hm => ih (hs s hn m hm)

/-- A node that is not shallow starts a chain of containers that is too long. -/
theorem exists_chain_of_not_shallow {h : Heap} {k : Nat} {n : Node}
    (hs : ¬ h.Shallow k n) :
    ∃ s l, n.storage? = some s ∧ (s :: l).IsChain h.Contains ∧ l.length = k := by
  induction k generalizing n with
  | zero =>
      obtain ⟨s, hn⟩ := Option.ne_none_iff_exists'.mp hs
      exact ⟨s, [], hn, .singleton s, rfl⟩
  | succ k ih =>
      simp only [Shallow, Classical.not_forall] at hs
      obtain ⟨s, hn, m, hm, hk⟩ := hs
      obtain ⟨t, l, hmt, hl, rfl⟩ := ih hk
      exact ⟨s, t :: l, hn, List.isChain_cons_cons.mpr ⟨⟨m, hm, hmt⟩, hl⟩, rfl⟩

/-- Every storage that has been made. -/
def storages (h : Heap) : List Storage :=
  (List.range h.arrays.size).map (fun i => .array ⟨i⟩) ++
    (List.range h.objects.size).map fun i => .object ⟨i⟩

theorem mem_storages {h : Heap} {s : Storage} : s ∈ h.storages ↔ h.Allocated s := by
  cases s with
  | array r => cases r; simp [storages, Allocated]
  | object r => cases r; simp [storages, Allocated]

@[simp] theorem length_storages (h : Heap) : h.storages.length = h.size := by
  simp [storages, size]

/-- No two storages on a chain are the same, so there are no more of them than the
heap has. -/
theorem WellFormed.length_le_of_isChain {h : Heap} (hw : h.WellFormed) {s : Storage}
    {l : List Storage} (hs : h.Allocated s) (hl : (s :: l).IsChain h.Contains) :
    l.length < h.size := by
  -- a storage on the chain reaches all later ones, so none of them is met twice
  have hpath : (s :: l).Pairwise (TransGen h.Contains) := by
    rw [← List.isChain_iff_pairwise]
    exact hl.imp fun _ _ hc => .single hc
  have hnodup : (s :: l).Nodup := by
    refine hpath.imp ?_
    rintro a b hab rfl
    exact hw.acyclic a hab
  have hsub : s :: l ⊆ h.storages := by
    intro t ht
    rw [mem_storages]
    rcases List.mem_cons.mp ht with rfl | ht
    · exact hs
    · have hst := (List.pairwise_cons.mp hpath).1 t ht
      exact hw.allocated_of_reflTransGen hs hst.to_reflTransGen
  have hlen := hnodup.length_le_of_subset hsub
  rw [List.length_cons, length_storages] at hlen
  exact hlen

theorem WellFormed.shallow {h : Heap} (hw : h.WellFormed) {n : Node} (hn : h.Knows n) :
    h.Shallow h.size n := by
  apply Classical.byContradiction
  intro hs
  obtain ⟨s, l, hns, hl, hlen⟩ := exists_chain_of_not_shallow hs
  have hlt := hw.length_le_of_isChain (hn s hns) hl
  omega

/-! ## Recursion over what a container contains -/

/-- Going from a container to the ones inside it comes to an end. -/
theorem WellFormed.wellFounded {h : Heap} (hw : h.WellFormed) :
    WellFounded fun t s => h.Contains s t := by
  have acc : ∀ k n, h.Shallow k n → ∀ s, n.storage? = some s →
      Acc (fun t s => h.Contains s t) s := by
    intro k
    induction k with
    | zero =>
        intro n hn s hs
        rw [hn] at hs
        cases hs
    | succ k ih =>
        intro n hn s hs
        refine Acc.intro s ?_
        rintro t ⟨m, hm, ht⟩
        exact ih m (hn s hs m hm) t ht
  refine ⟨fun s => Acc.intro s ?_⟩
  -- `s` need not exist, but the nodes in it are shallow
  rintro t ⟨m, hm, ht⟩
  exact acc h.size m (hw.shallow (hw.closed s m hm)) t ht

/-- What holds of scalars, and of a container when it holds of all nodes inside it,
holds of every node. -/
theorem WellFormed.induction {h : Heap} (hw : h.WellFormed) {P : Node → Prop}
    (scalar : ∀ n, n.storage? = none → P n)
    (container : ∀ n s, n.storage? = some s → h.Allocated s →
      (∀ m ∈ h.children s, P m) → P n)
    (n : Node) (hn : h.Knows n) : P n := by
  have of_storage : ∀ s n, n.storage? = some s → h.Allocated s → P n := by
    intro s
    induction s using hw.wellFounded.induction with
    | h s ih =>
        intro n hs ha
        apply container n s hs ha
        intro m hm
        cases hmt : m.storage? with
        | none => exact scalar m hmt
        | some t => exact ih t ⟨m, hm, hmt⟩ m hmt (hw.closed s m hm t hmt)
  cases hs : n.storage? with
  | none => exact scalar n hs
  | some s => exact of_storage s n hs (hn s hs)

/-! ## Nothing is cut off -/

theorem unfold_succ_of_shallow {h : Heap} {k : Nat} {n : Node} (hs : h.Shallow k n) :
    h.unfold (k + 1) n = h.unfold k n := by
  induction k generalizing n with
  | zero =>
      cases n with
      | array r => cases hs
      | object r => cases hs
      | _ => rfl
  | succ k ih =>
      cases n with
      | array r =>
          have hitems : (h.items r).map (h.unfold (k + 1)) = (h.items r).map (h.unfold k) :=
            List.map_congr_left fun m hm => ih (hs _ rfl m hm)
          rw [unfold, hitems, unfold]
      | object r =>
          have hentries : (h.entries r).map (fun e => (e.1, h.unfold (k + 1) e.2)) =
              (h.entries r).map fun e => (e.1, h.unfold k e.2) := by
            apply List.map_congr_left
            intro e he
            rw [ih (hs _ rfl e.2 (List.mem_map_of_mem he))]
          rw [unfold, hentries, unfold]
      | _ => rfl

/-- More fuel than there are containers does not change the tree. -/
theorem WellFormed.unfold_eq_tree {h : Heap} (hw : h.WellFormed) {n : Node}
    (hn : h.Knows n) {fuel : Nat} (hf : h.size ≤ fuel) : h.unfold fuel n = h.tree n := by
  -- one more step of fuel at a time, the node staying shallow enough
  have stable : ∀ k, h.Shallow (h.size + k) n ∧ h.unfold (h.size + k) n = h.tree n := by
    intro k
    induction k with
    | zero => exact ⟨hw.shallow hn, rfl⟩
    | succ k ih => exact ⟨ih.1.succ, (unfold_succ_of_shallow ih.1).trans ih.2⟩
  obtain ⟨k, rfl⟩ := Nat.exists_eq_add_of_le hf
  exact (stable k).2

section Leaves

attribute [local simp] tree unfold

@[simp] theorem tree_null (h : Heap) : h.tree .null = .null := by simp
@[simp] theorem tree_bool (h : Heap) (b : Bool) : h.tree (.bool b) = .bool b := by simp
@[simp] theorem tree_int (h : Heap) (i : Int64) : h.tree (.int i) = .int i := by simp
@[simp] theorem tree_uint (h : Heap) (u : UInt64) : h.tree (.uint u) = .uint u := by simp
@[simp] theorem tree_float (h : Heap) (x : Binary64) : h.tree (.float x) = .float x := by simp
@[simp] theorem tree_text (h : Heap) (s : String) : h.tree (.text s) = .text s := by simp

end Leaves

theorem WellFormed.tree_array {h : Heap} (hw : h.WellFormed) {r : ArrayRef}
    (hr : h.Allocated (.array r)) :
    h.tree (.array r) = .array (.array r) ((h.items r).map h.tree) := by
  have hk : h.Knows (.array r) := knows_array.mpr hr
  have hitems : (h.items r).map (h.unfold h.size) = (h.items r).map h.tree := rfl
  rw [← hw.unfold_eq_tree hk (Nat.le_succ h.size), unfold, hitems]

theorem WellFormed.tree_object {h : Heap} (hw : h.WellFormed) {r : ObjectRef}
    (hr : h.Allocated (.object r)) :
    h.tree (.object r) =
      .object (.object r) ((h.entries r).map fun e => (e.1, h.tree e.2)) := by
  have hk : h.Knows (.object r) := knows_object.mpr hr
  rw [← hw.unfold_eq_tree hk (Nat.le_succ h.size), unfold]
  rfl

/-! ## Searching a tree -/

theorem reaches_iff {h : Heap} {n : Node} {s : Storage} :
    h.Reaches n s ↔
      ∃ t, n.storage? = some t ∧ (t = s ∨ ∃ m ∈ h.children t, h.Reaches m s) := by
  constructor
  · rintro ⟨t, ht, hts⟩
    refine ⟨t, ht, ?_⟩
    rcases ReflTransGen.cases_head hts with rfl | ⟨u, ⟨m, hm, hmu⟩, hus⟩
    · exact Or.inl rfl
    · exact Or.inr ⟨m, hm, u, hmu, hus⟩
  · rintro ⟨t, ht, rfl | ⟨m, hm, u, hu, hus⟩⟩
    · exact ⟨t, ht, .refl⟩
    · exact ⟨t, ht, hus.head ⟨m, hm, hu⟩⟩

end Heap

namespace Tree

theorem holdsInItems_iff {s : Storage} {items : List (Tree Storage)} :
    holdsInItems s items = true ↔ ∃ t ∈ items, t.holds s = true := by
  induction items with
  | nil => simp [holdsInItems]
  | cons t rest ih => simp [holdsInItems, ih]

theorem holdsInEntries_iff {s : Storage} {entries : List (String × Tree Storage)} :
    holdsInEntries s entries = true ↔ ∃ e ∈ entries, e.2.holds s = true := by
  induction entries with
  | nil => simp [holdsInEntries]
  | cons e rest ih =>
      obtain ⟨k, t⟩ := e
      rw [holdsInEntries, Bool.or_eq_true, ih]
      simp only [List.mem_cons, exists_eq_or_imp]

end Tree

namespace Heap

/-- The search of a tree is exact: it meets a storage if and only if the storage is
reachable. -/
theorem WellFormed.reaches_eq_true_iff {h : Heap} (hw : h.WellFormed) {n : Node}
    (hn : h.Knows n) (s : Storage) : h.reaches n s = true ↔ h.Reaches n s := by
  unfold reaches
  refine hw.induction (P := fun n => (h.tree n).holds s = true ↔ h.Reaches n s) ?_ ?_ n hn
  · intro n hs
    have hno : ¬ h.Reaches n s := by
      rintro ⟨t, ht, _⟩
      rw [hs] at ht
      cases ht
    cases n with
    | array r => cases hs
    | object r => cases hs
    | _ => simp [Tree.holds, hno]
  · intro n t hs ha ih
    rw [reaches_iff]
    cases n with
    | array r =>
        cases hs
        rw [hw.tree_array ha, Tree.holds, Bool.or_eq_true, beq_iff_eq, Tree.holdsInItems_iff]
        simp only [List.mem_map, exists_exists_and_eq_and, Node.storage?, Option.some.injEq,
          exists_eq_left']
        exact or_congr_right (exists_congr fun m => and_congr_right fun hm => ih m hm)
    | object r =>
        cases hs
        rw [hw.tree_object ha, Tree.holds, Bool.or_eq_true, beq_iff_eq,
          Tree.holdsInEntries_iff]
        simp only [List.mem_map, exists_exists_and_eq_and, Node.storage?, Option.some.injEq,
          exists_eq_left', children, Entries.values]
        exact or_congr_right
          (exists_congr fun e => and_congr_right fun he => ih e.2 (List.mem_map_of_mem he))
    | _ => cases hs

end Heap
end DynamicData
