import DynamicData.Heap.Sharing
import DynamicData.Proofs.Entries
import Mathlib.Logic.Relation

/-!
# Containment between the containers of a heap

A container contains another when one of its nodes refers to it. A heap is well
formed when every reference in it is to storage that exists, no container lies
below itself, and no object has a key twice. Every change to a heap is one write
to one storage, new or old (`Writes`), and a write keeps the first two properties
as long as the storage is not reachable from what is written into it.
-/

namespace DynamicData

open Relation

/-- The storage that a node refers to, if it is a container. -/
def Node.storage? : Node → Option Storage
  | .array r => some (.array r)
  | .object r => some (.object r)
  | _ => none

namespace Heap

/-- A storage that has been made. -/
def Allocated (h : Heap) : Storage → Prop
  | .array r => r.index < h.arrays.size
  | .object r => r.index < h.objects.size

/-- A node that refers to nothing but storage that has been made. -/
def Knows (h : Heap) (n : Node) : Prop :=
  ∀ s, n.storage? = some s → h.Allocated s

/-- The nodes directly inside a storage. -/
def children (h : Heap) : Storage → List Node
  | .array r => h.items r
  | .object r => (h.entries r).values

/-- One of the nodes directly inside `s` refers to `t`. -/
def Contains (h : Heap) (s t : Storage) : Prop :=
  ∃ n ∈ h.children s, n.storage? = some t

/-- No storage is reachable from itself by one or more steps of containment. -/
def Acyclic (h : Heap) : Prop :=
  ∀ s, ¬ TransGen h.Contains s s

/-- A storage is reachable from a node by any number of steps of containment. -/
def Reaches (h : Heap) (n : Node) (s : Storage) : Prop :=
  ∃ t, n.storage? = some t ∧ ReflTransGen h.Contains t s

/-- The invariant that every operation keeps. -/
structure WellFormed (h : Heap) : Prop where
  closed : ∀ s, ∀ n ∈ h.children s, h.Knows n
  acyclic : h.Acyclic
  keys_nodup : ∀ r, (h.entries r).keys.Nodup

/-! ## Storage that does not exist is empty -/

theorem items_of_size_le {h : Heap} {r : ArrayRef} (hr : h.arrays.size ≤ r.index) :
    h.items r = [] := by
  simp [items, Array.getElem?_eq_none hr]

theorem entries_of_size_le {h : Heap} {r : ObjectRef} (hr : h.objects.size ≤ r.index) :
    h.entries r = [] := by
  simp [entries, Array.getElem?_eq_none hr]

theorem children_of_not_allocated {h : Heap} {s : Storage} (hs : ¬ h.Allocated s) :
    h.children s = [] := by
  cases s with
  | array r => exact items_of_size_le (Nat.le_of_not_lt hs)
  | object r =>
      have he : h.entries r = [] := entries_of_size_le (Nat.le_of_not_lt hs)
      simp [children, he, Entries.values]

theorem Contains.allocated_left {h : Heap} {s t : Storage} (hc : h.Contains s t) :
    h.Allocated s := by
  apply Classical.byContradiction
  intro hs
  obtain ⟨n, hn, _⟩ := hc
  rw [children_of_not_allocated hs] at hn
  exact absurd hn List.not_mem_nil

theorem WellFormed.allocated_right {h : Heap} (hw : h.WellFormed) {s t : Storage}
    (hc : h.Contains s t) : h.Allocated t := by
  obtain ⟨n, hn, ht⟩ := hc
  exact hw.closed s n hn t ht

/-- What is reachable from storage that exists exists as well. -/
theorem WellFormed.allocated_of_reflTransGen {h : Heap} (hw : h.WellFormed) {s t : Storage}
    (hs : h.Allocated s) (hst : ReflTransGen h.Contains s t) : h.Allocated t := by
  induction hst with
  | refl => exact hs
  | tail _ hc _ => exact hw.allocated_right hc

/-- Storage that does not exist yet is reachable from no node. -/
theorem WellFormed.not_reaches_fresh {h : Heap} (hw : h.WellFormed) {n : Node} {s : Storage}
    (hn : h.Knows n) (hs : ¬ h.Allocated s) : ¬ h.Reaches n s := by
  rintro ⟨t, ht, hts⟩
  exact hs (hw.allocated_of_reflTransGen (hn t ht) hts)

theorem knows_scalar {h : Heap} {n : Node} (hn : n.storage? = none) : h.Knows n := by
  intro s hs
  rw [hn] at hs
  cases hs

theorem knows_array {h : Heap} {r : ArrayRef} :
    h.Knows (.array r) ↔ r.index < h.arrays.size := by
  constructor
  · intro hk
    exact hk (.array r) rfl
  · rintro hr s hs
    cases hs
    exact hr

theorem knows_object {h : Heap} {r : ObjectRef} :
    h.Knows (.object r) ↔ r.index < h.objects.size := by
  constructor
  · intro hk
    exact hk (.object r) rfl
  · rintro hr s hs
    cases hs
    exact hr

instance (h : Heap) : DecidablePred h.Allocated
  | .array _ => Nat.decLt _ _
  | .object _ => Nat.decLt _ _

instance (h : Heap) : DecidablePred h.Knows
  | .array _ => decidable_of_iff _ knows_array.symm
  | .object _ => decidable_of_iff _ knows_object.symm
  | .null | .bool _ | .int _ | .uint _ | .float _ | .text _ => isTrue (knows_scalar rfl)

/-! ## New edges out of one place -/

/-- Edges may be added out of `s` to places from which `s` is not reachable: every
cycle afterwards was one before. The invariant of the induction sorts the paths of
the larger relation into old ones and ones that have left the ancestors of `s` for
good. -/
theorem not_transGen_self_of_edges {α : Type} {R R' : α → α → Prop} {s : α}
    (hR : ∀ a, ¬ TransGen R a a)
    (hR' : ∀ a b, R' a b → R a b ∨ a = s ∧ ¬ ReflTransGen R b s) (a : α) :
    ¬ TransGen R' a a := by
  -- a path is an old one, or starts above `s` and ends where `s` is out of reach
  have sorted : ∀ {a c}, TransGen R' a c →
      TransGen R a c ∨ ReflTransGen R a s ∧ ¬ ReflTransGen R c s := by
    intro a c hac
    induction hac with
    | single hab =>
        rcases hR' _ _ hab with hab | ⟨rfl, hb⟩
        · exact Or.inl (.single hab)
        · exact Or.inr ⟨.refl, hb⟩
    | tail _ hbc ih =>
        rcases ih with hab | ⟨has, hb⟩
        · rcases hR' _ _ hbc with hbc | ⟨rfl, hc⟩
          · exact Or.inl (hab.tail hbc)
          · exact Or.inr ⟨hab.to_reflTransGen, hc⟩
        · rcases hR' _ _ hbc with hbc | ⟨rfl, _⟩
          · exact Or.inr ⟨has, fun hc => hb (hc.head hbc)⟩
          · exact absurd .refl hb
  intro haa
  rcases sorted haa with haa | ⟨has, hna⟩
  · exact hR a haa
  · exact hna has

/-! ## Writes -/

/-- A storage holds the same in both heaps. -/
def Agree (h h' : Heap) : Storage → Prop
  | .array r => h'.items r = h.items r
  | .object r => h'.entries r = h.entries r

theorem Agree.refl (h : Heap) (s : Storage) : h.Agree h s := by
  cases s <;> rfl

theorem Agree.trans {h₁ h₂ h₃ : Heap} {s : Storage} (h₁₂ : h₁.Agree h₂ s)
    (h₂₃ : h₂.Agree h₃ s) : h₁.Agree h₃ s := by
  cases s with
  | array r => exact Eq.trans h₂₃ h₁₂
  | object r => exact Eq.trans h₂₃ h₁₂

theorem Agree.children_eq {h h' : Heap} {s : Storage} (ha : h.Agree h' s) :
    h'.children s = h.children s := by
  cases s with
  | array r => exact ha
  | object r => exact congrArg Entries.values ha

theorem Agree.contains_iff {h h' : Heap} {s t : Storage} (ha : h.Agree h' s) :
    h'.Contains s t ↔ h.Contains s t := by
  unfold Contains
  rw [ha.children_eq]

/-- What is reachable depends on nothing but the contents of what is reachable. -/
theorem reflTransGen_congr {h h' : Heap} {s t : Storage}
    (ha : ∀ u, ReflTransGen h.Contains s u → h.Agree h' u) :
    ReflTransGen h'.Contains s t ↔ ReflTransGen h.Contains s t := by
  constructor
  · intro hst
    induction hst with
    | refl => exact .refl
    | tail _ hc ih => exact ih.tail ((ha _ ih).contains_iff.mp hc)
  · intro hst
    induction hst with
    | refl => exact .refl
    | tail hsu hc ih => exact ih.tail ((ha _ hsu).contains_iff.mpr hc)

theorem reaches_congr {h h' : Heap} {n : Node} {s : Storage}
    (ha : ∀ t, h.Reaches n t → h.Agree h' t) : h'.Reaches n s ↔ h.Reaches n s :=
  exists_congr fun t => and_congr_right fun ht =>
    reflTransGen_congr fun u hu => ha u ⟨t, ht, hu⟩

/-- `h'` is `h` with `nodes` as the contents of `s`, which may be new. -/
structure Writes (h h' : Heap) (s : Storage) (nodes : List Node) : Prop where
  allocated : ∀ t, h'.Allocated t ↔ h.Allocated t ∨ t = s
  written : h'.children s = nodes
  other : ∀ t, t ≠ s → h.Agree h' t

theorem Writes.knows {h h' : Heap} {s : Storage} {nodes : List Node}
    (hwr : h.Writes h' s nodes) {n : Node} (hn : h.Knows n) : h'.Knows n := by
  intro t ht
  exact (hwr.allocated t).mpr (Or.inl (hn t ht))

/-- Nodes that are known and do not reach the storage may be written beside those
that it holds already. -/
theorem WellFormed.write {h h' : Heap} (hw : h.WellFormed) {s : Storage} {nodes : List Node}
    (hwr : h.Writes h' s nodes)
    (hnodes : ∀ n ∈ nodes, n ∈ h.children s ∨ h.Knows n ∧ ¬ h.Reaches n s)
    (hkeys : ∀ r, (h'.entries r).keys.Nodup) : h'.WellFormed where
  closed := by
    intro t n hn
    apply hwr.knows
    by_cases hts : t = s
    · subst hts
      rw [hwr.written] at hn
      rcases hnodes n hn with hold | ⟨hk, _⟩
      · exact hw.closed t n hold
      · exact hk
    · rw [(hwr.other t hts).children_eq] at hn
      exact hw.closed t n hn
  acyclic := by
    -- the only new edges lead out of `s`, and to nodes that do not reach it
    apply not_transGen_self_of_edges hw.acyclic (s := s)
    rintro a b ⟨n, hn, hb⟩
    by_cases has : a = s
    · subst has
      rw [hwr.written] at hn
      rcases hnodes n hn with hold | ⟨_, hr⟩
      · exact Or.inl ⟨n, hold, hb⟩
      · exact Or.inr ⟨rfl, fun hbs => hr ⟨b, hb, hbs⟩⟩
    · rw [(hwr.other a has).children_eq] at hn
      exact Or.inl ⟨n, hn, hb⟩
  keys_nodup := hkeys

@[simp] theorem items_setItems_self {h : Heap} {r : ArrayRef} (hr : h.Allocated (.array r))
    (nodes : List Node) : (h.setItems r nodes).items r = nodes := by
  have hlt : r.index < h.arrays.size := hr
  simp [items, setItems, hlt]

@[simp] theorem entries_setEntries_self {h : Heap} {r : ObjectRef}
    (hr : h.Allocated (.object r)) (entries : Entries Node) :
    (h.setEntries r entries).entries r = entries := by
  have hlt : r.index < h.objects.size := hr
  simp [Heap.entries, setEntries, hlt]

theorem writes_setItems {h : Heap} {r : ArrayRef} (hr : r.index < h.arrays.size)
    (nodes : List Node) : h.Writes (h.setItems r nodes) (.array r) nodes where
  allocated := by
    intro t
    cases t with
    | array q =>
        simp only [Allocated, setItems, Array.size_setIfInBounds]
        constructor
        · exact Or.inl
        · rintro (hq | hq)
          · exact hq
          · cases hq
            exact hr
    | object q => simp [Allocated, setItems]
  written := items_setItems_self hr nodes
  other := by
    intro t ht
    cases t with
    | array q =>
        have hq : r.index ≠ q.index := by
          rintro hq
          exact ht (by cases r; cases q; simp_all)
        simp [Agree, items, setItems, hq]
    | object q => rfl

theorem writes_setEntries {h : Heap} {r : ObjectRef} (hr : r.index < h.objects.size)
    (entries : Entries Node) :
    h.Writes (h.setEntries r entries) (.object r) entries.values where
  allocated := by
    intro t
    cases t with
    | array q => simp [Allocated, setEntries]
    | object q =>
        simp only [Allocated, setEntries, Array.size_setIfInBounds]
        constructor
        · exact Or.inl
        · rintro (hq | hq)
          · exact hq
          · cases hq
            exact hr
  written := congrArg Entries.values (entries_setEntries_self hr entries)
  other := by
    intro t ht
    cases t with
    | array q => rfl
    | object q =>
        have hq : r.index ≠ q.index := by
          rintro hq
          exact ht (by cases r; cases q; simp_all)
        simp [Agree, Heap.entries, setEntries, hq]

theorem writes_newArray (h : Heap) (nodes : List Node) :
    h.Writes (h.newArray nodes).1 (.array (h.newArray nodes).2) nodes where
  allocated := by
    intro t
    cases t with
    | array q =>
        obtain ⟨i⟩ := q
        simp only [Allocated, newArray, Array.size_push, Storage.array.injEq, ArrayRef.mk.injEq]
        omega
    | object q => simp [Allocated, newArray]
  written := by
    simp [children, items, newArray]
  other := by
    intro t ht
    cases t with
    | array q =>
        have hq : q.index ≠ h.arrays.size := by
          rintro hq
          exact ht (by cases q; simp_all [newArray])
        simp [Agree, items, newArray, Array.getElem?_push, hq]
    | object q => rfl

theorem writes_newObject (h : Heap) (entries : Entries Node) :
    h.Writes (h.newObject entries).1 (.object (h.newObject entries).2) entries.values where
  allocated := by
    intro t
    cases t with
    | array q => simp [Allocated, newObject]
    | object q =>
        obtain ⟨i⟩ := q
        simp only [Allocated, newObject, Array.size_push, Storage.object.injEq,
          ObjectRef.mk.injEq]
        omega
  written := by
    simp [children, Heap.entries, newObject]
  other := by
    intro t ht
    cases t with
    | array q => rfl
    | object q =>
        have hq : q.index ≠ h.objects.size := by
          rintro hq
          exact ht (by cases q; simp_all [newObject])
        simp [Agree, Heap.entries, newObject, Array.getElem?_push, hq]

/-! ## The writes that there are -/

theorem WellFormed.setItems {h : Heap} (hw : h.WellFormed) {r : ArrayRef}
    (hr : h.Allocated (.array r)) {nodes : List Node}
    (hnodes : ∀ n ∈ nodes, n ∈ h.items r ∨ h.Knows n ∧ ¬ h.Reaches n (.array r)) :
    (h.setItems r nodes).WellFormed :=
  hw.write (writes_setItems hr nodes) hnodes hw.keys_nodup

theorem WellFormed.setEntries {h : Heap} (hw : h.WellFormed) {r : ObjectRef}
    (hr : h.Allocated (.object r)) {entries : Entries Node} (hkeys : entries.keys.Nodup)
    (hnodes : ∀ n ∈ entries.values,
      n ∈ (h.entries r).values ∨ h.Knows n ∧ ¬ h.Reaches n (.object r)) :
    (h.setEntries r entries).WellFormed := by
  have hwr := writes_setEntries hr entries
  apply hw.write hwr hnodes
  intro q
  by_cases hq : q = r
  · rw [hq, entries_setEntries_self hr]
    exact hkeys
  · have hother : (h.setEntries r entries).entries q = h.entries q :=
      hwr.other (.object q) fun he => hq (Storage.object.inj he)
    rw [hother]
    exact hw.keys_nodup q

theorem WellFormed.newArray {h : Heap} (hw : h.WellFormed) {nodes : List Node}
    (hnodes : ∀ n ∈ nodes, h.Knows n) : (h.newArray nodes).1.WellFormed := by
  refine hw.write (writes_newArray h nodes) (fun n hn => Or.inr ⟨hnodes n hn, ?_⟩)
    hw.keys_nodup
  exact hw.not_reaches_fresh (hnodes n hn) (Nat.lt_irrefl _)

theorem WellFormed.newObject {h : Heap} (hw : h.WellFormed) {entries : Entries Node}
    (hkeys : entries.keys.Nodup) (hnodes : ∀ n ∈ entries.values, h.Knows n) :
    (h.newObject entries).1.WellFormed := by
  refine hw.write (writes_newObject h entries) (fun n hn => Or.inr ⟨hnodes n hn, ?_⟩) ?_
  · exact hw.not_reaches_fresh (hnodes n hn) (Nat.lt_irrefl _)
  · intro q
    by_cases hq : q.index = h.objects.size
    · have he : (h.newObject entries).1.entries q = entries := by
        simp [Heap.entries, Heap.newObject, hq]
      rw [he]
      exact hkeys
    · have he : (h.newObject entries).1.entries q = h.entries q := by
        simp [Heap.entries, Heap.newObject, Array.getElem?_push, hq]
      rw [he]
      exact hw.keys_nodup q

/-- There is nothing wrong with a heap without containers. -/
theorem wellFormed_empty : empty.WellFormed where
  closed := by
    intro s n hn
    have hs : ¬ empty.Allocated s := by cases s <;> simp [Allocated, empty]
    rw [children_of_not_allocated hs] at hn
    exact absurd hn List.not_mem_nil
  acyclic := by
    intro s hss
    obtain ⟨t, hst, _⟩ := TransGen.head'_iff.mp hss
    have ha := hst.allocated_left
    cases s <;> simp [Allocated, empty] at ha
  keys_nodup := by
    intro r
    have he : empty.entries r = [] := entries_of_size_le (Nat.zero_le _)
    rw [he]
    exact List.nodup_nil

end Heap
end DynamicData
