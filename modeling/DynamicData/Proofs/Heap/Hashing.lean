import DynamicData.Proofs.Heap.Equality
import DynamicData.Proofs.Heap.History
import DynamicData.Tree.Digest

/-!
# Equal nodes hash alike

Equality looks the keys of one object up in the other and takes containers in the same
storage for equal without looking inside; a hash goes through the entries in the order of
their keys. Both depend on the same things: where two nodes are equal, they feed the same
sequence to a hasher.
-/

namespace DynamicData

namespace Tree

variable {ι : Type}

theorem digestItems_eq_flatMap (items : List (Tree ι)) :
    digestItems items = items.flatMap digest := by
  induction items with
  | nil => rfl
  | cons t rest ih => rw [digestItems, ih, List.flatMap_cons]

theorem digestEntries_eq_map (entries : List (String × Tree ι)) :
    digestEntries entries = entries.map fun e => (e.1, digest e.2) := by
  induction entries with
  | nil => rfl
  | cons e rest ih => rw [digestEntries, ih, List.map_cons]

theorem digest_array (mark : ι) (items : List (Tree ι)) :
    digest (.array mark items) =
      .kind .array :: .length items.length :: items.flatMap digest := by
  rw [digest, digestItems_eq_flatMap]

theorem digest_object (mark : ι) (entries : List (String × Tree ι)) :
    digest (.object mark entries) = .kind .object :: .length entries.length ::
      (Entries.sortByKey (entries.map fun e => (e.1, digest e.2))).flatMap
        fun e => .text e.1 :: e.2 := by
  rw [digest, digestEntries_eq_map]

/-- Doubles that are equal are the same pattern or both zero. -/
theorem digest_float_of_equals {x y : Binary64} (hxy : x.equals y = true) :
    digest (.float x : Tree ι) = digest (.float y : Tree ι) := by
  simp only [Binary64.equals, Bool.and_eq_true, Bool.or_eq_true, beq_iff_eq] at hxy
  obtain ⟨-, rfl | ⟨hx, hy⟩⟩ := hxy
  · rfl
  · rw [digest, digest, if_pos hx, if_pos hy]

/-- Integers hash by their value, whichever form they are kept in. -/
theorem digest_eq_of_same_scalar {t u : Tree Storage} (ht : t.depth = 0)
    (hs : t.same u = true) : t.digest = u.digest := by
  cases t with
  | array p items => simp [depth] at ht
  | object p entries => simp [depth] at ht
  | float x =>
      cases u with
      | float y =>
          rw [same] at hs
          exact digest_float_of_equals hs
      | _ => simp [same] at hs
  | _ => cases u <;> simp_all [same, digest]

end Tree

namespace Heap

/-- Lists that are equal item by item, under a relation that implies equal images, have
equal images. -/
theorem map_eq_of_forall₂ {α β : Type} {r : α → α → Prop} {f : α → β} {xs ys : List α}
    (hr : List.Forall₂ r xs ys) (hf : ∀ x ∈ xs, ∀ y ∈ ys, r x y → f x = f y) :
    xs.map f = ys.map f := by
  induction hr with
  | nil => rfl
  | cons hxy _ ih =>
      rw [List.map_cons, List.map_cons, hf _ List.mem_cons_self _ List.mem_cons_self hxy,
        ih fun x hx y hy => hf x (List.mem_cons_of_mem _ hx) y (List.mem_cons_of_mem _ hy)]

/-- Entries that are equal key by key, under a relation that implies equal images, have
the same images in some order. -/
theorem perm_map_of_entries {β : Type} {r : Node → Node → Prop} {f : Node → β}
    {es fs : Entries Node} (hes : es.keys.Nodup) (hlen : es.length = fs.length)
    (hr : ∀ e ∈ es, ∃ n, fs.get? e.1 = some n ∧ r e.2 n)
    (hf : ∀ m ∈ es.values, ∀ n ∈ fs.values, r m n → f m = f n) :
    (es.map fun e => (e.1, f e.2)).Perm (fs.map fun e => (e.1, f e.2)) := by
  refine Entries.perm_of_subset ?_ ?_ (by simp [hlen])
  · rw [Entries.keys_map]
    exact hes
  · intro d hd
    obtain ⟨e, he, rfl⟩ := List.mem_map.mp hd
    obtain ⟨n, hn, hrn⟩ := hr e he
    rw [hf e.2 (List.mem_map_of_mem he) n (Entries.mem_values_of_get? hn) hrn]
    exact List.mem_map_of_mem (f := fun e => (e.1, f e.2)) (Entries.mem_of_get? hn)

/-- The hash of an array depends on nothing but what its items feed, in order. -/
theorem WellFormed.digest_array_congr {h : Heap} (hw : h.WellFormed) {a b : ArrayRef}
    (ha : h.Allocated (.array a)) (hb : h.Allocated (.array b))
    (hitems : (h.items a).map (fun n => (h.tree n).digest) =
      (h.items b).map fun n => (h.tree n).digest) :
    (h.tree (.array a)).digest = (h.tree (.array b)).digest := by
  have hlen := congrArg List.length hitems
  rw [List.length_map, List.length_map] at hlen
  rw [hw.tree_array ha, hw.tree_array hb, Tree.digest_array, Tree.digest_array,
    List.flatMap_def, List.flatMap_def, List.map_map, List.map_map, List.length_map,
    List.length_map, hlen]
  exact congrArg (fun l => _ :: _ :: List.flatten l) hitems

/-- The hash of an object depends on nothing but what its values feed under their keys, in
any order. -/
theorem WellFormed.digest_object_congr {h : Heap} (hw : h.WellFormed) {o p : ObjectRef}
    (ho : h.Allocated (.object o)) (hp : h.Allocated (.object p))
    (hentries : ((h.entries o).map fun e => (e.1, (h.tree e.2).digest)).Perm
      ((h.entries p).map fun e => (e.1, (h.tree e.2).digest))) :
    (h.tree (.object o)).digest = (h.tree (.object p)).digest := by
  have hlen := hentries.length_eq
  rw [List.length_map, List.length_map] at hlen
  have hkeys : (Entries.keys ((h.entries o).map
      fun e => (e.1, (h.tree e.2).digest))).Nodup := by
    rw [Entries.keys_map fun n => (h.tree n).digest]
    exact hw.keys_nodup o
  rw [hw.tree_object ho, hw.tree_object hp, Tree.digest_object, Tree.digest_object,
    List.map_map, List.map_map, List.length_map, List.length_map, hlen]
  exact congrArg (fun l => _ :: _ :: List.flatMap _ l)
    (Entries.sortByKey_eq_of_perm hkeys hentries)

/-- In every heap that a history leads to, nodes that are equal feed the same sequence to a
hasher. The induction is over what the first node contains; containers in the same storage
need no look inside. -/
theorem Reachable.digest_eq_of_same {h : Heap} (hr : h.Reachable) {a b : Node}
    (ha : h.Knows a) (hb : h.Knows b) (hs : h.same a b = true) :
    (h.tree a).digest = (h.tree b).digest := by
  have hw := hr.wellFormed
  revert b
  refine hw.induction (P := fun a => ∀ {b}, h.Knows b → h.same a b = true →
    (h.tree a).digest = (h.tree b).digest) ?_ ?_ a ha
  · intro a hscalar b _ hs
    refine Tree.digest_eq_of_same_scalar ?_ hs
    cases a with
    | array r => cases hscalar
    | object r => cases hscalar
    | _ => simp [Tree.depth]
  · intro a s hstorage ha ih b hb hs
    cases a with
    | array r =>
        cases hstorage
        have hkind := hw.kind_eq_of_same (knows_array.mpr ha) hb hs
        cases b with
        | array q =>
            rcases (hw.same_array_iff ha (knows_array.mp hb)).mp hs with rfl | hitems
            · rfl
            · apply hw.digest_array_congr ha (knows_array.mp hb)
              exact map_eq_of_forall₂ hitems fun m hm n hn hmn =>
                ih m hm (hw.closed (.array q) n hn) hmn
        | _ => cases hkind
    | object r =>
        cases hstorage
        have hkind := hw.kind_eq_of_same (knows_object.mpr ha) hb hs
        cases b with
        | object q =>
            rcases (hw.same_object_iff ha (knows_object.mp hb)).mp hs with rfl | ⟨hlen, hentries⟩
            · rfl
            · apply hw.digest_object_congr ha (knows_object.mp hb)
              exact perm_map_of_entries (hw.keys_nodup r) hlen hentries fun m hm n hn hmn =>
                ih m hm (hw.closed (.object q) n hn) hmn
        | _ => cases hkind
    | _ => cases hstorage

/-- Two objects with their keys in different orders, an integer in both forms, zeros of both
signs, and one array that holds a NaN and is therefore equal only as the same storage. -/
theorem digest_reordered_objects :
    let h₁ := empty.after (.newArray [.double (.nan false)])
    let h₂ := h₁.after (.newObject
      [("n", .int 7), ("z", .float ⟨0⟩), ("shared", .array ⟨0⟩)])
    let h := h₂.after (.newObject
      [("shared", .array ⟨0⟩), ("z", .float (.neg ⟨0⟩)), ("n", .uint 7)])
    h.Reachable ∧ h.Knows (.object ⟨0⟩) ∧ h.Knows (.object ⟨1⟩) ∧
      h.same (.float (.nan false)) (.float (.nan false)) = false ∧
      h.same (.object ⟨0⟩) (.object ⟨1⟩) = true ∧
      (h.tree (.object ⟨0⟩)).digest = (h.tree (.object ⟨1⟩)).digest := by
  intro h₁ h₂ h
  have hr : h.Reachable :=
    .after (.after (.after .empty (by decide)) (by decide)) (by decide)
  have ha : h.Knows (.object ⟨0⟩) := by decide
  have hb : h.Knows (.object ⟨1⟩) := by decide
  have hs : h.same (.object ⟨0⟩) (.object ⟨1⟩) = true := by decide
  exact ⟨hr, ha, hb, by decide, hs, hr.digest_eq_of_same ha hb hs⟩

end Heap
end DynamicData
