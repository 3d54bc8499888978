import DynamicData.Proofs.Heap.Equivalence
import DynamicData.Proofs.Heap.Hashing
import DynamicData.Proofs.Json.Layout
import DynamicData.Proofs.Sorted
import DynamicData.Proofs.Term.Merged

/-!
# Equal nodes have one pretty text

The pretty text of a tree is the text of its canonical form. Nodes that are equal have the
same canonical form, whatever order the keys of their objects came in and whichever form
their integers are kept in: the only equal nodes that a text tells apart are the two zeros.
-/

namespace DynamicData

/-- The zero with a sign, which is equal to the other zero and written differently. -/
def Binary64.IsNegativeZero (x : Binary64) : Prop :=
  x.isZero = true ∧ x.isNegative = true

instance : DecidablePred Binary64.IsNegativeZero :=
  fun _ => inferInstanceAs (Decidable (_ ∧ _))

/-- A zero without a sign is the pattern without a bit. -/
theorem Binary64.bits_eq_zero {x : Binary64} (hzero : x.isZero = true) (hx : ¬ x.IsNegativeZero) :
    x.bits = 0 := by
  have hmagnitude : x.bits.toNat % 2 ^ 63 = 0 := of_decide_eq_true hzero
  have hlt : ¬ 2 ^ 63 ≤ x.bits.toNat := fun hle => hx ⟨hzero, decide_eq_true hle⟩
  apply UInt64.toNat_inj.mp
  show x.bits.toNat = 0
  omega

/-- Without a negative zero, doubles that are equal are the same pattern. -/
theorem Binary64.eq_of_equals {x y : Binary64} (hxy : x.equals y = true)
    (hx : ¬ x.IsNegativeZero) (hy : ¬ y.IsNegativeZero) : x = y := by
  simp only [equals, Bool.and_eq_true, Bool.or_eq_true, beq_iff_eq] at hxy
  obtain ⟨-, rfl | ⟨hx', hy'⟩⟩ := hxy
  · rfl
  · obtain ⟨u⟩ := x
    obtain ⟨v⟩ := y
    exact congrArg Binary64.mk ((bits_eq_zero hx' hx).trans (bits_eq_zero hy' hy).symm)

namespace Tree

variable {ι : Type}

/-! ## The text of the canonical form -/

theorem compact_unsigned (u : UInt64) : compact (unsigned u : Document) = toString u.toNat := by
  unfold unsigned
  split
  · next hu =>
      rw [compact, Int64.toInt_ofNat_of_lt hu]
      rfl
  · rfl

theorem indented_scalar {t : Tree ι} (ht : t.depth = 0) (level : Nat) :
    t.indented level = t.compact := by
  cases t <;> first | rfl | simp [depth] at ht

theorem indentedItems_map {κ : Type} {f : Tree ι → Tree κ} {level : Nat} {items : List (Tree ι)}
    (hf : ∀ t ∈ items, (f t).indented level = t.indented level) :
    indentedItems level (items.map f) = indentedItems level items := by
  induction items with
  | nil => rfl
  | cons t rest ih =>
      rw [List.forall_mem_cons] at hf
      rw [List.map_cons, indentedItems, indentedItems, hf.1, ih hf.2]

theorem indentedEntries_map {κ : Type} {f : Tree ι → Tree κ} {level : Nat}
    {entries : List (String × Tree ι)}
    (hf : ∀ e ∈ entries, (f e.2).indented level = e.2.indented level) :
    indentedEntries level (entries.map fun e => (e.1, f e.2)) = indentedEntries level entries := by
  induction entries with
  | nil => rfl
  | cons e rest ih =>
      obtain ⟨k, t⟩ := e
      rw [List.forall_mem_cons] at hf
      rw [List.map_cons, indentedEntries, indentedEntries, hf.1, ih hf.2]

/-- What comes back from a text has the text it came from. -/
theorem indented_jsonForm (t : Tree ι) (level : Nat) :
    t.jsonForm.indented level = t.indented level := by
  induction t using induction generalizing level with
  | uint u =>
      have hdepth : (Tree.uint u : Tree ι).jsonForm.depth = 0 := depth_jsonForm _
      rw [indented_scalar hdepth]
      exact compact_unsigned u
  | float x =>
      have hdepth : (Tree.float x : Tree ι).jsonForm.depth = 0 := depth_jsonForm _
      rw [indented_scalar hdepth, indented_scalar rfl, jsonForm, image]
      split <;> simp_all [compact, Json.ofBinary64]
  | array mark items ih =>
      rw [jsonForm_array]
      cases items with
      | nil => rfl
      | cons t rest =>
          rw [List.forall_mem_cons] at ih
          rw [List.map_cons, indented, indented, ih.1,
            indentedItems_map fun u hu => ih.2 u hu (level + 1)]
  | object mark entries ih =>
      rw [jsonForm_object]
      cases entries with
      | nil => rfl
      | cons e rest =>
          rw [List.forall_mem_cons] at ih
          rw [List.map_cons, indented, indented, ih.1,
            indentedEntries_map fun u hu => ih.2 u hu (level + 1)]
  | _ => rfl

/-- The pretty text of a tree is the text of its canonical form. -/
theorem pretty_eq (t : Tree ι) : t.pretty = t.canonical.indented 0 := by
  rw [pretty, ← indented_jsonForm, jsonForm_sorted]

/-! ## Scalars that are alike -/

/-- The canonical form of an integer is the one form that its value has. -/
theorem integer?_of_integerValue? {t : Tree ι} {i : Int} (ht : t.integerValue? = some i) :
    integer? i = some t.canonical := by
  cases t <;> cases ht
  · exact Term.integer?_toInt _
  · rw [canonical_uint]
    exact Term.integer?_toNat _

/-- Scalars that are alike have the same canonical form, the zeros apart. -/
theorem Alike.canonical_eq_of_scalar {t u : Tree Storage} (halike : t.Alike u) (ht : t.depth = 0)
    (hzero : t.EveryDouble fun x => ¬ x.IsNegativeZero)
    (hzero' : u.EveryDouble fun x => ¬ x.IsNegativeZero) : t.canonical = u.canonical := by
  cases halike with
  | null => rfl
  | bool b => rfl
  | integer hi hj =>
      have hform := integer?_of_integerValue? hi
      exact Option.some.inj (hform.symm.trans (integer?_of_integerValue? hj))
  | float hxy =>
      cases hzero with
      | float hx =>
          cases hzero' with
          | float hy => rw [Binary64.eq_of_equals (Binary64.equals_iff.mpr hxy) hx hy]
  | text s => rfl
  | array length items => simp [depth] at ht
  | object keys values => simp [depth] at ht

end Tree

namespace Heap

variable {h : Heap}

/-! ## Equal containers -/

theorem WellFormed.everyDouble_children (hw : h.WellFormed) {p : Binary64 → Prop} {n : Node}
    {s : Storage} (hn : n.storage? = some s) (hs : h.Allocated s)
    (hdoubles : (h.tree n).EveryDouble p) : ∀ m ∈ h.children s, (h.tree m).EveryDouble p := by
  cases n with
  | array r =>
      cases hn
      rw [hw.tree_array hs] at hdoubles
      cases hdoubles with
      | array _ parts => exact fun m hm => parts _ (List.mem_map_of_mem hm)
  | object r =>
      cases hn
      rw [hw.tree_object hs] at hdoubles
      cases hdoubles with
      | object _ parts =>
          intro m hm
          obtain ⟨e, he, rfl⟩ := List.mem_map.mp hm
          exact parts _ (List.mem_map_of_mem he)
  | _ => cases hn

theorem WellFormed.canonical_array_congr (hw : h.WellFormed) {a b : ArrayRef}
    (ha : h.Allocated (.array a)) (hb : h.Allocated (.array b))
    (hitems : (h.items a).map (fun n => (h.tree n).canonical) =
      (h.items b).map fun n => (h.tree n).canonical) :
    (h.tree (.array a)).canonical = (h.tree (.array b)).canonical := by
  rw [hw.tree_array ha, hw.tree_array hb, Tree.canonical_array, Tree.canonical_array,
    List.map_map, List.map_map]
  exact congrArg (Tree.array ()) hitems

theorem WellFormed.canonical_object_congr (hw : h.WellFormed) {o p : ObjectRef}
    (ho : h.Allocated (.object o)) (hp : h.Allocated (.object p))
    (hentries : ((h.entries o).map fun e => (e.1, (h.tree e.2).canonical)).Perm
      ((h.entries p).map fun e => (e.1, (h.tree e.2).canonical))) :
    (h.tree (.object o)).canonical = (h.tree (.object p)).canonical := by
  have hkeys : (Entries.keys ((h.entries o).map
      fun e => (e.1, (h.tree e.2).canonical))).Nodup := by
    rw [Entries.keys_map fun n => (h.tree n).canonical]
    exact hw.keys_nodup o
  rw [hw.tree_object ho, hw.tree_object hp, Tree.canonical_object, Tree.canonical_object,
    List.map_map, List.map_map]
  exact congrArg (Tree.object ()) (Entries.sortByKey_eq_of_perm hkeys hentries)

/-- Entries under the same keys that have equal images key by key have the same images in some
order. -/
theorem perm_map_of_lookups {β : Type} {f : Node → β} {es fs : Entries Node}
    (hes : es.keys.Nodup) (hfs : fs.keys.Nodup) (hkeys : ∀ k, k ∈ es.keys ↔ k ∈ fs.keys)
    (hvalues : ∀ k m n, es.get? k = some m → fs.get? k = some n → f m = f n) :
    (es.map fun e => (e.1, f e.2)).Perm (fs.map fun e => (e.1, f e.2)) := by
  obtain ⟨hlen, hentries⟩ :=
    (Entries.covers_iff (r := fun m n => f m = f n) hes hfs).mpr ⟨hkeys, hvalues⟩
  exact perm_map_of_entries (r := fun m n => f m = f n) hes hlen hentries fun _ _ _ _ heq => heq

/-- Nodes that are equal have the same canonical form, if there is no negative zero in them. -/
theorem WellFormed.canonical_eq_of_same (hw : h.WellFormed) {a b : Node} (ha : h.Knows a)
    (hb : h.Knows b) (hzero : (h.tree a).EveryDouble fun x => ¬ x.IsNegativeZero)
    (hzero' : (h.tree b).EveryDouble fun x => ¬ x.IsNegativeZero) (hs : h.same a b = true) :
    (h.tree a).canonical = (h.tree b).canonical := by
  refine hw.same_induction (P := fun a b => (h.tree a).EveryDouble (fun x => ¬ x.IsNegativeZero) →
    (h.tree b).EveryDouble (fun x => ¬ x.IsNegativeZero) →
      (h.tree a).canonical = (h.tree b).canonical) ?_ ?_ ?_ ?_ ha hb hs hzero hzero'
  · exact fun m n hm _ halike => halike.canonical_eq_of_scalar (depth_tree_scalar hm)
  · exact fun _ _ _ _ _ => rfl
  · intro a b ha hb hlen hitems hzero hzero'
    have hparts := hw.everyDouble_children (s := .array a) rfl ha hzero
    have hparts' := hw.everyDouble_children (s := .array b) rfl hb hzero'
    apply hw.canonical_array_congr ha hb
    refine List.ext_getElem (by simp [hlen]) fun i hi hj => ?_
    rw [List.length_map] at hi hj
    rw [List.getElem_map, List.getElem_map]
    exact (hitems i _ _ (List.getElem?_eq_getElem hi) (List.getElem?_eq_getElem hj)).2
      (hparts _ (List.getElem_mem hi)) (hparts' _ (List.getElem_mem hj))
  · intro o p ho hp hkeys hvalues hzero hzero'
    have hparts := hw.everyDouble_children (s := .object o) rfl ho hzero
    have hparts' := hw.everyDouble_children (s := .object p) rfl hp hzero'
    apply hw.canonical_object_congr ho hp
    exact perm_map_of_lookups (hw.keys_nodup o) (hw.keys_nodup p) hkeys fun k m n hm hn =>
      (hvalues k m n hm hn).2 (hparts m (mem_children_object hm)) (hparts' n (mem_children_object hn))

/-- In every heap that a history leads to, nodes that are equal have the same pretty text, if
there is no negative zero in them. -/
theorem Reachable.pretty_eq_of_same (hr : h.Reachable) {a b : Node} (ha : h.Knows a)
    (hb : h.Knows b) (hzero : (h.tree a).EveryDouble fun x => ¬ x.IsNegativeZero)
    (hzero' : (h.tree b).EveryDouble fun x => ¬ x.IsNegativeZero) (hs : h.same a b = true) :
    (h.tree a).pretty = (h.tree b).pretty := by
  rw [Tree.pretty_eq, Tree.pretty_eq,
    hr.wellFormed.canonical_eq_of_same ha hb hzero hzero' hs]

/-- Two objects with their keys in different orders, an integer in both forms, and one array
that holds a NaN and is therefore equal only as the same storage. Zeros of both signs are
equal and have different texts. -/
theorem pretty_reordered_objects :
    let h₁ := empty.after (.newArray [.double (.nan false)])
    let h₂ := h₁.after (.newObject [("n", .int 7), ("shared", .array ⟨0⟩)])
    let h := h₂.after (.newObject [("shared", .array ⟨0⟩), ("n", .uint 7)])
    h.same (.object ⟨0⟩) (.object ⟨1⟩) = true ∧
      (h.tree (.object ⟨0⟩)).compact ≠ (h.tree (.object ⟨1⟩)).compact ∧
      (h.tree (.object ⟨0⟩)).pretty = (h.tree (.object ⟨1⟩)).pretty ∧
      h.same (.float ⟨0⟩) (.float (.neg ⟨0⟩)) = true ∧
      (h.tree (.float ⟨0⟩)).pretty ≠ (h.tree (.float (.neg ⟨0⟩))).pretty := by
  intro h₁ h₂ h
  have hr : h.Reachable :=
    .after (.after (.after .empty (by decide)) (by decide)) (by decide)
  have ha : h.Knows (.object ⟨0⟩) := by decide
  have hb : h.Knows (.object ⟨1⟩) := by decide
  have hs : h.same (.object ⟨0⟩) (.object ⟨1⟩) = true := by decide
  have hshared : (h.tree (.array ⟨0⟩)).EveryDouble fun x => ¬ x.IsNegativeZero :=
    .array _ (List.forall_mem_singleton.mpr (.float (by decide)))
  have hzero : (h.tree (.object ⟨0⟩)).EveryDouble fun x => ¬ x.IsNegativeZero :=
    .object _ (List.forall_mem_cons.mpr ⟨.int 7, List.forall_mem_singleton.mpr hshared⟩)
  have hzero' : (h.tree (.object ⟨1⟩)).EveryDouble fun x => ¬ x.IsNegativeZero :=
    .object _ (List.forall_mem_cons.mpr ⟨hshared, List.forall_mem_singleton.mpr (.uint 7)⟩)
  exact ⟨hs, by decide, hr.pretty_eq_of_same ha hb hzero hzero' hs, by decide, by decide⟩

end Heap
end DynamicData
