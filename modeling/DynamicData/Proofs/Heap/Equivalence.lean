import DynamicData.Proofs.Heap.Equality
import DynamicData.Proofs.Heap.History
import DynamicData.Proofs.Number.Equality
import DynamicData.Proofs.Tree

/-!
# Equality is an equivalence, sharing or not

Equality of nodes takes containers in the same storage for equal without a look inside, and
looks the keys of one object up in the other. Neither is seen from outside: equality is
symmetric and transitive in every heap, and without NaNs it is reflexive and the same as
`Tree.Alike`, a relation of trees that knows no storage. What a NaN changes is that a
container of it is equal to itself and to nothing else.
-/

namespace DynamicData

/-! ## Entries compared by key -/

/-- Where each key stands once, a look-up of one's entries among as many others compares both
key by key. -/
theorem Entries.covers_iff {α β : Type} {r : α → β → Prop} {es : Entries α} {fs : Entries β}
    (hes : es.keys.Nodup) (hfs : fs.keys.Nodup) :
    (es.length = fs.length ∧ ∀ e ∈ es, ∃ w, fs.get? e.1 = some w ∧ r e.2 w) ↔
      (∀ k, k ∈ es.keys ↔ k ∈ fs.keys) ∧
        ∀ k v w, es.get? k = some v → fs.get? k = some w → r v w := by
  have hlength : es.keys.length = es.length ∧ fs.keys.length = fs.length := by
    simp [Entries.keys]
  constructor
  · rintro ⟨hlen, hcover⟩
    have hsub : es.keys ⊆ fs.keys := by
      intro k hk
      obtain ⟨v, hv⟩ := mem_keys_iff.mp hk
      obtain ⟨w, hw, -⟩ := hcover (k, v) (mem_of_get? hv)
      exact mem_keys_iff.mpr ⟨w, hw⟩
    have hperm : es.keys.Perm fs.keys :=
      (hes.subperm hsub).perm_of_length_le (by omega)
    refine ⟨fun k => hperm.mem_iff, fun k v w hv hw => ?_⟩
    obtain ⟨w', hw', hr⟩ := hcover (k, v) (mem_of_get? hv)
    rw [hw] at hw'
    cases hw'
    exact hr
  · rintro ⟨hkeys, hvalues⟩
    have hlen := ((List.perm_ext_iff_of_nodup hes hfs).mpr hkeys).length_eq
    refine ⟨by omega, fun e he => ?_⟩
    obtain ⟨w, hw⟩ := mem_keys_iff.mp ((hkeys e.1).mp (List.mem_map_of_mem he))
    exact ⟨w, hw, hvalues e.1 e.2 w (get?_of_mem hes he) hw⟩

/-! ## Trees that are alike -/

namespace Tree

variable {ι κ μ : Type}

/-- The number that an integer stands for, in either form. -/
def integerValue? : Tree ι → Option Int
  | .int i => some i.toInt
  | .uint u => some u.toNat
  | _ => none

/-- Structural equality. Integers are compared as numbers and so are doubles, arrays item by
item, and objects by their set of keys and the values under each key. Marks play no part. -/
inductive Alike : Tree ι → Tree κ → Prop
  | null : Alike .null .null
  | bool (b : Bool) : Alike (.bool b) (.bool b)
  | integer {t : Tree ι} {u : Tree κ} {i : Int} (ht : t.integerValue? = some i)
      (hu : u.integerValue? = some i) : Alike t u
  | float {x y : Binary64} (hxy : x.SameNumber y) : Alike (.float x) (.float y)
  | text (s : String) : Alike (.text s) (.text s)
  | array {p : ι} {q : κ} {xs : List (Tree ι)} {ys : List (Tree κ)}
      (length : xs.length = ys.length)
      (items : ∀ (i : Nat) t u, xs[i]? = some t → ys[i]? = some u → Alike t u) :
      Alike (.array p xs) (.array q ys)
  | object {p : ι} {q : κ} {es : List (String × Tree ι)} {fs : List (String × Tree κ)}
      (keys : ∀ k, k ∈ Entries.keys es ↔ k ∈ Entries.keys fs)
      (values : ∀ k t u, Entries.get? k es = some t → Entries.get? k fs = some u → Alike t u) :
      Alike (.object p es) (.object q fs)

theorem alike_array_iff {p : ι} {q : κ} {xs : List (Tree ι)} {ys : List (Tree κ)} :
    (Tree.array p xs).Alike (.array q ys) ↔ xs.length = ys.length ∧
      ∀ (i : Nat) t u, xs[i]? = some t → ys[i]? = some u → t.Alike u := by
  refine ⟨fun h => ?_, fun h => .array h.1 h.2⟩
  cases h with
  | integer ht hu => cases ht
  | array length items => exact ⟨length, items⟩

theorem alike_object_iff {p : ι} {q : κ} {es : List (String × Tree ι)}
    {fs : List (String × Tree κ)} :
    (Tree.object p es).Alike (.object q fs) ↔
      (∀ k, k ∈ Entries.keys es ↔ k ∈ Entries.keys fs) ∧
        ∀ k t u, Entries.get? k es = some t → Entries.get? k fs = some u → t.Alike u := by
  refine ⟨fun h => ?_, fun h => .object h.1 h.2⟩
  cases h with
  | integer ht hu => cases ht
  | object keys values => exact ⟨keys, values⟩

theorem kind_of_integerValue? {t : Tree ι} {i : Int} (ht : t.integerValue? = some i) :
    t.kind = .integer := by
  cases t <;> first | rfl | cases ht

theorem Alike.kind_eq {t : Tree ι} {u : Tree κ} (h : t.Alike u) : t.kind = u.kind := by
  cases h with
  | integer ht hu => rw [kind_of_integerValue? ht, kind_of_integerValue? hu]
  | _ => rfl

theorem Alike.symm {t : Tree ι} {u : Tree κ} (h : t.Alike u) : u.Alike t := by
  induction h with
  | null => exact .null
  | bool b => exact .bool b
  | integer ht hu => exact .integer hu ht
  | float hxy => exact .float hxy.symm
  | text s => exact .text s
  | array length items ih => exact .array length.symm fun i t u ht hu => ih i u t hu ht
  | object keys values ih =>
      exact .object (fun k => (keys k).symm) fun k t u ht hu => ih k u t hu ht

theorem Alike.trans {t : Tree ι} {u : Tree κ} {v : Tree μ} (htu : t.Alike u)
    (huv : u.Alike v) : t.Alike v := by
  induction htu generalizing v with
  | null => cases huv with
    | null => exact .null
    | integer hu hv => cases hu
  | bool b => cases huv with
    | bool b => exact .bool b
    | integer hu hv => cases hu
  | integer ht hu => cases huv with
    | integer hu' hv =>
        cases hu.symm.trans hu'
        exact .integer ht hv
    | _ => cases hu
  | float hxy => cases huv with
    | float hyz => exact .float (hxy.trans hyz)
    | integer hu hv => cases hu
  | text s => cases huv with
    | text s => exact .text s
    | integer hu hv => cases hu
  | array length items ih => cases huv with
    | integer hu hv => cases hu
    | array length' items' =>
        refine .array (length.trans length') fun i t v ht hv => ?_
        have hi := (List.getElem?_eq_some_iff.mp ht).1
        have hu := List.getElem?_eq_getElem (length ▸ hi)
        exact ih i t _ ht hu (items' i _ v hu hv)
  | object keys values ih => cases huv with
    | integer hu hv => cases hu
    | object keys' values' =>
        refine .object (fun k => (keys k).trans (keys' k)) fun k t v ht hv => ?_
        obtain ⟨u, hu⟩ := Entries.mem_keys_iff.mp ((keys k).mp (Entries.mem_keys_iff.mpr ⟨t, ht⟩))
        exact ih k t u ht hu (values' k u v hu hv)

/-- Without NaNs a tree is alike to itself. -/
theorem alike_self {t : Tree ι} (ht : t.EveryDouble fun x => x.isNaN = false) : t.Alike t := by
  induction ht with
  | null => exact .null
  | bool b => exact .bool b
  | int i => exact .integer rfl rfl
  | uint u => exact .integer rfl rfl
  | float hx => exact .float (Binary64.sameNumber_self.mpr hx)
  | text s => exact .text s
  | array mark parts ih =>
      refine .array rfl fun i t u ht hu => ?_
      cases ht.symm.trans hu
      exact ih t (List.mem_of_getElem? ht)
  | object mark parts ih =>
      refine .object (fun k => Iff.rfl) fun k t u ht hu => ?_
      cases ht.symm.trans hu
      exact ih (k, t) (Entries.mem_of_get? ht)

/-! ## Scalars -/

theorem exists_integerValue? {t : Tree ι} (ht : t.kind = .integer) :
    ∃ i, t.integerValue? = some i := by
  cases t with
  | int i => exact ⟨i.toInt, rfl⟩
  | uint u => exact ⟨u.toNat, rfl⟩
  | _ => cases ht

/-- Integers are equal as numbers, whichever form each is kept in. -/
theorem same_integer_iff {t u : Tree Storage} {i j : Int} (ht : t.integerValue? = some i)
    (hu : u.integerValue? = some j) : t.same u = true ↔ i = j := by
  cases t <;> cases ht <;> cases u <;> cases hu
  · rw [same, beq_iff_eq, Int64.toInt_inj]
  · rw [same, beq_iff_eq]
  · rw [same, beq_iff_eq, eq_comm]
  · rw [same, beq_iff_eq, Int.ofNat_inj, UInt64.toNat_inj]

theorem alike_of_same_scalar {t u : Tree Storage} (ht : t.depth = 0)
    (hs : t.same u = true) : t.Alike u := by
  have of_integer : t.kind = .integer → t.Alike u := by
    intro hkind
    obtain ⟨i, hi⟩ := exists_integerValue? hkind
    obtain ⟨j, hj⟩ := exists_integerValue? ((kind_eq_of_same hs).symm.trans hkind)
    obtain rfl := (same_integer_iff hi hj).mp hs
    exact .integer hi hj
  cases t with
  | int i => exact of_integer rfl
  | uint u => exact of_integer rfl
  | array p items => simp [depth] at ht
  | object p entries => simp [depth] at ht
  | null =>
      cases u <;> simp [same] at hs
      exact .null
  | bool b =>
      cases u <;> simp [same] at hs
      exact hs ▸ .bool b
  | float x =>
      cases u <;> simp [same] at hs
      exact .float (Binary64.equals_iff.mp hs)
  | text s =>
      cases u <;> simp [same] at hs
      exact hs ▸ .text s

/-- Scalars have no storage to share. -/
theorem same_scalar_iff {t u : Tree Storage} (ht : t.depth = 0) :
    t.same u = true ↔ t.Alike u := by
  refine ⟨alike_of_same_scalar ht, fun h => ?_⟩
  cases h with
  | null => rfl
  | bool b => simp [same]
  | integer hi hj => exact (same_integer_iff hi hj).mpr rfl
  | float hxy => exact Binary64.equals_iff.mpr hxy
  | text s => simp [same]
  | array length items => simp [depth] at ht
  | object keys values => simp [depth] at ht

end Tree

namespace Heap

theorem depth_tree_scalar {h : Heap} {n : Node} (hn : n.storage? = none) :
    (h.tree n).depth = 0 := by
  cases n with
  | array a => cases hn
  | object o => cases hn
  | _ => simp [Tree.depth]

variable {h : Heap}

/-! ## Containers, item by item and key by key -/

theorem WellFormed.same_items_iff (hw : h.WellFormed) {a b : ArrayRef}
    (ha : h.Allocated (.array a)) (hb : h.Allocated (.array b)) :
    h.same (.array a) (.array b) = true ↔
      a = b ∨ (h.items a).length = (h.items b).length ∧
        ∀ (i : Nat) m n, (h.items a)[i]? = some m → (h.items b)[i]? = some n →
          h.same m n = true := by
  rw [hw.same_array_iff ha hb, List.forall₂_iff_get]
  refine or_congr_right (and_congr_right fun _ => ?_)
  simp only [List.getElem?_eq_some_iff, List.get_eq_getElem]
  constructor
  · rintro hitems i m n ⟨hi, rfl⟩ ⟨hj, rfl⟩
    exact hitems i hi hj
  · intro hitems i hi hj
    exact hitems i _ _ ⟨hi, rfl⟩ ⟨hj, rfl⟩

theorem WellFormed.same_values_iff (hw : h.WellFormed) {o p : ObjectRef}
    (ho : h.Allocated (.object o)) (hp : h.Allocated (.object p)) :
    h.same (.object o) (.object p) = true ↔
      o = p ∨ (∀ k, k ∈ (h.entries o).keys ↔ k ∈ (h.entries p).keys) ∧
        ∀ k m n, (h.entries o).get? k = some m → (h.entries p).get? k = some n →
          h.same m n = true := by
  rw [hw.same_object_iff ho hp]
  exact or_congr_right (Entries.covers_iff (r := fun m n => h.same m n = true)
    (hw.keys_nodup o) (hw.keys_nodup p))

theorem mem_children_array {a : ArrayRef} {i : Nat} {n : Node}
    (hn : (h.items a)[i]? = some n) : n ∈ h.children (.array a) :=
  List.mem_of_getElem? hn

theorem mem_children_object {o : ObjectRef} {k : String} {n : Node}
    (hn : (h.entries o).get? k = some n) : n ∈ h.children (.object o) :=
  Entries.mem_values_of_get? hn

/-! ## Going through equal nodes -/

theorem exists_array_of_kind {n : Node} (hn : n.kind = .array) : ∃ a, n = .array a := by
  cases n with
  | array a => exact ⟨a, rfl⟩
  | _ => cases hn

theorem exists_object_of_kind {n : Node} (hn : n.kind = .object) : ∃ o, n = .object o := by
  cases n with
  | object o => exact ⟨o, rfl⟩
  | _ => cases hn

theorem storage?_eq_none_of_kind {m n : Node} (hm : m.storage? = none)
    (hkind : m.kind = n.kind) : n.storage? = none := by
  cases n with
  | array a =>
      obtain ⟨b, rfl⟩ := exists_array_of_kind hkind
      cases hm
  | object o =>
      obtain ⟨p, rfl⟩ := exists_object_of_kind hkind
      cases hm
  | _ => rfl

/-- What holds of equal scalars, of a container and itself, and of two containers when it holds
of what they hold, index by index or key by key, holds of all equal nodes. -/
theorem WellFormed.same_induction (hw : h.WellFormed) {P : Node → Node → Prop}
    (scalar : ∀ m n, m.storage? = none → n.storage? = none →
      (h.tree m).Alike (h.tree n) → P m n)
    (shared : ∀ n, h.Knows n → h.same n n = true → P n n)
    (array : ∀ a b, h.Allocated (.array a) → h.Allocated (.array b) →
      (h.items a).length = (h.items b).length →
      (∀ (i : Nat) m n, (h.items a)[i]? = some m → (h.items b)[i]? = some n →
        h.same m n = true ∧ P m n) → P (.array a) (.array b))
    (object : ∀ o p, h.Allocated (.object o) → h.Allocated (.object p) →
      (∀ k, k ∈ (h.entries o).keys ↔ k ∈ (h.entries p).keys) →
      (∀ k m n, (h.entries o).get? k = some m → (h.entries p).get? k = some n →
        h.same m n = true ∧ P m n) → P (.object o) (.object p))
    {m n : Node} (hm : h.Knows m) (hn : h.Knows n) (hs : h.same m n = true) : P m n := by
  revert n
  refine hw.induction (P := fun m => ∀ {n}, h.Knows n → h.same m n = true → P m n) ?_ ?_ m hm
  · intro m hscalar n hn hs
    have hkind := hw.kind_eq_of_same (fun s hs => absurd (hscalar.symm.trans hs) nofun) hn hs
    exact scalar m n hscalar (storage?_eq_none_of_kind hscalar hkind)
      (Tree.alike_of_same_scalar (depth_tree_scalar hscalar) hs)
  · intro m s hstorage ha ih n hn hs
    cases m with
    | array a =>
        cases hstorage
        have hkind := hw.kind_eq_of_same (knows_array.mpr ha) hn hs
        obtain ⟨b, rfl⟩ := exists_array_of_kind hkind.symm
        have hb := knows_array.mp hn
        rcases (hw.same_items_iff ha hb).mp hs with rfl | ⟨hlen, hitems⟩
        · exact shared _ hn hs
        · refine array a b ha hb hlen fun i m n hm hn => ⟨hitems i m n hm hn, ?_⟩
          exact ih m (mem_children_array hm) (hw.closed _ n (mem_children_array hn))
            (hitems i m n hm hn)
    | object o =>
        cases hstorage
        have hkind := hw.kind_eq_of_same (knows_object.mpr ha) hn hs
        obtain ⟨p, rfl⟩ := exists_object_of_kind hkind.symm
        have hp := knows_object.mp hn
        rcases (hw.same_values_iff ha hp).mp hs with rfl | ⟨hkeys, hvalues⟩
        · exact shared _ hn hs
        · refine object o p ha hp hkeys fun k m n hm hn => ⟨hvalues k m n hm hn, ?_⟩
          exact ih m (mem_children_object hm) (hw.closed _ n (mem_children_object hn))
            (hvalues k m n hm hn)
    | _ => cases hstorage

/-! ## The laws -/

theorem WellFormed.same_symm (hw : h.WellFormed) {m n : Node} (hm : h.Knows m)
    (hn : h.Knows n) (hs : h.same m n = true) : h.same n m = true := by
  refine hw.same_induction (P := fun m n => h.same n m = true) ?_ ?_ ?_ ?_ hm hn hs
  · intro m n _ hscalar halike
    exact (Tree.same_scalar_iff (depth_tree_scalar hscalar)).mpr halike.symm
  · exact fun n _ hself => hself
  · intro a b ha hb hlen hitems
    exact (hw.same_items_iff hb ha).mpr
      (.inr ⟨hlen.symm, fun i n m hn hm => (hitems i m n hm hn).2⟩)
  · intro o p ho hp hkeys hvalues
    exact (hw.same_values_iff hp ho).mpr
      (.inr ⟨fun k => (hkeys k).symm, fun k n m hn hm => (hvalues k m n hm hn).2⟩)

/-- Wherever storage is shared along the way, the middle node can be left out. -/
theorem WellFormed.same_trans (hw : h.WellFormed) {m n k : Node} (hm : h.Knows m)
    (hn : h.Knows n) (hk : h.Knows k) (hmn : h.same m n = true) (hnk : h.same n k = true) :
    h.same m k = true := by
  revert k
  refine hw.same_induction (P := fun m n => ∀ {k}, h.Knows k → h.same n k = true →
    h.same m k = true) ?_ ?_ ?_ ?_ hm hn hmn
  · intro m n hm hn halike k _ hnk
    have halike' := Tree.alike_of_same_scalar (depth_tree_scalar hn) hnk
    exact (Tree.same_scalar_iff (depth_tree_scalar hm)).mpr (halike.trans halike')
  · exact fun n _ _ k _ hnk => hnk
  · intro a b ha hb hlen hitems k hk hbk
    obtain ⟨c, rfl⟩ := exists_array_of_kind
      (hw.kind_eq_of_same (knows_array.mpr hb) hk hbk).symm
    have hc := knows_array.mp hk
    rcases (hw.same_items_iff hb hc).mp hbk with rfl | ⟨hlen', hitems'⟩
    · exact (hw.same_items_iff ha hc).mpr
        (.inr ⟨hlen, fun i m n hm hn => (hitems i m n hm hn).1⟩)
    · refine (hw.same_items_iff ha hc).mpr (.inr ⟨hlen.trans hlen', fun i m k hm hk => ?_⟩)
      -- the item of the array in the middle at the same index
      have hi := (List.getElem?_eq_some_iff.mp hm).1
      have hn := List.getElem?_eq_getElem (hlen ▸ hi)
      exact (hitems i m _ hm hn).2 (hw.closed _ k (mem_children_array hk))
        (hitems' i _ k hn hk)
  · intro o p ho hp hkeys hvalues k hk hpk
    obtain ⟨q, rfl⟩ := exists_object_of_kind
      (hw.kind_eq_of_same (knows_object.mpr hp) hk hpk).symm
    have hq := knows_object.mp hk
    rcases (hw.same_values_iff hp hq).mp hpk with rfl | ⟨hkeys', hvalues'⟩
    · exact (hw.same_values_iff ho hq).mpr
        (.inr ⟨hkeys, fun key m n hm hn => (hvalues key m n hm hn).1⟩)
    · refine (hw.same_values_iff ho hq).mpr
        (.inr ⟨fun key => (hkeys key).trans (hkeys' key), fun key m k hm hk => ?_⟩)
      obtain ⟨n, hn⟩ := Entries.mem_keys_iff.mp
        ((hkeys key).mp (Entries.mem_keys_iff.mpr ⟨m, hm⟩))
      exact (hvalues key m n hm hn).2 (hw.closed _ k (mem_children_object hk))
        (hvalues' key n k hn hk)

/-- Trees that are alike belong to equal nodes. -/
theorem WellFormed.same_of_alike (hw : h.WellFormed) {m n : Node} (hm : h.Knows m)
    (hn : h.Knows n) (halike : (h.tree m).Alike (h.tree n)) : h.same m n = true := by
  revert n
  refine hw.induction (P := fun m => ∀ {n}, h.Knows n → (h.tree m).Alike (h.tree n) →
    h.same m n = true) ?_ ?_ m hm
  · intro m hscalar n _ halike
    exact (Tree.same_scalar_iff (depth_tree_scalar hscalar)).mpr halike
  · intro m s hstorage ha ih n hn halike
    have hkind : n.kind = (h.tree m).kind := by rw [← hw.kind_tree hn, halike.kind_eq]
    cases m with
    | array a =>
        cases hstorage
        rw [hw.tree_array ha] at hkind halike
        obtain ⟨b, rfl⟩ := exists_array_of_kind hkind
        have hb := knows_array.mp hn
        rw [hw.tree_array hb, Tree.alike_array_iff, List.length_map, List.length_map] at halike
        refine (hw.same_items_iff ha hb).mpr (.inr ⟨halike.1, fun i m n hm hn => ?_⟩)
        refine ih m (mem_children_array hm) (hw.closed _ n (mem_children_array hn)) ?_
        exact halike.2 i _ _ (by rw [List.getElem?_map, hm]; rfl)
          (by rw [List.getElem?_map, hn]; rfl)
    | object o =>
        cases hstorage
        rw [hw.tree_object ha] at hkind halike
        obtain ⟨p, rfl⟩ := exists_object_of_kind hkind
        have hp := knows_object.mp hn
        rw [hw.tree_object hp, Tree.alike_object_iff, Entries.keys_map, Entries.keys_map]
          at halike
        refine (hw.same_values_iff ha hp).mpr (.inr ⟨halike.1, fun k m n hm hn => ?_⟩)
        refine ih m (mem_children_object hm) (hw.closed _ n (mem_children_object hn)) ?_
        exact halike.2 k _ _ (by rw [Entries.get?_map, hm]; rfl)
          (by rw [Entries.get?_map, hn]; rfl)
    | _ => cases hstorage

/-- Without NaNs, equal nodes have trees that are alike: a container in the same storage is
alike to itself. -/
theorem WellFormed.alike_of_same (hw : h.WellFormed) {m n : Node} (hm : h.Knows m)
    (hn : h.Knows n) (hnan : (h.tree m).EveryDouble fun x => x.isNaN = false)
    (hs : h.same m n = true) : (h.tree m).Alike (h.tree n) := by
  refine hw.same_induction (P := fun m n =>
    (h.tree m).EveryDouble (fun x => x.isNaN = false) → (h.tree m).Alike (h.tree n))
    ?_ ?_ ?_ ?_ hm hn hs hnan
  · exact fun m n _ _ halike _ => halike
  · exact fun n _ _ hnan => Tree.alike_self hnan
  · intro a b ha hb hlen hitems hnan
    rw [hw.tree_array ha] at hnan ⊢
    rw [hw.tree_array hb]
    cases hnan with
    | array mark parts =>
        refine .array (by simp [hlen]) fun i t u ht hu => ?_
        rw [List.getElem?_map, Option.map_eq_some_iff] at ht hu
        obtain ⟨m, hm, rfl⟩ := ht
        obtain ⟨n, hn, rfl⟩ := hu
        exact (hitems i m n hm hn).2 (parts _ (List.mem_map_of_mem (List.mem_of_getElem? hm)))
  · intro o p ho hp hkeys hvalues hnan
    rw [hw.tree_object ho] at hnan ⊢
    rw [hw.tree_object hp]
    cases hnan with
    | object mark parts =>
        refine .object (by simpa only [Entries.keys_map] using hkeys) fun k t u ht hu => ?_
        rw [Entries.get?_map, Option.map_eq_some_iff] at ht hu
        obtain ⟨m, hm, rfl⟩ := ht
        obtain ⟨n, hn, rfl⟩ := hu
        exact (hvalues k m n hm hn).2 (parts (k, h.tree m)
          (List.mem_map_of_mem (f := fun e => (e.1, h.tree e.2)) (Entries.mem_of_get? hm)))

/-- Equal nodes nest equally deeply. It is enough that the second is never deeper than the
first, as equality is symmetric. -/
theorem WellFormed.depth_eq_of_same (hw : h.WellFormed) {m n : Node} (hm : h.Knows m)
    (hn : h.Knows n) (hs : h.same m n = true) : (h.tree m).depth = (h.tree n).depth := by
  have le_of_same : ∀ {m n}, h.Knows m → h.Knows n → h.same m n = true →
      (h.tree n).depth ≤ (h.tree m).depth := by
    intro m n hm hn hs
    refine hw.same_induction (P := fun m n => (h.tree n).depth ≤ (h.tree m).depth)
      ?_ ?_ ?_ ?_ hm hn hs
    · intro m n hm hn _
      rw [depth_tree_scalar hm, depth_tree_scalar hn]
    · exact fun n _ _ => Nat.le_refl _
    · intro a b ha hb hlen hitems
      rw [hw.tree_array ha, hw.tree_array hb, Tree.depth, Tree.depth]
      refine Nat.add_le_add_left (Tree.depthOfItems_le.mpr fun u hu => ?_) 1
      obtain ⟨n, hn, rfl⟩ := List.mem_map.mp hu
      obtain ⟨i, hi⟩ := List.mem_iff_getElem?.mp hn
      have hm := List.getElem?_eq_getElem (hlen ▸ (List.getElem?_eq_some_iff.mp hi).1)
      exact Nat.le_trans (hitems i _ n hm hi).2 (Tree.depthOfItems_le.mp (Nat.le_refl _) _
        (List.mem_map_of_mem (List.mem_of_getElem? hm)))
    · intro o p ho hp hkeys hvalues
      rw [hw.tree_object ho, hw.tree_object hp, Tree.depth, Tree.depth]
      refine Nat.add_le_add_left (Tree.depthOfEntries_le.mpr fun d hd => ?_) 1
      obtain ⟨⟨k, n⟩, he, rfl⟩ := List.mem_map.mp hd
      have hn := Entries.get?_of_mem (hw.keys_nodup p) he
      obtain ⟨m, hm⟩ := Entries.mem_keys_iff.mp
        ((hkeys k).mpr (Entries.mem_keys_iff.mpr ⟨n, hn⟩))
      exact Nat.le_trans (hvalues k m n hm hn).2 (Tree.depthOfEntries_le.mp (Nat.le_refl _)
        (k, h.tree m) (List.mem_map_of_mem (f := fun e => (e.1, h.tree e.2))
          (Entries.mem_of_get? hm)))
  exact Nat.le_antisymm (le_of_same hn hm (hw.same_symm hm hn hs)) (le_of_same hm hn hs)

/-- In every heap that a history leads to, equality of nodes is symmetric and transitive. On
nodes without NaNs it is reflexive too, and holds exactly if the trees are alike, so that
nothing shows which containers are in the same storage. Equal nodes nest equally deeply. -/
theorem Reachable.same_laws (hr : h.Reachable) :
    (∀ m n, h.Knows m → h.Knows n → h.same m n = true → h.same n m = true) ∧
    (∀ m n k, h.Knows m → h.Knows n → h.Knows k →
      h.same m n = true → h.same n k = true → h.same m k = true) ∧
    (∀ n, h.Knows n → (h.tree n).EveryDouble (fun x => x.isNaN = false) →
      h.same n n = true) ∧
    (∀ m n, h.Knows m → h.Knows n → (h.tree m).EveryDouble (fun x => x.isNaN = false) →
      (h.same m n = true ↔ (h.tree m).Alike (h.tree n))) ∧
    ∀ m n, h.Knows m → h.Knows n → h.same m n = true →
      (h.tree m).depth = (h.tree n).depth := by
  have hw := hr.wellFormed
  refine ⟨fun m n hm hn => hw.same_symm hm hn, fun m n k hm hn hk => hw.same_trans hm hn hk,
    fun n hn hnan => ?_, fun m n hm hn hnan => ?_, fun m n hm hn => hw.depth_eq_of_same hm hn⟩
  · exact hw.same_of_alike hn hn (Tree.alike_self hnan)
  · exact ⟨hw.alike_of_same hm hn hnan, hw.same_of_alike hm hn⟩

/-- Two objects with their keys in different orders that share an array of a NaN, and two
without it, of which one keeps its integer unsigned and its zero negative: all laws apply. -/
theorem same_laws_shared_nan :
    let h₁ := empty.after (.newArray [.double (.nan false)])
    let h₂ := h₁.after (.newObject [("n", .int 7), ("shared", .array ⟨0⟩)])
    let h₃ := h₂.after (.newObject [("shared", .array ⟨0⟩), ("n", .uint 7)])
    let h₄ := h₃.after (.newObject [("n", .int 7), ("z", .float ⟨0⟩)])
    let h := h₄.after (.newObject [("z", .float (.neg ⟨0⟩)), ("n", .uint 7)])
    h.Reachable ∧ h.same (.float (.nan false)) (.float (.nan false)) = false ∧
      h.same (.object ⟨0⟩) (.object ⟨1⟩) = true ∧ h.same (.object ⟨1⟩) (.object ⟨0⟩) = true ∧
      (h.tree (.object ⟨0⟩)).depth = (h.tree (.object ⟨1⟩)).depth ∧
      (h.tree (.object ⟨2⟩)).EveryDouble (fun x => x.isNaN = false) ∧
      (h.tree (.object ⟨2⟩)).Alike (h.tree (.object ⟨3⟩)) ∧
      ¬ (h.tree (.object ⟨2⟩)).Alike (h.tree (.object ⟨0⟩)) := by
  intro h₁ h₂ h₃ h₄ h
  have hr : h.Reachable :=
    .after (.after (.after (.after (.after .empty (by decide)) (by decide)) (by decide))
      (by decide)) (by decide)
  obtain ⟨symm, -, -, shortcut, depth⟩ := hr.same_laws
  have hs : h.same (.object ⟨0⟩) (.object ⟨1⟩) = true := by decide
  have hnan : (h.tree (.object ⟨2⟩)).EveryDouble fun x => x.isNaN = false := by
    have htree : h.tree (.object ⟨2⟩) =
        .object (.object ⟨2⟩) [("n", .int 7), ("z", .float ⟨0⟩)] := rfl
    rw [htree]
    refine .object _ fun e he => ?_
    rcases List.mem_pair.mp he with rfl | rfl
    · exact .int 7
    · exact .float (by decide)
  refine ⟨hr, by decide, hs, symm _ _ (by decide) (by decide) hs,
    depth _ _ (by decide) (by decide) hs, hnan,
    (shortcut _ _ (by decide) (by decide) hnan).mp (by decide), fun halike => ?_⟩
  have hsame := (shortcut _ _ (by decide) (by decide) hnan).mpr halike
  exact absurd hsame (by decide)

end Heap
end DynamicData
