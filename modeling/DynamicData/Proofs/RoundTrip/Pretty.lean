import DynamicData.Proofs.Heap.Equality
import DynamicData.Proofs.RoundTrip.Json
import DynamicData.Proofs.Sorted

/-!
# The round trip through text with sorted keys

The pretty text of a tree is read back as the canonical form of the tree: entries come back in
the order of their keys, and otherwise as from the compact text. Equality does not look at the
order of entries, so without doubles that JSON cannot write the result is equal to the
original.
-/

namespace DynamicData

open Text

/-- A finite double is equal to itself. -/
theorem Binary64.equals_self {x : Binary64} (hx : x.isFinite = true) : x.equals x = true := by
  have hlt : x.magnitude < infinityBits := of_decide_eq_true hx
  have hnan : x.isNaN = false := decide_eq_false (Nat.lt_asymm hlt)
  rw [equals, hnan, beq_self_eq_true, Bool.true_or]
  rfl

namespace Tree

variable {ι : Type}

/-! ## Reading the text -/

theorem KeysDistinct.canonical {t : Tree ι} (ht : t.KeysDistinct) : t.canonical.KeysDistinct :=
  ht.jsonForm.sorted

theorem depth_canonical (t : Tree ι) : t.canonical.depth = t.depth := by
  rw [canonical, depth_sorted, depth_jsonForm]

theorem written_pretty {t : Tree ι} (ht : t.KeysDistinct) {budget : Nat}
    (hdepth : t.depth ≤ budget) : Json.Written budget (encode t.pretty) t.canonical := by
  rw [← jsonForm_sorted]
  exact indentedLayout.written ht.sorted (by rw [depth_sorted]; exact hdepth) 0

/-! ## Equality with the canonical form -/

theorem exists_array_of_bare {u : Tree ι} {ds : List Document} (hu : u.bare = .array () ds) :
    ∃ mark items, u = .array mark items ∧ items.map bare = ds := by
  cases u with
  | array mark items =>
      rw [bare_array] at hu
      injection hu with _ hitems
      exact ⟨mark, items, rfl, hitems⟩
  | object mark entries =>
      rw [bare_object] at hu
      cases hu
  | _ => simp [bare, image] at hu

theorem exists_object_of_bare {u : Tree ι} {ds : Entries Document} (hu : u.bare = .object () ds) :
    ∃ mark entries, u = .object mark entries ∧ entries.map (fun e => (e.1, e.2.bare)) = ds := by
  cases u with
  | object mark entries =>
      rw [bare_object] at hu
      injection hu with _ hentries
      exact ⟨mark, entries, rfl, hentries⟩
  | array mark items =>
      rw [bare_array] at hu
      cases hu
  | _ => simp [bare, image] at hu

theorem same_unsigned {w : UInt64} {u : Tree Storage} (hu : u.bare = unsigned w) :
    (Tree.uint w).same u = true ∧ u.same (.uint w) = true := by
  unfold unsigned at hu
  split at hu
  · next hw =>
      have hsigned : (Int64.ofNat w.toNat).toInt = w.toNat := Int64.toInt_ofNat_of_lt hw
      cases u <;> simp_all [bare, image, same]
  · cases u <;> simp_all [bare, image, same]

theorem forall₂_of_map_eq {α β γ : Type} {f : α → γ} {g : β → γ} {r : α → β → Prop} {xs : List α}
    {ys : List β} (hmap : ys.map g = xs.map f) (hr : ∀ x ∈ xs, ∀ y, g y = f x → r x y) :
    List.Forall₂ r xs ys := by
  induction xs generalizing ys with
  | nil =>
      rw [List.map_eq_nil_iff.mp hmap]
      exact .nil
  | cons x xs ih =>
      rw [List.forall_mem_cons] at hr
      obtain ⟨y, ys, rfl, hy, hys⟩ := List.map_eq_cons_iff.mp hmap
      exact .cons (hr.1 y hy) (ih hys hr.2)

/-- Entries are found under their keys in any arrangement of them. -/
theorem sameEntries_of_perm {es fs : Entries (Tree Storage)} {f g : Tree Storage → Document}
    (hfs : fs.keys.Nodup)
    (hp : (es.map fun e => (e.1, f e.2)).Perm (fs.map fun e => (e.1, g e.2)))
    (hsame : ∀ d ∈ es, ∀ e ∈ fs, f d.2 = g e.2 → d.2.same e.2 = true) :
    sameEntries es fs = true := by
  rw [sameEntries_iff]
  intro d hd
  obtain ⟨e, he, heq⟩ := List.mem_map.mp (hp.mem_iff.mp (List.mem_map_of_mem hd))
  obtain ⟨hkey, hvalue⟩ := Prod.mk.inj heq
  exact ⟨e.2, Entries.get?_of_mem hfs (hkey ▸ he), hsame d hd e he hvalue.symm⟩

/-- A tree without doubles that JSON cannot write is equal to its canonical form, in whatever
storage this is. -/
theorem same_canonical {t : Tree Storage} (ht : t.KeysDistinct)
    (hfinite : t.EveryDouble fun x => x.isFinite = true) {u : Tree Storage}
    (hu : u.bare = t.canonical) : t.same u = true ∧ u.same t = true := by
  induction ht generalizing u with
  | null | bool _ | int _ | text _ =>
      cases u <;> simp_all [canonical, jsonForm, bare, image, sorted, same]
  | uint w =>
      rw [canonical_uint] at hu
      exact same_unsigned hu
  | float x =>
      cases hfinite with
      | float hx =>
          have hself := Binary64.equals_self hx
          cases u <;> simp_all [canonical, jsonForm, bare, image, sorted, same]
  | array mark parts ih =>
      cases hfinite with
      | array _ hitems =>
          rw [canonical_array] at hu
          obtain ⟨q, us, rfl, hus⟩ := exists_array_of_bare hu
          have hparts := forall₂_of_map_eq hus fun t ht v hv => ih t ht (hitems t ht) hv
          rw [same, same, Bool.or_eq_true, Bool.or_eq_true, sameItems_iff, sameItems_iff]
          exact ⟨.inr (hparts.imp fun _ _ h => h.1), .inr (hparts.flip.imp fun _ _ h => h.2)⟩
  | @object mark es nodup parts ih =>
      cases hfinite with
      | object _ hvalues =>
          rw [canonical_object] at hu
          obtain ⟨q, fs, rfl, hfs⟩ := exists_object_of_bare hu
          have hperm : (fs.map fun e => (e.1, e.2.bare)).Perm
              (es.map fun e => (e.1, e.2.canonical)) := hfs ▸ Entries.sortByKey_perm _
          have hlen : fs.length = es.length := by simpa using hperm.length_eq
          have hnodup : (Entries.keys fs).Nodup := by
            have hkeys := (hperm.map Prod.fst).nodup_iff
            rw [List.map_map, List.map_map] at hkeys
            exact hkeys.mpr nodup
          have hsame := fun d hd v hv => ih d hd (hvalues d hd) (u := v) hv
          rw [same, same, hlen, beq_self_eq_true, Bool.true_and, Bool.or_eq_true, Bool.or_eq_true]
          constructor
          · exact .inr (sameEntries_of_perm hnodup hperm.symm
              fun d hd _ _ h => (hsame d hd _ h.symm).1)
          · exact .inr (sameEntries_of_perm nodup hperm fun _ _ d hd h => (hsame d hd _ h).2)

end Tree

namespace Heap

/-- The pretty text of a node is read back as what comes back from its compact text, with the
entries of every object in ascending order of the bytes of their keys. A container is loaded
as a fresh container, which is equal to the original if all doubles in there are finite. -/
theorem Reachable.ofJson_pretty {h : Heap} (hr : h.Reachable) {n : Node} (hn : h.Knows n)
    {limits : Limits}
    (hdepth : (h.tree n).depth ≤ min Json.maxDepth limits.maxNestingDepth)
    (hbytes : (encode (h.tree n).pretty).length ≤ limits.maxPayloadBytes) :
    Document.ofJson limits (encode (h.tree n).pretty) = .ok (h.tree n).canonical ∧
      (h.tree n).jsonForm.SortsTo (h.tree n).canonical ∧
      h.ComesBack n (h.tree n).canonical
        (h.objectOfJson limits (encode (h.tree n).pretty))
        (h.arrayOfJson limits (encode (h.tree n).pretty)) ∧
      ((h.tree n).EveryDouble (fun x => x.isFinite = true) →
        ∀ h' n', h.Built (h.tree n).canonical h' n' →
          h'.same n n' = true ∧ h'.same n' n = true) := by
  have hw := hr.wellFormed
  have hkeys := hw.keysDistinct_tree hn
  rw [Nat.le_min] at hdepth
  have hread := Document.ofJson_of_written (Tree.written_pretty hkeys hdepth.1)
    (by rw [Tree.depth_canonical]; exact hdepth.2) hbytes
  refine ⟨hread, hkeys.jsonForm.sortsTo, ?_, ?_⟩
  · refine hw.comesBack_of_kind .json hread (fun s hs => ?_) hkeys.canonical
    rw [Tree.canonical, Tree.kind_sorted]
    exact hw.kind_image hn _ _ hs
  · intro hfinite h' n' hb
    unfold same
    rw [hb.grows.tree_eq hw hb.wellFormed hn]
    exact Tree.same_canonical hkeys hfinite (by rw [hb.tree, Tree.bare_document])

/-- An object in an array, with its keys out of order: an unsigned word that fits, a tenth and
an empty array. -/
theorem pretty_read_back_unordered :
    let h := ((empty.after (.newArray [])).after (.newObject [("é", .uint 7),
      ("z", .float ⟨0x3FB999999999999A⟩), ("a", .array ⟨0⟩)])).after
      (.newArray [.node (.object ⟨0⟩), .none])
    let n : Node := .array ⟨1⟩
    (h.tree n).pretty =
      "[\n  \x7b\n    \"a\": [],\n    \"z\": 0.1,\n    \"é\": 7\n  \x7d,\n  null\n]" ∧
    Document.ofJson .standard (encode (h.tree n).pretty) = .ok (.array ()
      [.object () [("a", .array () []), ("z", .float ⟨0x3FB999999999999A⟩), ("é", .int 7)],
        .null]) ∧
    ∃ h' a', h.arrayOfJson .standard (encode (h.tree n).pretty) = .ok (h', a') ∧
      h'.same n (.array a') = true := by
  intro h n
  have hr : h.Reachable := .after (.after (.after .empty (by decide)) (by decide)) (by decide)
  have hn : h.Knows n := by decide
  have hsort : ∀ {α : Type} (x y z : α), Entries.sortByKey [("é", x), ("z", y), ("a", z)] =
      [("a", z), ("z", y), ("é", x)] := fun x y z =>
    Entries.sortByKey_eq_of_ascending (List.reverse_perm _).symm
      (show ["a", "z", "é"].Pairwise fun k l => encode k < encode l by decide)
  have htree : h.tree n = .array (.array ⟨1⟩) [.object (.object ⟨0⟩) [("é", .uint 7),
      ("z", .float ⟨0x3FB999999999999A⟩), ("a", .array (.array ⟨0⟩) [])], .null] := rfl
  have hsorted : (h.tree n).sorted = .array (.array ⟨1⟩) [.object (.object ⟨0⟩)
      [("a", .array (.array ⟨0⟩) []), ("z", .float ⟨0x3FB999999999999A⟩), ("é", .uint 7)],
        .null] := by
    rw [htree, Tree.sorted_array, List.map_cons, Tree.sorted_object]
    exact congrArg (fun es => Tree.array _ [Tree.object _ es, .null]) (hsort _ _ _)
  have htext : (h.tree n).pretty =
      "[\n  \x7b\n    \"a\": [],\n    \"z\": 0.1,\n    \"é\": 7\n  \x7d,\n  null\n]" := by
    rw [Tree.pretty, hsorted]
    decide +kernel
  have hfinite : (h.tree n).EveryDouble fun x => x.isFinite = true := by
    rw [htree]
    refine .array _ (List.forall_mem_cons.mpr ⟨.object _ ?_, List.forall_mem_singleton.mpr .null⟩)
    refine List.forall_mem_cons.mpr ⟨.uint 7, List.forall_mem_cons.mpr ⟨.float (by decide), ?_⟩⟩
    exact List.forall_mem_singleton.mpr (.array _ fun _ ht => absurd ht List.not_mem_nil)
  obtain ⟨hread, -, hback, hsame⟩ := @Reachable.ofJson_pretty h hr n hn .standard (by decide) (by
    rw [htext]
    decide)
  rw [← Tree.jsonForm_sorted, hsorted] at hread
  obtain ⟨h', a', hload, hb⟩ := hback.array _ rfl
  exact ⟨htext, hread, h', a', hload, (hsame hfinite h' _ hb).1⟩

end Heap
end DynamicData
