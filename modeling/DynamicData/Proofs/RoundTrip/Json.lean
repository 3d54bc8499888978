import DynamicData.Proofs.Heap.Loading
import DynamicData.Proofs.Json.Layout

/-!
# The JSON round trip

The compact text of a tree is read back as the same tree, with unsigned words in
signed form where they fit and null for the doubles that JSON cannot write. Texts of
any characters come back, and finite doubles bit for bit.
-/

namespace DynamicData

open Text

/-- What a payload is parsed as is read under limits on its nesting and its size. -/
theorem Document.ofJson_of_parse {payload : Bytes} {d : Document}
    (hread : Json.parse payload = .ok d) {limits : Limits}
    (hdepth : d.depth ≤ limits.maxNestingDepth)
    (hbytes : payload.length ≤ limits.maxPayloadBytes) :
    Document.ofJson limits payload = .ok d := by
  have hcheck : limits.checkPayloadBytes payload.length = .ok () :=
    Limits.check_eq_ok_iff.mpr hbytes
  have hnesting : limits.checkNestingDepth d.depth = .ok () :=
    Limits.check_eq_ok_iff.mpr hdepth
  refine except_bind_eq_ok.mpr ⟨(), hcheck, ?_⟩
  rw [hread]
  exact except_bind_eq_ok.mpr ⟨(), hnesting, rfl⟩

/-- A payload that is written as a document is read as the document. -/
theorem Document.ofJson_of_written {word : Bytes} {d : Document}
    (hword : Json.Written Json.maxDepth word d) {limits : Limits}
    (hdepth : d.depth ≤ limits.maxNestingDepth) (hbytes : word.length ≤ limits.maxPayloadBytes) :
    Document.ofJson limits word = .ok d := by
  refine Document.ofJson_of_parse ?_ hdepth hbytes
  have hvalue := hword.read [] trivial
  rw [List.append_nil] at hvalue
  rw [Json.parse, Json.atEnd, Parser.bind_of_ok hvalue]
  rfl

/-- The compact text of a tree is a payload of the tree. -/
theorem Document.ofJson_compact {ι : Type} {t : Tree ι} (ht : t.KeysDistinct) {limits : Limits}
    (hdepth : t.depth ≤ min Json.maxDepth limits.maxNestingDepth)
    (hbytes : (encode t.compact).length ≤ limits.maxPayloadBytes) :
    Document.ofJson limits (encode t.compact) = .ok t.jsonForm := by
  rw [Nat.le_min] at hdepth
  have hwritten := Tree.compactLayout.written ht hdepth.1 0
  exact Document.ofJson_of_written hwritten (by rw [Tree.depth_jsonForm]; exact hdepth.2) hbytes

namespace Heap

/-- A node that is written as JSON is read back as it was, unsigned words in signed form where
they fit and null for the doubles that are not finite. A container is loaded as a fresh
container. -/
theorem Reachable.ofJson_toJson {h : Heap} (hr : h.Reachable) {n : Node} (hn : h.Knows n)
    {limits : Limits}
    (hdepth : (h.tree n).depth ≤ min Json.maxDepth limits.maxNestingDepth)
    (hbytes : (h.toJson n).length ≤ limits.maxPayloadBytes) :
    Document.ofJson limits (h.toJson n) = .ok (h.tree n).jsonForm ∧
      h.ComesBack n (h.tree n).jsonForm (h.objectOfJson limits (h.toJson n))
        (h.arrayOfJson limits (h.toJson n)) := by
  have hw := hr.wellFormed
  have hkeys := hw.keysDistinct_tree hn
  have hread := Document.ofJson_compact hkeys hdepth hbytes
  exact ⟨hread, hw.comesBack hn .json hread hkeys.jsonForm⟩

/-- An object that holds an array under a key that has to be escaped: an unsigned word that
fits, a text with a control character and one beyond the first plane, a tenth, a negative zero
and a NaN. -/
theorem toJson_read_back_mixed :
    let h := (empty.after (.newArray [.node (.uint 7), .text "\x01\\𝔸",
      .double ⟨0x3FB999999999999A⟩, .double ⟨0x8000000000000000⟩,
      .double ⟨0x7FF8000000000000⟩])).after (.newObject [("\"\n", .array ⟨0⟩)])
    Document.ofJson .standard (h.toJson (.object ⟨0⟩)) =
      .ok (.object () [("\"\n", .array () [.int 7, .text "\x01\\𝔸",
        .float ⟨0x3FB999999999999A⟩, .float ⟨0x8000000000000000⟩, .null])]) := by
  intro h
  have hr : h.Reachable := by
    refine .after (.after .empty ?_) ?_
    · intro n hn
      have hmem : n = .uint 7 := by
        simpa [Insertable.referencesOfAll, Insertable.references] using hn
      rw [hmem]
      exact knows_scalar rfl
    · intro p hp
      rw [List.mem_singleton.mp hp]
      exact knows_array.mpr Nat.zero_lt_one
  have hn : h.Knows (.object ⟨0⟩) := knows_object.mpr Nat.zero_lt_one
  exact (hr.ofJson_toJson hn (by decide) (by decide +kernel)).1

end Heap
end DynamicData
