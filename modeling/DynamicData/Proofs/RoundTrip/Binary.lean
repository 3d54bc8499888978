import DynamicData.Proofs.Heap.Loading
import DynamicData.Proofs.Term.Carried

/-!
# The binary round trip

What is written of a tree in the term format is read back as the same tree, with
unsigned words in signed form where they fit. Doubles come back bit for bit.
-/

namespace DynamicData

/-- A payload of a term is read as the document that the term carries. -/
theorem Document.ofBinary_of_decode {limits : Limits} {payload : Bytes} {t : Term}
    {d : Document} (hread : Term.decode limits.maxNestingDepth payload = .ok t)
    (hdocument : t.document = .ok d) (hbytes : payload.length ≤ limits.maxPayloadBytes) :
    Document.ofBinary limits payload = .ok d := by
  have hcheck : limits.checkPayloadBytes payload.length = .ok () :=
    Limits.check_eq_ok_iff.mpr hbytes
  refine except_bind_eq_ok.mpr ⟨(), hcheck, ?_⟩
  rw [hread]
  dsimp only
  rw [hdocument]
  rfl

/-- The payload of a tree is read as the tree. -/
theorem Document.ofBinary_encode {ι : Type} {t : Tree ι} (ht : t.KeysDistinct)
    (hsized : t.Sized) {limits : Limits} (hdepth : t.depth ≤ limits.maxNestingDepth)
    (hbytes : (Term.encode t.term).length ≤ limits.maxPayloadBytes) :
    Document.ofBinary limits (Term.encode t.term) = .ok t.termForm := by
  have hread : Term.decode limits.maxNestingDepth (Term.encode t.term) = .ok t.term :=
    Term.decode_of_represents (hsized.writable hdepth).represents
  exact Document.ofBinary_of_decode hread (Term.document_term ht) hbytes

namespace Heap

/-- A node that is written in the term format is read back as it was, unsigned words in
signed form where they fit, and a container is loaded as a fresh container. -/
theorem Reachable.ofBinary_toBinary {h : Heap} (hr : h.Reachable) {n : Node}
    (hn : h.Knows n) {limits : Limits} (hdepth : (h.tree n).depth ≤ limits.maxNestingDepth)
    (hsized : (h.tree n).Sized)
    (hbytes : (h.toBinary n).length ≤ limits.maxPayloadBytes) :
    Document.ofBinary limits (h.toBinary n) = .ok (h.tree n).termForm ∧
      h.ComesBack n (h.tree n).termForm (h.objectOfBinary limits (h.toBinary n))
        (h.arrayOfBinary limits (h.toBinary n)) := by
  have hw := hr.wellFormed
  have hkeys := hw.keysDistinct_tree hn
  have hread := Document.ofBinary_encode hkeys hsized hdepth hbytes
  exact ⟨hread, hw.comesBack hn .binary hread hkeys.termForm⟩

/-- An object that holds an array under the key "true": an unsigned word that fits, a
text that spells an atom, a negative zero and an empty array. -/
theorem toBinary_read_back_mixed :
    let h := ((empty.after (.newArray [])).after (.newArray [.node (.uint 7), .text "nil",
      .double ⟨0x8000000000000000⟩, .node (.array ⟨0⟩)])).after
        (.newObject [("true", .array ⟨1⟩)])
    Document.ofBinary .standard (h.toBinary (.object ⟨0⟩)) =
      .ok (.object () [("true", .array () [.int 7, .text "nil",
        .float ⟨0x8000000000000000⟩, .array () []])]) := by
  intro h
  have hr : h.Reachable := by
    refine .after (.after (.after .empty ?_) ?_) ?_
    · exact fun n hn => absurd hn List.not_mem_nil
    · intro n hn
      have hmem : n = .uint 7 ∨ n = .array ⟨0⟩ := by
        simpa [Insertable.referencesOfAll, Insertable.references] using hn
      rcases hmem with rfl | rfl
      · exact knows_scalar rfl
      · exact knows_array.mpr Nat.zero_lt_one
    · intro p hp
      rw [List.mem_singleton.mp hp]
      exact knows_array.mpr (Nat.lt_succ_self 1)
  have hn : h.Knows (.object ⟨0⟩) := knows_object.mpr Nat.zero_lt_one
  have htree : h.tree (.object ⟨0⟩) = .object (.object ⟨0⟩) [("true", .array (.array ⟨1⟩)
      [.uint 7, .text "nil", .float ⟨0x8000000000000000⟩, .array (.array ⟨0⟩) []])] := rfl
  have hsized : (h.tree (.object ⟨0⟩)).Sized := by
    rw [htree]
    refine .object _ (by decide) ?_ ?_
    · intro e he
      rw [List.mem_singleton.mp he]
      decide
    · intro e he
      rw [List.mem_singleton.mp he]
      refine .array _ (by decide) fun t ht => ?_
      rcases List.mem_cons.mp ht with rfl | ht
      · exact .uint 7
      rcases List.mem_cons.mp ht with rfl | ht
      · exact .text (by decide)
      rcases List.mem_cons.mp ht with rfl | ht
      · exact .float _
      rw [List.mem_singleton.mp ht]
      exact .array _ (by decide) fun _ hu => absurd hu List.not_mem_nil
  exact (hr.ofBinary_toBinary hn (by decide) hsized (by decide)).1
end Heap
end DynamicData
