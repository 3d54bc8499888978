import DynamicData.Proofs.Heap.Assembly
import DynamicData.Proofs.Json.Grammar
import DynamicData.Proofs.RoundTrip.Binary
import DynamicData.Proofs.RoundTrip.Json
import DynamicData.Proofs.Term.Merged

/-!
# Repeated keys mean the same everywhere

Pairs with repeated keys come into the program as the members of a JSON object, as the pairs of
a map in the term format, or one after the other into an empty object. Each way has its own
code, and a key has many spellings in the first two. All of them lead to the merged object, at
every level.
-/

namespace DynamicData.Heap

variable {h : Heap}

/-- A route ends with an object whose tree is `d`. -/
def Makes (d : Document) (made : Except DataError (Heap × ObjectRef)) : Prop :=
  ∃ h' o, made = .ok (h', o) ∧ (h'.tree (.object o)).bare = d

theorem Built.bare_eq {d : Document} {h' : Heap} {n : Node} (hb : h.Built d h' n) :
    (h'.tree n).bare = d :=
  hb.tree.trans d.bare_document

section
variable {pairs : List (String × Document)} {limits : Limits}

theorem WellFormed.makes_loadObject (hw : h.WellFormed) {x : Except DataError Document}
    (e : String → DataError) (hx : x = .ok (Document.mergedObject pairs)) :
    Makes (Document.mergedObject pairs)
      (do return h.loadObject (← (← x).entries.mapError e)) := by
  have hb := hw.loadObject (Document.keysDistinct_mergedObject pairs)
  exact ⟨_, _, by rw [hx]; rfl, hb.bare_eq⟩

theorem WellFormed.makes_objectOfJson (hw : h.WellFormed) {payload : Bytes}
    (htext : Json.TextOf (.object () pairs) payload)
    (hbytes : payload.length ≤ limits.maxPayloadBytes)
    (hdepth : (Document.mergedObject pairs).depth ≤ limits.maxNestingDepth) :
    Makes (Document.mergedObject pairs) (h.objectOfJson limits payload) := by
  have hparse := Json.parse_of_textOf htext
  rw [Tree.merged_eq_mergedObject] at hparse
  exact hw.makes_loadObject .json (Document.ofJson_of_parse hparse hdepth hbytes)

theorem WellFormed.makes_objectOfBinary (hw : h.WellFormed) {body : Bytes} {t : Term}
    (hform : Term.Represents limits.maxNestingDepth body t)
    (hcarries : t.Carries (.object () pairs))
    (hbytes : (131 :: body).length ≤ limits.maxPayloadBytes) :
    Makes (Document.mergedObject pairs) (h.objectOfBinary limits (131 :: body)) := by
  have hread := Term.decode_of_represents hform
  have hdocument := hcarries.document
  rw [Tree.merged_eq_mergedObject] at hdocument
  exact hw.makes_loadObject .binary (Document.ofBinary_of_decode hread hdocument hbytes)

/-- Nodes for the values may come from anywhere, as long as the object is below none. -/
theorem WellFormed.makes_putAll (hw : h.WellFormed) {o : ObjectRef}
    (ho : h.Allocated (.object o)) (hempty : h.entries o = []) {nodes : List (String × Node)}
    (hnodes : ∀ p ∈ nodes, h.Knows p.2 ∧ ¬ h.Reaches p.2 (.object o))
    (hvalues : nodes.map (fun p => (p.1, (h.tree p.2).bare)) =
      pairs.map fun p => (p.1, p.2.merged)) :
    Makes (Document.mergedObject pairs) (do return (← h.putAll o nodes, o)) := by
  obtain ⟨h', hput, htree⟩ := hw.tree_putAll ho hempty hnodes
  refine ⟨h', o, by rw [hput]; rfl, ?_⟩
  rw [htree, Tree.bare_object, Entries.map_ofPairs Tree.bare, List.map_map,
    Entries.ofPairs_eq_merge, Document.mergedObject, ← hvalues]
  rfl

end

/-- An object with repeated keys comes out the same whichever way it comes in: each key stands
once, where it comes first and with the value that it comes with last, at every level. A JSON
text of the members, a map of the pairs in the term format with any spelling of the keys, values
that are put into an empty object one after the other, and a document that is put together in
this way from its innermost containers outwards all make this object. -/
theorem Reachable.repeated_keys_merge (hr : h.Reachable) (limits : Limits)
    (pairs : List (String × Document)) :
    (∀ payload, Json.TextOf (.object () pairs) payload →
      payload.length ≤ limits.maxPayloadBytes →
      (Document.mergedObject pairs).depth ≤ limits.maxNestingDepth →
        Makes (Document.mergedObject pairs) (h.objectOfJson limits payload)) ∧
      (∀ body t, Term.Represents limits.maxNestingDepth body t →
        t.Carries (.object () pairs) → (131 :: body).length ≤ limits.maxPayloadBytes →
          Makes (Document.mergedObject pairs) (h.objectOfBinary limits (131 :: body))) ∧
      (∀ o nodes, h.Allocated (.object o) → h.entries o = [] →
        (∀ p ∈ nodes, h.Knows p.2 ∧ ¬ h.Reaches p.2 (.object o)) →
        nodes.map (fun p => (p.1, (h.tree p.2).bare)) =
          pairs.map (fun p => (p.1, p.2.merged)) →
            Makes (Document.mergedObject pairs) (do return (← h.putAll o nodes, o))) ∧
      ∃ h' n, h.assemble (.object () pairs) = .ok (h', n) ∧
        (h'.tree n).bare = Document.mergedObject pairs := by
  have hw := hr.wellFormed
  refine ⟨fun payload htext hbytes hdepth => hw.makes_objectOfJson htext hbytes hdepth,
    fun body t hform hcarries hbytes => hw.makes_objectOfBinary hform hcarries hbytes,
    fun o nodes ho hempty hnodes hvalues => hw.makes_putAll ho hempty hnodes hvalues, ?_⟩
  obtain ⟨h', n, hassemble, hb⟩ := hw.assemble_built (.object () pairs)
  exact ⟨h', n, hassemble, hb.bare_eq.trans (Tree.merged_eq_mergedObject pairs)⟩

/-- A key that comes again in another spelling, before and after an object in which a key
comes twice. -/
theorem repeated_keys_merge_spellings :
    let h := (empty.after (.newObject [("x", .null)])).after (.newObject [])
    let pairs : List (String × Document) :=
      [("é", .int 1), ("b", .object () [("x", .int 1), ("x", .null)]), ("é", .bool true)]
    let text := Text.encode
      "\x7b\"é\": 1,\"b\" :\x7b\"x\":1,\"x\":null\x7d,\"\\u00e9\":true\x7d"
    let body : Bytes := [116, 0, 0, 0, 3, 115, 1, 233, 97, 1, 109, 0, 0, 0, 1, 98,
      116, 0, 0, 0, 2, 109, 0, 0, 0, 1, 120, 97, 1, 119, 1, 120, 119, 3, 110, 105, 108,
      109, 0, 0, 0, 2, 195, 169, 119, 4, 116, 114, 117, 101]
    let nodes : List (String × Node) := [("é", .int 1), ("b", .object ⟨0⟩), ("é", .bool true)]
    let merged : Document := .object () [("é", .bool true), ("b", .object () [("x", .null)])]
    Makes merged (h.objectOfJson .standard text) ∧
      Makes merged (h.objectOfBinary .standard (131 :: body)) ∧
      Makes merged (do return (← h.putAll ⟨1⟩ nodes, ⟨1⟩)) ∧
      ∃ h' n, h.assemble (.object () pairs) = .ok (h', n) ∧ (h'.tree n).bare = merged := by
  intro h pairs text body nodes merged
  have hr : h.Reachable := .after (.after .empty (by decide)) (by decide)
  have hmerged : Document.mergedObject pairs = merged := rfl
  have htext : Json.TextOf (.object () pairs) text := by
    have hnone : Json.Blank [] := nofun
    have hspace : Json.Blank [' '.toUInt8] := List.forall_mem_singleton.mpr rfl
    have hone (depth) :
        Json.Represents depth (Text.encode (toString (1 : Int64).toInt)) (.int 1) :=
      .number (n := .signed 1) (Json.written_int 1 0)
    have hescaped : Json.StringForm (Text.encode "\\u00e9" ++ ['"'.toUInt8]) "é".toList :=
      .cons (.code rfl) .close
    have hinner := Json.Represents.object hnone
      (.cons (.mk (Json.stringForm_escaped "x".toList) hnone hnone (hone 125)) hnone hnone
        (.last (.mk (Json.stringForm_escaped "x".toList) hnone hnone .null) hnone))
    have houter := Json.Represents.object hnone
      (.cons (.mk (Json.stringForm_escaped "é".toList) hnone hspace (hone 126)) hnone hnone
        (.cons (.mk (Json.stringForm_escaped "b".toList) hspace hnone hinner) hnone hnone
          (.last (.mk hescaped hnone hnone (.bool true)) hnone)))
    refine cast (congrArg (Json.TextOf _) ?_) (Json.TextOf.mk hnone houter hnone)
    decide +kernel
  let term : Term := .map [(.atom "é", .integer 1),
    (.ofText "b", .map [(.ofText "x", .integer 1), (.atom "x", .nil)]), (.ofText "é", .bool true)]
  have hform : Term.Represents Limits.standard.maxNestingDepth body term := by
    have hread : Term.decode Limits.standard.maxNestingDepth (131 :: body) = .ok term := rfl
    obtain ⟨_, hbody, hform⟩ := Term.represents_of_decode hread
    cases hbody
    exact hform
  have hcarries : term.Carries (.object () pairs) :=
    .map (.cons (.atom "é") (.int 1) (.cons (.binary "b")
      (.map (.cons (.binary "x") (.int 1) (.cons (.atom "x") .null .nil)))
      (.cons (.binary "é") (.bool true) .nil)))
  have hnodes : ∀ p ∈ nodes, h.Knows p.2 ∧ ¬ h.Reaches p.2 (.object ⟨1⟩) := by
    intro p hp
    have hknows : ∀ p ∈ nodes, h.Knows p.2 := by decide
    have hsearch : ∀ p ∈ nodes, ¬ h.reaches p.2 (.object ⟨1⟩) = true := by decide
    refine ⟨hknows p hp, ?_⟩
    rw [← hr.wellFormed.reaches_eq_true_iff (hknows p hp)]
    exact hsearch p hp
  obtain ⟨hjson, hbinary, hput, hassemble⟩ := hr.repeated_keys_merge .standard pairs
  rw [hmerged] at hjson hbinary hput hassemble
  exact ⟨hjson text htext (by decide) (by decide), hbinary body term hform hcarries (by decide),
    hput ⟨1⟩ nodes (by decide) rfl hnodes rfl, hassemble⟩

end DynamicData.Heap
