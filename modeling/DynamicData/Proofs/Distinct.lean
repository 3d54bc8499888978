import DynamicData.Proofs.Parsed
import DynamicData.Proofs.Term.Merged

/-!
# Parsed documents have distinct keys

Whatever a payload repeats, the document that is read from it has each key of an
object once: members go in by insertion, in JSON and in terms alike.
-/

namespace DynamicData

open DynamicData.Tree

theorem Document.inductive_keysDistinct : Document.Inductive KeysDistinct where
  null := .null
  bool := .bool
  int := .int
  unsigned := keysDistinct_unsigned
  float := .float
  text := .text
  array := .array ()
  object := fun nodup values =>
    .object () nodup fun e he => values e.2 (List.mem_map_of_mem he)

theorem Term.keysDistinct_of_document (t : Term) {d : Document} (hd : t.document = .ok d) :
    d.KeysDistinct := by
  obtain ⟨d', -, rfl⟩ := exists_carries t hd
  exact keysDistinct_merged d'

theorem Document.Parsed.keysDistinct {d : Document} (hd : d.Parsed) : d.KeysDistinct := by
  cases hd with
  | json read => exact Json.holds_of_parse inductive_keysDistinct read
  | binary read =>
      obtain ⟨t, -, ht⟩ := ok_of_ofBinary read
      exact Term.keysDistinct_of_document t ht

namespace Document

theorem keysDistinct_of_ofJson {limits : Limits} {payload : Bytes} {d : Document}
    (hd : ofJson limits payload = .ok d) : d.KeysDistinct :=
  (parsed_of_ofJson hd).keysDistinct

theorem keysDistinct_of_ofSource {limits : Limits} {s : Source} {d : Document}
    (hd : ofSource limits s = .ok d) : d.KeysDistinct :=
  (parsed_of_ofSource hd).keysDistinct

theorem keysDistinct_of_ofBinary {limits : Limits} {payload : Bytes} {d : Document}
    (hd : ofBinary limits payload = .ok d) : d.KeysDistinct :=
  (Parsed.binary hd).keysDistinct

end Document
end DynamicData
