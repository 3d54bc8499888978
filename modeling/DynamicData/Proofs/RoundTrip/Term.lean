import DynamicData.Proofs.Term.Nesting
import DynamicData.Proofs.Term.Written

/-!
# The round trip of terms

`Lossless t` says that the term format has a place for all that `t` holds. It does not
bound the nesting: such a term is read back under exactly the limits that its nesting
respects, whatever its keys are and however often they come.
-/

namespace DynamicData.Term

/-- The names whose atoms denote something else. -/
def reservedNames : List String :=
  ["nil", "null", "true", "false"]

/-- The terms that lose nothing in writing: integers have 128 bits, lengths fit their
fields, and no atom has a reserved name. -/
inductive Lossless : Term → Prop
  | nil : Lossless .nil
  | bool (b : Bool) : Lossless (.bool b)
  | integer {i : Int} (low : -2 ^ 127 ≤ i) (high : i < 2 ^ 127) : Lossless (.integer i)
  | float (x : Binary64) : Lossless (.float x)
  | binary {bytes : Bytes} (short : bytes.length < 2 ^ 32) : Lossless (.binary bytes)
  | atom {name : String} (plain : name ∉ reservedNames)
      (short : (Text.encode name).length ≤ 65535) : Lossless (.atom name)
  | list {items : List Term} (short : items.length < 2 ^ 32)
      (parts : ∀ t ∈ items, Lossless t) : Lossless (.list items)
  | map {pairs : List (Term × Term)} (short : pairs.length < 2 ^ 32)
      (keys : ∀ p ∈ pairs, Lossless p.1) (values : ∀ p ∈ pairs, Lossless p.2) :
      Lossless (.map pairs)

theorem ofAtom_eq_atom {name : String} (h : name ∉ reservedNames) :
    ofAtom name = .atom name := by
  simp only [reservedNames, List.mem_cons, List.not_mem_nil, or_false, not_or] at h
  obtain ⟨hnil, hnull, htrue, hfalse⟩ := h
  rw [ofAtom, if_neg (not_or.mpr ⟨hnil, hnull⟩), if_neg htrue, if_neg hfalse]

/-- A lossless term can be written at every depth that its nesting respects. -/
theorem Lossless.writable {t : Term} (ht : t.Lossless) {depth : Nat}
    (hdepth : t.nesting ≤ depth) : t.Writable depth := by
  induction ht generalizing depth with
  | nil => exact .nil
  | bool b => exact .bool b
  | integer low high => exact .integer low high
  | float x => exact .float x
  | binary short => exact .binary short
  | atom plain short => exact .atom (ofAtom_eq_atom plain) (Nat.lt_succ_of_le short)
  | @list items short parts ih =>
      cases depth with
      | zero =>
          cases items with
          | nil => exact .empty
          | cons t rest => exact absurd hdepth (by rw [nesting]; omega)
      | succ depth =>
          rw [nesting_list_le] at hdepth
          exact .list short fun t ht => ih t ht (hdepth t ht)
  | @map pairs short keys values ihk ihv =>
      cases depth with
      | zero => exact absurd hdepth (by rw [nesting]; omega)
      | succ depth =>
          rw [nesting_map_le] at hdepth
          exact .map short (fun p hp => ihk p hp (hdepth p hp).1)
            fun p hp => ihv p hp (hdepth p hp).2

/-- The payload of a lossless term is read as the term, doubles bit for bit, under the
limits that the nesting of the term respects, and under no others. -/
theorem Lossless.decode_encode_eq_ok_iff {t : Term} (ht : t.Lossless) (max : Nat) :
    decode max (encode t) = .ok t ↔ t.nesting ≤ max := by
  constructor
  · exact nesting_le_of_decode
  · intro hmax
    exact decode_of_represents (ht.writable hmax).represents

/-- A map whose key is a map with a list as its key, the pair repeated: the nesting lies in
the keys. The values are the lowest integer of 128 bits, a NaN with a payload, an empty list,
an atom and a binary that spells a reserved name. -/
theorem decode_encode_nested_keys :
    let key : Term := .map [(.list [.integer (-2 ^ 127)], .float ⟨0x7FF8000000000001⟩)]
    let t : Term := .map [(key, .list []), (key, .atom "ready"), (.ofText "nil", .nil)]
    t.nesting = 3 ∧ decode 3 (encode t) = .ok t ∧ decode 2 (encode t) ≠ .ok t := by
  intro key t
  have hkey : key.Lossless := by
    refine .map (by decide) (fun p hp => ?_) fun p hp => ?_
    · rw [List.mem_singleton.mp hp]
      refine .list (by decide) fun u hu => ?_
      rw [List.mem_singleton.mp hu]
      exact .integer (by decide) (by decide)
    · rw [List.mem_singleton.mp hp]
      exact .float _
  have ht : t.Lossless := by
    refine .map (by decide) (fun p hp => ?_) fun p hp => ?_
    · rcases List.mem_cons.mp hp with rfl | hp
      · exact hkey
      rcases List.mem_cons.mp hp with rfl | hp
      · exact hkey
      rw [List.mem_singleton.mp hp]
      exact .binary (by decide)
    · rcases List.mem_cons.mp hp with rfl | hp
      · exact .list (by decide) fun _ hu => absurd hu List.not_mem_nil
      rcases List.mem_cons.mp hp with rfl | hp
      · exact .atom (by decide) (by decide)
      rw [List.mem_singleton.mp hp]
      exact .nil
  have hnesting : t.nesting = 3 := by decide
  refine ⟨hnesting, (ht.decode_encode_eq_ok_iff 3).mpr (Nat.le_of_eq hnesting), ?_⟩
  rw [Ne, ht.decode_encode_eq_ok_iff 2, hnesting]
  decide

end DynamicData.Term
