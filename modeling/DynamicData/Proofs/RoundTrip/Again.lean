import DynamicData.Proofs.RoundTrip.Term
import DynamicData.Proofs.Text

/-!
# Terms that are written again

A term that has been read, from whatever form, can be written and read again. Every
integer, binary, list and map comes back as it was, under the limit it was read under: what
the length fields of the payload could hold fits those of the written form, and a list
without items is written in the short form, which needs no depth.

Names of atoms are the exception. One byte per character spells names of up to 65535
characters, and these take up to twice as many bytes in UTF-8, the one form in which atoms
are written. No length field of an atom holds so many, and the name is written as a binary.
`asWritten` is the term with this change made, and it is what is read again.
-/

namespace DynamicData

namespace Term

/-! ## What is written -/

/-- The most bytes that the name of an atom is written with. -/
def maxNameBytes : Nat := 65535

mutual

/-- The term that is written: an atom whose name is too long becomes a binary. -/
def asWritten : Term → Term
  | .nil => .nil
  | .bool b => .bool b
  | .integer i => .integer i
  | .float x => .float x
  | .binary bytes => .binary bytes
  | .atom name =>
    if (Text.encode name).length ≤ maxNameBytes then .atom name else .ofText name
  | .list items => .list (asWrittenItems items)
  | .map pairs => .map (asWrittenPairs pairs)

/-- The terms that are written for the items. -/
def asWrittenItems : List Term → List Term
  | [] => []
  | t :: rest => asWritten t :: asWrittenItems rest

/-- The terms that are written for the keys and values. -/
def asWrittenPairs : List (Term × Term) → List (Term × Term)
  | [] => []
  | (k, v) :: rest => (asWritten k, asWritten v) :: asWrittenPairs rest

end

mutual

/-- The names of the atoms in a term, in keys as well as in values. -/
def atomNames : Term → List String
  | .nil | .bool _ | .integer _ | .float _ | .binary _ => []
  | .atom name => [name]
  | .list items => atomNamesOfItems items
  | .map pairs => atomNamesOfPairs pairs

/-- The names of the atoms in the items. -/
def atomNamesOfItems : List Term → List String
  | [] => []
  | t :: rest => atomNames t ++ atomNamesOfItems rest

/-- The names of the atoms in the keys and values. -/
def atomNamesOfPairs : List (Term × Term) → List String
  | [] => []
  | (k, v) :: rest => (atomNames k ++ atomNames v) ++ atomNamesOfPairs rest

end

theorem asWrittenItems_eq_map (items : List Term) :
    asWrittenItems items = items.map asWritten := by
  induction items with
  | nil => rfl
  | cons t rest ih => rw [asWrittenItems, ih, List.map_cons]

theorem asWrittenPairs_eq_map (pairs : List (Term × Term)) :
    asWrittenPairs pairs = pairs.map fun p => (p.1.asWritten, p.2.asWritten) := by
  induction pairs with
  | nil => rfl
  | cons p rest ih => rw [asWrittenPairs, ih, List.map_cons]

theorem writeAtom_of_long {name : String} (h : maxNameBytes < (Text.encode name).length) :
    writeAtom name = writeBinary (Text.encode name) := by
  unfold maxNameBytes at h
  unfold writeAtom
  dsimp only
  rw [if_neg (by omega), if_neg (by omega)]

mutual

/-- The change is one that writing makes in any case. -/
theorem write_asWritten : ∀ t : Term, write t.asWritten = write t
  | .nil | .bool _ | .integer _ | .float _ | .binary _ | .list [] => rfl
  | .atom name => by
      rw [asWritten]
      split
      · rfl
      · rename_i h
        exact (writeAtom_of_long (Nat.not_le.mp h)).symm
  | .list (t :: rest) => by
      have hlen : (asWrittenItems rest).length = rest.length := by
        rw [asWrittenItems_eq_map, List.length_map]
      rw [asWritten, asWrittenItems, write, write, hlen, write_asWritten t,
        writeItems_asWritten rest]
  | .map pairs => by
      have hlen : (asWrittenPairs pairs).length = pairs.length := by
        rw [asWrittenPairs_eq_map, List.length_map]
      rw [asWritten, write, write, hlen, writePairs_asWritten pairs]

theorem writeItems_asWritten : ∀ ts : List Term, writeItems (asWrittenItems ts) = writeItems ts
  | [] => rfl
  | t :: rest => by
      rw [asWrittenItems, writeItems, writeItems, write_asWritten t, writeItems_asWritten rest]

theorem writePairs_asWritten : ∀ ps : List (Term × Term),
    writePairs (asWrittenPairs ps) = writePairs ps
  | [] => rfl
  | (k, v) :: rest => by
      rw [asWrittenPairs, writePairs, writePairs, write_asWritten k, write_asWritten v,
        writePairs_asWritten rest]

end

mutual

/-- Nothing changes if and only if all names are short. -/
theorem asWritten_eq_self_iff : ∀ t : Term,
    t.asWritten = t ↔ ∀ name ∈ t.atomNames, (Text.encode name).length ≤ maxNameBytes
  | .nil | .bool _ | .integer _ | .float _ | .binary _ => by simp [asWritten, atomNames]
  | .atom name => by
      by_cases h : (Text.encode name).length ≤ maxNameBytes <;>
        simp [asWritten, atomNames, h, ofText]
  | .list items => by simp [asWritten, atomNames, asWrittenItems_eq_self_iff items]
  | .map pairs => by simp [asWritten, atomNames, asWrittenPairs_eq_self_iff pairs]

theorem asWrittenItems_eq_self_iff : ∀ ts : List Term, asWrittenItems ts = ts ↔
    ∀ name ∈ atomNamesOfItems ts, (Text.encode name).length ≤ maxNameBytes
  | [] => by simp [asWrittenItems, atomNamesOfItems]
  | t :: rest => by
      simp [asWrittenItems, atomNamesOfItems, asWritten_eq_self_iff t,
        asWrittenItems_eq_self_iff rest, or_imp, forall_and]

theorem asWrittenPairs_eq_self_iff : ∀ ps : List (Term × Term), asWrittenPairs ps = ps ↔
    ∀ name ∈ atomNamesOfPairs ps, (Text.encode name).length ≤ maxNameBytes
  | [] => by simp [asWrittenPairs, atomNamesOfPairs]
  | (k, v) :: rest => by
      simp [asWrittenPairs, atomNamesOfPairs, asWritten_eq_self_iff k, asWritten_eq_self_iff v,
        asWrittenPairs_eq_self_iff rest, or_imp, forall_and, and_assoc]

end

/-! ## What has been read -/

/-- A count is at most what its length field can hold. -/
theorem Counts.lt {tag : Tag} {field : Bytes} {count : Nat} (h : Counts tag field count) :
    count < 256 ^ countWidth tag := by
  obtain ⟨hwidth, rfl⟩ := h
  exact hwidth ▸ Bytes.ofBigEndian_lt field

/-- A name takes at most twice as many bytes as the payload has for it. -/
theorem Spells.length_le {tag : Tag} {body : Bytes} {name : String} (h : Spells tag body name) :
    (Text.encode name).length ≤ 2 * body.length := by
  cases h with
  | atom | smallAtom => exact Text.length_encode_ofCodePoints_le body
  | atomUtf8 | smallAtomUtf8 => omega

theorem writable_asWritten_ofAtom {depth : Nat} {name : String}
    (h : (Text.encode name).length < 2 ^ 32) : (ofAtom name).asWritten.Writable depth := by
  by_cases hname : name ∈ reservedNames
  · simp only [reservedNames, List.mem_cons, List.not_mem_nil, or_false] at hname
    rcases hname with rfl | rfl | rfl | rfl
    · exact .nil
    · exact .nil
    · exact .bool true
    · exact .bool false
  · have hatom := ofAtom_eq_atom hname
    rw [hatom, asWritten]
    split
    · rename_i hshort
      exact .atom hatom (Nat.lt_succ_of_le hshort)
    · exact .binary h

theorem Leaf.writable_asWritten {depth : Nat} {tag : Tag} {body : Bytes} {t : Term}
    (h : Leaf tag body t) : t.asWritten.Writable depth := by
  cases h with
  | smallInteger b =>
      have := b.toNat_lt
      exact .integer (by omega) (by omega)
  | integer width =>
      have hlt := Bytes.ofBigEndian_lt body
      rw [width] at hlt
      obtain ⟨hlow, hhigh⟩ := Bytes.toSigned_bounds hlt
      exact .integer (by omega) (by omega)
  | newFloat width => exact .float _
  | big form count few fits => exact .integer fits.1 fits.2
  | atom count spells =>
      have hlen := spells.length_le
      have hcount := count.lt
      have hwidth : 256 ^ countWidth tag ≤ 256 ^ 2 := by cases spells <;> decide
      exact writable_asWritten_ofAtom (by omega)
  | binary form count =>
      have hcount := count.lt
      have hwidth : 256 ^ countWidth tag ≤ 256 ^ 4 := by rcases form with rfl | rfl <;> decide
      exact .binary (by omega)
  | nil => exact .empty

/-- What has been read can be written, and nests no deeper than it was read. -/
theorem Represents.writable_asWritten {depth : Nat} {word : Bytes} {t : Term}
    (h : Represents depth word t) : t.asWritten.Writable depth := by
  induction depth generalizing word t with
  | zero =>
      cases h with
      | leaf form => exact form.writable_asWritten
  | succ depth ih =>
      cases h with
      | leaf form => exact form.writable_asWritten
      | list count parts =>
          rw [asWritten, asWrittenItems_eq_map]
          refine .list (by rw [List.length_map]; exact count.lt) fun u hu => ?_
          obtain ⟨t, ht, rfl⟩ := List.mem_map.mp hu
          obtain ⟨_, hword⟩ := parts.exists_word t ht
          exact ih hword
      | map count parts =>
          rw [asWritten, asWrittenPairs_eq_map]
          refine .map (by rw [List.length_map]; exact count.lt) (fun q hq => ?_) fun q hq => ?_
          · obtain ⟨p, hp, rfl⟩ := List.mem_map.mp hq
            obtain ⟨⟨_, hkey⟩, -⟩ := parts.exists_words p hp
            exact ih hkey
          · obtain ⟨p, hp, rfl⟩ := List.mem_map.mp hq
            obtain ⟨-, _, hvalue⟩ := parts.exists_words p hp
            exact ih hvalue

theorem Represents.decode_encode {max : Nat} {word : Bytes} {t : Term}
    (h : Represents max word t) : decode max (encode t) = .ok t.asWritten := by
  rw [encode, ← write_asWritten t]
  exact decode_of_represents h.writable_asWritten.represents

/-- A term that has been read, from whatever form, is read again from its own payload under
the same limit, with binaries in place of the atoms whose names are too long. It comes back
as it was if and only if it has no such atoms. -/
theorem decode_encode_of_decode {max : Nat} {payload : Bytes} {t : Term}
    (h : decode max payload = .ok t) :
    decode max (encode t) = .ok t.asWritten ∧
      (decode max (encode t) = .ok t ↔
        ∀ name ∈ t.atomNames, (Text.encode name).length ≤ maxNameBytes) := by
  obtain ⟨word, -, hword⟩ := represents_of_decode h
  have hread := hword.decode_encode
  refine ⟨hread, ?_⟩
  rw [hread, Except.ok.injEq, asWritten_eq_self_iff]

/-- Forms that are not written: an integer with more digits than it needs, a negative zero, a
name in one byte per character, a short text, and an empty list with a count, which is read
at the limit on nesting. -/
theorem decode_encode_other_forms :
    let payload : Bytes := [131, 108, 0, 0, 0, 5, 111, 0, 0, 0, 3, 1, 0, 1, 0, 110, 0, 1,
      115, 1, 0xE9, 107, 0, 2, 111, 107, 108, 0, 0, 0, 0, 106, 106]
    let t : Term := .list [.integer (-256), .integer 0, .atom "é", .ofText "ok", .list []]
    decode 2 payload = .ok t ∧ decode 2 (encode t) = .ok t := by
  intro payload t
  have h : decode 2 payload = .ok t := by rfl
  exact ⟨h, (decode_encode_of_decode h).2.mpr (by decide)⟩

/-- A name of 32768 characters, one byte each in the payload and two bytes each in UTF-8, is
read as an atom and written as a binary. -/
theorem long_name_read_again_as_binary :
    let body : Bytes := List.replicate 32768 0xE9
    let payload : Bytes := 131 :: 100 :: 128 :: 0 :: body
    let name : String := Text.ofCodePoints body
    decode standardDepth payload = .ok (.atom name) ∧
      decode standardDepth (encode (.atom name)) = .ok (.ofText name) ∧
      decode standardDepth (encode (.atom name)) ≠ .ok (.atom name) := by
  intro body payload name
  have hlen : body.length = 32768 := List.length_replicate
  have hlong : (Text.encode name).length = 65536 := Text.length_encode_replicate 32768 0xE9
  clear_value body
  have hatom : ofAtom name = .atom name := by
    refine ofAtom_eq_atom fun hname => ?_
    have hshort : ∀ s ∈ reservedNames, (Text.encode s).length ≤ 5 := by decide
    have := hshort name hname
    omega
  have hword : Represents standardDepth (100 :: 128 :: 0 :: body) (.atom name) := by
    have hcount : Counts .atom [128, 0] body.length := ⟨rfl, by rw [hlen]; rfl⟩
    have hleaf := Leaf.atom hcount (.atom body)
    rw [hatom] at hleaf
    exact .leaf hleaf
  have hagain := hword.decode_encode
  rw [asWritten, if_neg (by unfold maxNameBytes; omega)] at hagain
  refine ⟨decode_of_represents hword, hagain, fun h => ?_⟩
  rw [hagain] at h
  cases h

end Term
end DynamicData
