import DynamicData.Proofs.Bytes
import DynamicData.Proofs.Term.Exact

/-!
# What is written is a representation

`Writable depth t` says that the term format has a place for everything in `t`:
integers of 128 bits, lengths that their fields can hold, atoms that denote
themselves, containers nested at most `depth` deep. The written form of such a term
represents it, so it is read back.
-/

namespace DynamicData.Term

/-- The terms whose written form says all there is to say about them. -/
inductive Writable : (depth : Nat) → Term → Prop
  | nil {depth : Nat} : Writable depth .nil
  | bool {depth : Nat} (b : Bool) : Writable depth (.bool b)
  | integer {depth : Nat} {i : Int} (low : -2 ^ 127 ≤ i) (high : i < 2 ^ 127) :
      Writable depth (.integer i)
  | float {depth : Nat} (x : Binary64) : Writable depth (.float x)
  | binary {depth : Nat} {bytes : Bytes} (short : bytes.length < 2 ^ 32) :
      Writable depth (.binary bytes)
  | atom {depth : Nat} {name : String} (plain : ofAtom name = .atom name)
      (short : (Text.encode name).length < 2 ^ 16) : Writable depth (.atom name)
  | empty {depth : Nat} : Writable depth (.list [])
  | list {depth : Nat} {items : List Term} (short : items.length < 2 ^ 32)
      (parts : ∀ t ∈ items, Writable depth t) : Writable (depth + 1) (.list items)
  | map {depth : Nat} {pairs : List (Term × Term)} (short : pairs.length < 2 ^ 32)
      (keys : ∀ p ∈ pairs, Writable depth p.1) (values : ∀ p ∈ pairs, Writable depth p.2) :
      Writable (depth + 1) (.map pairs)

/-! ## Terms without parts -/

/-- A count is written at the width of its field. -/
theorem counts_toBigEndian (tag : Tag) {count : Nat} (h : count < 256 ^ countWidth tag) :
    Counts tag (Bytes.toBigEndian (countWidth tag) count) count :=
  ⟨Bytes.length_toBigEndian _ _, Bytes.ofBigEndian_toBigEndian h⟩

theorem represents_writeBinary {depth : Nat} {bytes : Bytes} (short : bytes.length < 2 ^ 32) :
    Represents depth (writeBinary bytes) (.binary bytes) :=
  .leaf (.binary (.inl rfl) (counts_toBigEndian .binary short))

/-- The atom of a name denotes the term that the name stands for. -/
theorem represents_writeAtom {depth : Nat} (name : String)
    (short : (Text.encode name).length < 2 ^ 16) :
    Represents depth (writeAtom name) (ofAtom name) := by
  unfold writeAtom
  dsimp only
  by_cases hsmall : (Text.encode name).length < 2 ^ 8
  · rw [if_pos hsmall]
    exact .leaf (.atom (counts_toBigEndian .smallAtomUtf8 hsmall) (.smallAtomUtf8 name))
  · rw [if_neg hsmall, if_pos short]
    exact .leaf (.atom (counts_toBigEndian .atomUtf8 short) (.atomUtf8 name))

theorem signedMagnitude_magnitude (i : Int) :
    signedMagnitude (if i < 0 then 1 else 0) (Bytes.magnitude i.natAbs) = i := by
  unfold signedMagnitude
  rw [Bytes.ofLittleEndian_magnitude]
  by_cases hneg : i < 0
  · rw [if_pos hneg, if_neg (by decide)]
    omega
  · rw [if_neg hneg, if_pos rfl]
    omega

theorem represents_writeInteger {depth : Nat} {i : Int} (low : -2 ^ 127 ≤ i)
    (high : i < 2 ^ 127) : Represents depth (writeInteger i) (.integer i) := by
  unfold writeInteger
  by_cases hbyte : 0 ≤ i ∧ i < 2 ^ 8
  · rw [if_pos hbyte]
    have hleaf := Leaf.smallInteger (UInt8.ofNat i.toNat)
    have hvalue : ((UInt8.ofNat i.toNat).toNat : Int) = i := by
      rw [UInt8.toNat_ofNat']
      omega
    rw [hvalue] at hleaf
    exact .leaf hleaf
  · rw [if_neg hbyte]
    by_cases hword : -2 ^ 31 ≤ i ∧ i < 2 ^ 31
    · rw [if_pos hword]
      have hlt : Bytes.toUnsigned 32 i < 256 ^ 4 := Bytes.toUnsigned_lt 32 i
      have hleaf := Leaf.integer (Bytes.length_toBigEndian 4 (Bytes.toUnsigned 32 i))
      rw [Bytes.ofBigEndian_toBigEndian hlt, Bytes.toSigned_toUnsigned hword.1 hword.2] at hleaf
      exact .leaf hleaf
    · rw [if_neg hword]
      dsimp only
      have hdigits : Bytes.digitCount i.natAbs ≤ 16 := Bytes.digitCount_le (by omega)
      have hcount : Counts .smallBig
          (Bytes.toBigEndian 1 (Bytes.magnitude i.natAbs).length)
          (Bytes.magnitude i.natAbs).length :=
        counts_toBigEndian .smallBig (by
          rw [Bytes.length_magnitude]
          exact Nat.lt_of_le_of_lt hdigits (by decide))
      have hfew : (Bytes.magnitude i.natAbs).length ≤ 16 := by
        rw [Bytes.length_magnitude]
        exact hdigits
      have hleaf := @Leaf.big _ _ (if i < 0 then 1 else 0) _ (.inl rfl) hcount hfew
        (by rw [signedMagnitude_magnitude]; exact ⟨low, high⟩)
      rw [signedMagnitude_magnitude] at hleaf
      exact .leaf hleaf

theorem represents_writeFloat {depth : Nat} (x : Binary64) :
    Represents depth (write (.float x)) (.float x) := by
  have hleaf := Leaf.newFloat (Bytes.length_toBigEndian 8 x.bits.toNat)
  rw [Bytes.ofBigEndian_toBigEndian x.bits.toNat_lt, UInt64.ofNat_toNat] at hleaf
  exact .leaf hleaf

/-! ## Containers -/

theorem representsItems_writeItems {depth : Nat} {items : List Term}
    (ih : ∀ t ∈ items, Represents depth (write t) t) :
    RepresentsItems depth (writeItems items) items := by
  induction items with
  | nil => exact .nil
  | cons t rest ihr =>
      refine .cons (ih t List.mem_cons_self) (ihr fun u hu => ?_)
      exact ih u (List.mem_cons_of_mem t hu)

theorem representsPairs_writePairs {depth : Nat} {pairs : List (Term × Term)}
    (ihk : ∀ p ∈ pairs, Represents depth (write p.1) p.1)
    (ihv : ∀ p ∈ pairs, Represents depth (write p.2) p.2) :
    RepresentsPairs depth (writePairs pairs) pairs := by
  induction pairs with
  | nil => exact .nil
  | cons p rest ihr =>
      have hrest := ihr (fun q hq => ihk q (List.mem_cons_of_mem p hq))
        (fun q hq => ihv q (List.mem_cons_of_mem p hq))
      have hpair := RepresentsPairs.cons (ihk p List.mem_cons_self) (ihv p List.mem_cons_self)
        hrest
      rw [List.append_assoc] at hpair
      exact hpair

/-- The written form of a term represents it. -/
theorem Writable.represents {depth : Nat} {t : Term} (h : Writable depth t) :
    Represents depth (write t) t := by
  induction h with
  | nil => exact represents_writeAtom "nil" (by decide)
  | bool b =>
      cases b with
      | false => exact represents_writeAtom "false" (by decide)
      | true => exact represents_writeAtom "true" (by decide)
  | integer low high => exact represents_writeInteger low high
  | float x => exact represents_writeFloat x
  | binary short => exact represents_writeBinary short
  | @atom depth name plain short =>
      have hname := @represents_writeAtom depth name short
      rw [plain] at hname
      exact hname
  | empty => exact .leaf .nil
  | @list depth items short parts ih =>
      cases items with
      | nil => exact .leaf .nil
      | cons t rest =>
          exact .list (counts_toBigEndian .list short) (representsItems_writeItems ih)
  | map short keys values ihk ihv =>
      exact .map (counts_toBigEndian .map short) (representsPairs_writePairs ihk ihv)

end DynamicData.Term
