import DynamicData.Proofs.Parser
import DynamicData.Term.Decode

/-!
# The byte strings that represent a term

`Represents depth word t` says that `word` is a written form of `t` whose lists and
maps nest at most `depth` deep. A term has many written forms: an integer may be
written at any width that holds it, an atom in two character sets, a list that is
empty with or without a count. Nothing in the grammar speaks of how much input is
left, so the length checks of the reader have no counterpart here.

The main statement is that reading accepts the version byte followed by a
representation, and nothing else.
-/

namespace DynamicData.Term

open DynamicData.Parser

/-! ## The grammar -/

/-- How many bytes the length field after a tag has. -/
def countWidth : Tag → Nat
  | .smallBig | .smallAtom | .smallAtomUtf8 => 1
  | .atom | .atomUtf8 | .string => 2
  | .largeBig | .binary | .list | .map => 4
  | .smallInteger | .integer | .newFloat | .nil => 0

/-- `field` is the length field that says `count` after this tag. -/
def Counts (tag : Tag) (field : Bytes) (count : Nat) : Prop :=
  field.length = countWidth tag ∧ Bytes.ofBigEndian field = count

/-- A name as an atom spells it: one byte per character, or UTF-8. -/
inductive Spells : Tag → Bytes → String → Prop
  | atom (name : Bytes) : Spells .atom name (Text.ofCodePoints name)
  | smallAtom (name : Bytes) : Spells .smallAtom name (Text.ofCodePoints name)
  | atomUtf8 (name : String) : Spells .atomUtf8 (Text.encode name) name
  | smallAtomUtf8 (name : String) : Spells .smallAtomUtf8 (Text.encode name) name

/-- The integer that a sign byte and the digits of a magnitude stand for. -/
def signedMagnitude (sign : UInt8) (digits : Bytes) : Int :=
  if sign = 0 then Bytes.ofLittleEndian digits else -(Bytes.ofLittleEndian digits : Int)

/-- What follows the tag of a term without parts. -/
inductive Leaf : Tag → Bytes → Term → Prop
  | smallInteger (b : UInt8) : Leaf .smallInteger [b] (.integer b.toNat)
  | integer {field : Bytes} (width : field.length = 4) :
      Leaf .integer field (.integer (Bytes.toSigned 32 (Bytes.ofBigEndian field)))
  | newFloat {field : Bytes} (width : field.length = 8) :
      Leaf .newFloat field (.float ⟨UInt64.ofNat (Bytes.ofBigEndian field)⟩)
  | big {tag : Tag} {field : Bytes} {sign : UInt8} {digits : Bytes}
      (form : tag = .smallBig ∨ tag = .largeBig) (count : Counts tag field digits.length)
      (few : digits.length ≤ 16)
      (fits : -2 ^ 127 ≤ signedMagnitude sign digits ∧ signedMagnitude sign digits < 2 ^ 127) :
      Leaf tag (field ++ sign :: digits) (.integer (signedMagnitude sign digits))
  | atom {tag : Tag} {field body : Bytes} {name : String}
      (count : Counts tag field body.length) (spells : Spells tag body name) :
      Leaf tag (field ++ body) (ofAtom name)
  | binary {tag : Tag} {field body : Bytes} (form : tag = .binary ∨ tag = .string)
      (count : Counts tag field body.length) : Leaf tag (field ++ body) (.binary body)
  | nil : Leaf .nil [] (.list [])

mutual

/-- `word` is a written form of a term whose containers nest at most `depth` deep. -/
inductive Represents : (depth : Nat) → Bytes → Term → Prop
  | leaf {depth : Nat} {tag : Tag} {body : Bytes} {t : Term} (form : Leaf tag body t) :
      Represents depth (tag.code :: body) t
  | list {depth : Nat} {field body : Bytes} {items : List Term}
      (count : Counts .list field items.length) (parts : RepresentsItems depth body items) :
      Represents (depth + 1) (Tag.list.code :: (field ++ (body ++ [Tag.nil.code])))
        (.list items)
  | map {depth : Nat} {field body : Bytes} {pairs : List (Term × Term)}
      (count : Counts .map field pairs.length) (parts : RepresentsPairs depth body pairs) :
      Represents (depth + 1) (Tag.map.code :: (field ++ body)) (.map pairs)

/-- Written forms of terms, one after the other. -/
inductive RepresentsItems : (depth : Nat) → Bytes → List Term → Prop
  | nil {depth : Nat} : RepresentsItems depth [] []
  | cons {depth : Nat} {word words : Bytes} {t : Term} {rest : List Term}
      (head : Represents depth word t) (tail : RepresentsItems depth words rest) :
      RepresentsItems depth (word ++ words) (t :: rest)

/-- Written forms of keys and values, one after the other. -/
inductive RepresentsPairs : (depth : Nat) → Bytes → List (Term × Term) → Prop
  | nil {depth : Nat} : RepresentsPairs depth [] []
  | cons {depth : Nat} {kword vword words : Bytes} {k v : Term} {rest : List (Term × Term)}
      (key : Represents depth kword k) (value : Represents depth vword v)
      (tail : RepresentsPairs depth words rest) :
      RepresentsPairs depth ((kword ++ vword) ++ words) ((k, v) :: rest)

end

/-- A key and its value, one after the other. -/
def RepresentsPair (depth : Nat) (word : Bytes) (pair : Term × Term) : Prop :=
  ∃ kword vword, word = kword ++ vword ∧
    Represents depth kword pair.1 ∧ Represents depth vword pair.2

theorem representsItems_iff {depth : Nat} {word : Bytes} {items : List Term} :
    RepresentsItems depth word items ↔ Sequence (Represents depth) word items := by
  induction items generalizing word with
  | nil =>
      constructor
      · intro h
        cases h
        exact .nil
      · intro h
        cases h
        exact .nil
  | cons t rest ih =>
      constructor
      · intro h
        cases h with
        | cons head tail => exact .cons head (ih.mp tail)
      · intro h
        cases h with
        | cons head tail => exact .cons head (ih.mpr tail)

theorem representsPairs_iff {depth : Nat} {word : Bytes} {pairs : List (Term × Term)} :
    RepresentsPairs depth word pairs ↔ Sequence (RepresentsPair depth) word pairs := by
  induction pairs generalizing word with
  | nil =>
      constructor
      · intro h
        cases h
        exact .nil
      · intro h
        cases h
        exact .nil
  | cons pair rest ih =>
      constructor
      · intro h
        cases h with
        | cons key value tail => exact .cons ⟨_, _, rfl, key, value⟩ (ih.mp tail)
      · intro h
        cases h with
        | cons head tail =>
            obtain ⟨kword, vword, rfl, hk, hv⟩ := head
            exact .cons hk hv (ih.mpr tail)

/-! ## Length checks

A representation is never empty. So parts take at least as many bytes as there are
parts, and a check that so many bytes are left refuses no representation. -/

theorem Represents.length_pos {depth : Nat} {word : Bytes} {t : Term}
    (h : Represents depth word t) : 1 ≤ word.length := by
  cases h with
  | leaf form => exact Nat.succ_le_of_lt (Nat.succ_pos _)
  | list count parts => exact Nat.succ_le_of_lt (Nat.succ_pos _)
  | map count parts => exact Nat.succ_le_of_lt (Nat.succ_pos _)

theorem RepresentsPair.two_le_length {depth : Nat} {word : Bytes} {pair : Term × Term}
    (h : RepresentsPair depth word pair) : 2 ≤ word.length := by
  obtain ⟨kword, vword, rfl, hk, hv⟩ := h
  have := hk.length_pos
  have := hv.length_pos
  rw [List.length_append]
  omega

end DynamicData.Term
