import DynamicData.Proofs.Json.Container
import DynamicData.Proofs.Merged

/-!
# The texts of a document

`Represents depth word d` says that `word` is a JSON text of `d` whose containers nest at most
`depth` deep. The document lists the members of each object as the text does, repetitions
included. A text has many forms: blanks may stand wherever two words meet, each character of a
text or a key may be escaped, and a number is any word that is read as this number.

The main statement is that a text is read as its document with repeated keys merged.
-/

namespace DynamicData.Json

open DynamicData.Parser

mutual

/-- `word` is a text of a document whose containers nest at most `depth` deep. -/
inductive Represents : (depth : Nat) → Bytes → Document → Prop
  | null {depth : Nat} : Represents depth (Text.encode "null") .null
  | bool {depth : Nat} (b : Bool) :
      Represents depth (Text.encode (if b then "true" else "false")) (.bool b)
  | number {depth : Nat} {word : Bytes} {n : Number} (spells : Written 0 word n.tree) :
      Represents depth word n.tree
  | text {depth : Nat} {word : Bytes} {s : String} (form : StringForm word s.toList) :
      Represents depth ('"'.toUInt8 :: word) (.text s)
  | emptyArray {depth : Nat} {gap : Bytes} (blank : Blank gap) :
      Represents (depth + 1) ('['.toUInt8 :: (gap ++ [']'.toUInt8])) (.array () [])
  | array {depth : Nat} {gap words : Bytes} {items : List Document} (blank : Blank gap)
      (parts : RepresentsItems depth words items) :
      Represents (depth + 1) ('['.toUInt8 :: (gap ++ (words ++ [']'.toUInt8])))
        (.array () items)
  | emptyObject {depth : Nat} {gap : Bytes} (blank : Blank gap) :
      Represents (depth + 1) ('\x7b'.toUInt8 :: (gap ++ ['\x7d'.toUInt8])) (.object () [])
  | object {depth : Nat} {gap words : Bytes} {pairs : List (String × Document)}
      (blank : Blank gap) (parts : RepresentsMembers depth words pairs) :
      Represents (depth + 1) ('\x7b'.toUInt8 :: (gap ++ (words ++ ['\x7d'.toUInt8])))
        (.object () pairs)

/-- Texts of items with commas in between. -/
inductive RepresentsItems : (depth : Nat) → Bytes → List Document → Prop
  | last {depth : Nat} {word after : Bytes} {d : Document} (item : Represents depth word d)
      (blank : Blank after) : RepresentsItems depth (word ++ after) [d]
  | cons {depth : Nat} {word after before words : Bytes} {d : Document} {rest : List Document}
      (item : Represents depth word d) (blank : Blank after) (blank' : Blank before)
      (tail : RepresentsItems depth words rest) :
      RepresentsItems depth (word ++ (after ++ ','.toUInt8 :: (before ++ words))) (d :: rest)

/-- A key, a colon and the text of a value. -/
inductive RepresentsMember : (depth : Nat) → Bytes → String → Document → Prop
  | mk {depth : Nat} {kword before after word : Bytes} {k : String} {d : Document}
      (key : StringForm kword k.toList) (blank : Blank before) (blank' : Blank after)
      (value : Represents depth word d) :
      RepresentsMember depth
        ('"'.toUInt8 :: (kword ++ (before ++ ':'.toUInt8 :: (after ++ word)))) k d

/-- Members with commas in between. -/
inductive RepresentsMembers : (depth : Nat) → Bytes → List (String × Document) → Prop
  | last {depth : Nat} {word after : Bytes} {k : String} {d : Document}
      (member : RepresentsMember depth word k d) (blank : Blank after) :
      RepresentsMembers depth (word ++ after) [(k, d)]
  | cons {depth : Nat} {word after before words : Bytes} {k : String} {d : Document}
      {rest : List (String × Document)} (member : RepresentsMember depth word k d)
      (blank : Blank after) (blank' : Blank before)
      (tail : RepresentsMembers depth words rest) :
      RepresentsMembers depth (word ++ (after ++ ','.toUInt8 :: (before ++ words)))
        ((k, d) :: rest)

end

/-! ## Texts are read -/

/-- What is read without going into a container is read with any readers of containers. -/
theorem valueWith_of_ok {array object : Reader Document} {input : Bytes} {r : Document × Bytes}
    (h : valueWith (failNext .recursionLimit) (failNext .recursionLimit) input = .ok r) :
    valueWith array object input = .ok r := by
  unfold valueWith visit at h ⊢
  have hblanks : blanks input = .ok ((), skipBlanks input) := rfl
  rw [bind_of_ok hblanks, bind_of_ok (rest_apply _)] at h ⊢
  cases hinput : skipBlanks input with
  | nil =>
      rw [hinput] at h
      cases h
  | cons b rest =>
      rw [hinput] at h
      dsimp only at h ⊢
      cases hopening : Opening.ofByte? b with
      | none =>
          rw [hopening] at h
          cases h
      | some opening =>
          rw [hopening] at h
          cases opening with
          | bracket => cases h
          | brace => cases h
          | _ => exact h

theorem Written.of_zero {word : Bytes} {d : Document} (h : Written 0 word d) (budget : Nat) :
    Written budget word d where
  begins := h.begins
  read rest hrest := by
    cases budget with
    | zero => exact h.read rest hrest
    | succ budget => exact valueWith_of_ok (h.read rest hrest)

theorem merged_tree (n : Number) : (n.tree : Document).merged = n.tree := by
  apply Tree.merged_scalar
  cases n with
  | unsigned u => exact Tree.depth_unsigned u
  | signed i => rfl
  | real x => rfl

mutual

/-- A text is read as its document with the members of every object merged. -/
theorem Represents.written : ∀ {depth : Nat} {word : Bytes} {d : Document},
    Represents depth word d → Written depth word d.merged
  | depth, _, _, .null => written_null depth
  | depth, _, _, .bool b => written_bool b depth
  | depth, _, _, .number (n := n) spells => by
      rw [merged_tree n]
      exact spells.of_zero depth
  | depth, _, _, .text form => written_string form depth
  | _, _, _, .emptyArray blank => by
      refine ⟨begins_cons _ (by decide), fun rest _ => ?_⟩
      rw [List.cons_append, List.append_assoc]
      exact value_array (enclosed_close Brackets.closing_array blank [] rest)
  | _, _, _, .array blank parts => by
      refine ⟨begins_cons _ (by decide), fun rest _ => ?_⟩
      have hread := enclosed_parts Brackets.closing_array blank (parts.parts []) rest
      rw [List.cons_append, List.append_assoc, List.append_assoc, Tree.merged_array]
      exact (value_array hread).trans (by simp)
  | _, _, _, .emptyObject blank => by
      refine ⟨begins_cons _ (by decide), fun rest _ => ?_⟩
      rw [List.cons_append, List.append_assoc]
      exact value_object (enclosed_close Brackets.closing_object blank [] rest)
  | _, _, _, .object blank parts => by
      refine ⟨begins_cons _ (by decide), fun rest _ => ?_⟩
      have hread := enclosed_parts Brackets.closing_object blank (parts.parts []) rest
      rw [List.cons_append, List.append_assoc, List.append_assoc, Tree.merged_object]
      exact value_object hread

theorem RepresentsItems.parts : ∀ {depth : Nat} {words : Bytes} {items : List Document},
    RepresentsItems depth words items → ∀ done,
      Parts (fun done => do return (← value depth) :: done) done words
        ((items.map Tree.merged).reverse ++ done)
  | _, _, _, .last item blank, done => .last (part_item item.written done) blank
  | _, _, _, .cons item blank blank' tail, done => by
      have hcons := Parts.cons (part_item item.written done) blank blank' (tail.parts _)
      rw [List.map_cons, List.reverse_cons, List.append_assoc, List.singleton_append]
      exact hcons

theorem RepresentsMember.part : ∀ {depth : Nat} {word : Bytes} {k : String} {d : Document},
    RepresentsMember depth word k d → ∀ done,
      Part (member (value depth)) done word (done.insert k d.merged)
  | _, _, _, _, .mk key blank blank' value, done =>
      part_member key blank blank' value.written done

theorem RepresentsMembers.parts : ∀ {depth : Nat} {words : Bytes}
    {pairs : List (String × Document)}, RepresentsMembers depth words pairs → ∀ done,
      Parts (member (value depth)) done words
        ((pairs.map fun p => (p.1, p.2.merged)).foldl (fun es p => es.insert p.1 p.2) done)
  | _, _, _, .last member blank, done => .last (member.part done) blank
  | _, _, _, .cons member blank blank' tail, done =>
      .cons (member.part done) blank blank' (tail.parts _)

end

/-- A payload is a text of `d`: one word with blanks around it. -/
inductive TextOf (d : Document) : Bytes → Prop
  | mk {before word after : Bytes} (blank : Blank before) (form : Represents maxDepth word d)
      (blank' : Blank after) : TextOf d (before ++ (word ++ after))

theorem parse_of_textOf {payload : Bytes} {d : Document} (h : TextOf d payload) :
    parse payload = .ok d.merged := by
  obtain @⟨before, word, after, hbefore, hword, hafter⟩ := h
  have hstops : Stops after := by
    have happend : Stops (after ++ []) := stops_append_of_blank hafter trivial
    rwa [List.append_nil] at happend
  have hread : value maxDepth (before ++ (word ++ after)) = .ok (d.merged, after) := by
    rw [value_of_blank hbefore]
    exact hword.written.read after hstops
  have hblanks : blanks after = .ok ((), []) := by
    rw [blanks, modify_apply, skipBlanks, List.dropWhile_eq_nil_iff.mpr hafter]
  rw [parse, atEnd, bind_of_ok hread, bind_of_ok hblanks]
  rfl

end DynamicData.Json
