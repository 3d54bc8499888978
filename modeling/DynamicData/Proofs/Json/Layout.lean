import DynamicData.Json.Print
import DynamicData.Proofs.Json.Grammar

/-!
# Trees laid out as JSON

The two ways to write a tree differ in nothing but blanks: what stands before the parts of a
container and before its closing bracket, and after the colon of a member. Any such layout
keeps to the grammar, repeated keys included, so that a tree without repeated keys is read
back as what comes back from JSON.
-/

namespace DynamicData

open Text

namespace Json

variable {ι : Type}

/-! ## Layouts -/

/-- What stands after the opening bracket: the parts, a gap before each and a comma in
between, and after the last of them what leads to the closing bracket. -/
def inside {α : Type} (gap trail : Bytes) (close : UInt8) (word : α → Bytes) : List α → Bytes
  | [] => [close]
  | a :: as =>
    gap ++ (word a ++ (as.flatMap (fun b => ','.toUInt8 :: (gap ++ word b)) ++ (trail ++ [close])))

/-- The text of a member of an object. -/
def memberWord {α : Type} (gap : Bytes) (word : α → Bytes) (e : String × α) : Bytes :=
  encode (quote e.1) ++ ':'.toUInt8 :: (gap ++ word e.2)

theorem blank_nil : Blank [] :=
  fun _ hb => absurd hb List.not_mem_nil

/-- A way to write trees: their texts at each level of nesting, with blanks before the parts
of a container, before its closing bracket and after colons. -/
structure Layout (ι : Type) where
  word : Nat → Tree ι → Bytes
  /-- what begins a part at a level -/
  gap : Nat → Bytes
  /-- what follows a colon -/
  colon : Bytes
  blank_gap : ∀ level, Blank (gap level)
  blank_colon : Blank colon
  scalar : ∀ level t, t.depth = 0 → word level t = encode t.compact
  array : ∀ level mark items, word level (.array mark items) = '['.toUInt8 ::
    inside (gap (level + 1)) (gap level) Brackets.array.close (word (level + 1)) items
  object : ∀ level mark entries, word level (.object mark entries) = '\x7b'.toUInt8 ::
    inside (gap (level + 1)) (gap level) Brackets.object.close
      (memberWord colon (word (level + 1))) entries

/-! ## Layouts keep to the grammar -/

section
variable {depth : Nat} {gap trail colon : Bytes} {word : Tree ι → Bytes}

theorem represents_scalar {t : Tree ι} (ht : t.depth = 0) (depth : Nat) :
    Represents depth (encode t.compact) t.jsonForm := by
  cases t with
  | null => exact .null
  | bool b => exact .bool b
  | int i => exact .number (n := .signed i) (written_int i 0)
  | uint u => exact .number (n := .unsigned u) (written_uint u 0)
  | float x =>
      have hword := written_double x 0
      rw [ofBinary64] at hword
      rw [Tree.jsonForm, Tree.image, Tree.compact, ofBinary64]
      by_cases hx : x.isFinite = true
      · simp only [if_pos hx] at hword ⊢
        exact .number (n := .real x) hword
      · rw [if_neg hx, if_neg hx]
        exact .null
  | text s =>
      rw [Tree.compact, encode_quote]
      exact .text (stringForm_escaped s.toList)
  | array mark items => exact absurd ht (by rw [Tree.depth]; omega)
  | object mark entries => exact absurd ht (by rw [Tree.depth]; omega)

theorem representsItems_flatMap (hgap : Blank gap) (htrail : Blank trail) {t : Tree ι}
    {rest : List (Tree ι)} (hword : ∀ u ∈ t :: rest, Represents depth (word u) u.jsonForm) :
    RepresentsItems depth
      (word t ++ (rest.flatMap (fun u => ','.toUInt8 :: (gap ++ word u)) ++ trail))
      ((t :: rest).map Tree.jsonForm) := by
  induction rest generalizing t with
  | nil => exact .last (hword t List.mem_cons_self) htrail
  | cons u rest ih =>
      rw [List.forall_mem_cons] at hword
      have hcons := RepresentsItems.cons hword.1 blank_nil hgap (ih hword.2)
      rw [List.flatMap_cons, List.cons_append, List.append_assoc, List.cons_append,
        List.append_assoc, List.append_assoc]
      exact hcons

theorem represents_array (hgap : Blank gap) (htrail : Blank trail) {items : List (Tree ι)}
    (hword : ∀ t ∈ items, Represents depth (word t) t.jsonForm) :
    Represents (depth + 1) ('['.toUInt8 :: inside gap trail Brackets.array.close word items)
      (.array () (items.map Tree.jsonForm)) := by
  cases items with
  | nil => exact .emptyArray blank_nil
  | cons t rest =>
      have harray := Represents.array hgap (representsItems_flatMap hgap htrail hword)
      rw [List.append_assoc, List.append_assoc] at harray
      exact harray

theorem representsMember_memberWord (hcolon : Blank colon) {e : String × Tree ι}
    (hword : Represents depth (word e.2) e.2.jsonForm) :
    RepresentsMember depth (memberWord colon word e) e.1 e.2.jsonForm := by
  rw [memberWord, encode_quote, List.cons_append]
  exact .mk (stringForm_escaped e.1.toList) blank_nil hcolon hword

theorem representsMembers_flatMap (hgap : Blank gap) (htrail : Blank trail)
    (hcolon : Blank colon) {e : String × Tree ι} {rest : List (String × Tree ι)}
    (hword : ∀ f ∈ e :: rest, Represents depth (word f.2) f.2.jsonForm) :
    RepresentsMembers depth
      (memberWord colon word e ++
        (rest.flatMap (fun f => ','.toUInt8 :: (gap ++ memberWord colon word f)) ++ trail))
      ((e :: rest).map fun f => (f.1, f.2.jsonForm)) := by
  induction rest generalizing e with
  | nil => exact .last (representsMember_memberWord hcolon (hword e List.mem_cons_self)) htrail
  | cons f rest ih =>
      rw [List.forall_mem_cons] at hword
      have hcons := RepresentsMembers.cons (representsMember_memberWord hcolon hword.1)
        blank_nil hgap (ih hword.2)
      rw [List.flatMap_cons, List.cons_append, List.append_assoc, List.cons_append,
        List.append_assoc, List.append_assoc]
      exact hcons

theorem represents_object (hgap : Blank gap) (htrail : Blank trail) (hcolon : Blank colon)
    {entries : List (String × Tree ι)}
    (hword : ∀ e ∈ entries, Represents depth (word e.2) e.2.jsonForm) :
    Represents (depth + 1)
      ('\x7b'.toUInt8 :: inside gap trail Brackets.object.close (memberWord colon word) entries)
      (.object () (entries.map fun e => (e.1, e.2.jsonForm))) := by
  cases entries with
  | nil => exact .emptyObject blank_nil
  | cons e rest =>
      have hobject := Represents.object hgap
        (representsMembers_flatMap hgap htrail hcolon hword)
      rw [List.append_assoc, List.append_assoc] at hobject
      exact hobject

end

/-- Blanks do not matter: however a tree is laid out, its text is a text of the tree. -/
theorem Layout.represents (l : Layout ι) (t : Tree ι) {depth : Nat} (hdepth : t.depth ≤ depth)
    (level : Nat) : Represents depth (l.word level t) t.jsonForm := by
  induction t using Tree.induction generalizing depth level with
  | array mark items ih =>
      cases depth with
      | zero => exact absurd hdepth (by rw [Tree.depth]; omega)
      | succ depth =>
          rw [Tree.depth_array_le] at hdepth
          rw [l.array, Tree.jsonForm_array]
          exact represents_array (l.blank_gap _) (l.blank_gap _) fun t ht =>
            ih t ht (hdepth t ht) (level + 1)
  | object mark entries ih =>
      cases depth with
      | zero => exact absurd hdepth (by rw [Tree.depth]; omega)
      | succ depth =>
          rw [Tree.depth_object_le] at hdepth
          rw [l.object, Tree.jsonForm_object]
          exact represents_object (l.blank_gap _) (l.blank_gap _) l.blank_colon fun e he =>
            ih e he (hdepth e he) (level + 1)
  | _ =>
      rw [l.scalar level _ rfl]
      exact represents_scalar rfl depth

/-- A tree without repeated keys is read back from its text. -/
theorem Layout.written (l : Layout ι) {t : Tree ι} (ht : t.KeysDistinct) {budget : Nat}
    (hdepth : t.depth ≤ budget) (level : Nat) : Written budget (l.word level t) t.jsonForm := by
  have hwritten := (l.represents t hdepth level).written
  rwa [ht.jsonForm.merged_eq] at hwritten

/-! ## Punctuation -/

theorem encode_comma : encode "," = [','.toUInt8] := by decide

theorem encode_colon : encode ":" = [':'.toUInt8] := by decide

theorem encode_open_array : encode "[" = ['['.toUInt8] := by decide

theorem encode_close_array : encode "]" = [Brackets.array.close] := by decide

theorem encode_open_object : encode "\x7b" = ['\x7b'.toUInt8] := by decide

theorem encode_close_object : encode "\x7d" = [Brackets.object.close] := by decide

theorem encode_newline : encode "\n" = ['\n'.toUInt8] := by decide

end Json

namespace Tree

variable {ι : Type}

/-! ## Without blanks -/

theorem encode_compactItems (items : List (Tree ι)) :
    encode (compactItems items) =
      items.flatMap fun t => ','.toUInt8 :: ([] ++ encode (compact t)) := by
  induction items with
  | nil => rfl
  | cons t rest ih =>
      rw [compactItems, encode_append, encode_append, ih, Json.encode_comma, List.flatMap_cons]
      rfl

theorem encode_member (k : String) (t : Tree ι) :
    encode (Json.quote k ++ ":" ++ compact t) =
      Json.memberWord [] (fun t => encode (compact t)) (k, t) := by
  rw [encode_append, encode_append, Json.encode_colon, List.append_assoc]
  rfl

theorem encode_compactEntries (entries : List (String × Tree ι)) :
    encode (compactEntries entries) = entries.flatMap fun e =>
      ','.toUInt8 :: ([] ++ Json.memberWord [] (fun t => encode (compact t)) e) := by
  induction entries with
  | nil => rfl
  | cons e rest ih =>
      rw [compactEntries, encode_append, encode_append, encode_member, ih, Json.encode_comma,
        List.flatMap_cons]
      rfl

theorem encode_compact_array (mark : ι) (items : List (Tree ι)) :
    encode (compact (.array mark items)) = '['.toUInt8 ::
      Json.inside [] [] Json.Brackets.array.close (fun t => encode (compact t)) items := by
  cases items with
  | nil => rfl
  | cons t rest =>
      rw [compact, encode_append, encode_append, encode_append, encode_compactItems,
        Json.encode_open_array, Json.encode_close_array, List.append_assoc, List.append_assoc]
      rfl

theorem encode_compact_object (mark : ι) (entries : List (String × Tree ι)) :
    encode (compact (.object mark entries)) = '\x7b'.toUInt8 ::
      Json.inside [] [] Json.Brackets.object.close
        (Json.memberWord [] fun t => encode (compact t)) entries := by
  cases entries with
  | nil => rfl
  | cons e rest =>
      rw [compact, encode_append, encode_append, encode_append, encode_member,
        encode_compactEntries, Json.encode_open_object, Json.encode_close_object,
        List.append_assoc, List.append_assoc]
      rfl

/-- The layout of `compact`. -/
def compactLayout : Json.Layout ι where
  word _ t := encode t.compact
  gap _ := []
  colon := []
  blank_gap _ := Json.blank_nil
  blank_colon := Json.blank_nil
  scalar _ _ _ := rfl
  array _ := encode_compact_array
  object _ := encode_compact_object

/-! ## With lines and indentation -/

/-- A new line and its indentation. -/
def lineStart (level : Nat) : Bytes :=
  '\n'.toUInt8 :: encode (Json.indent level)

theorem blank_lineStart (level : Nat) : Json.Blank (lineStart level) := by
  have hascii : ∀ c ∈ List.replicate (2 * level) ' ', c.toNat < 128 := by
    intro c hc
    rw [List.eq_of_mem_replicate hc]
    decide
  intro b hb
  rw [lineStart, Json.indent, encode_ascii hascii, ascii, List.map_replicate, List.mem_cons] at hb
  rcases hb with rfl | hb
  · decide
  · rw [List.eq_of_mem_replicate hb]
    decide

theorem encode_indentedItems (level : Nat) (items : List (Tree ι)) :
    encode (indentedItems level items) =
      items.flatMap fun t => ','.toUInt8 :: (lineStart level ++ encode (indented level t)) := by
  have hcomma : encode ",\n" = [','.toUInt8, '\n'.toUInt8] := by decide
  induction items with
  | nil => rfl
  | cons t rest ih =>
      rw [indentedItems, encode_append, encode_append, encode_append, ih, hcomma,
        List.flatMap_cons]
      rfl

theorem encode_indentedMember (level : Nat) (k : String) (t : Tree ι) :
    encode (Json.indent level ++ Json.quote k ++ ": " ++ indented level t) =
      encode (Json.indent level) ++
        Json.memberWord [' '.toUInt8] (fun t => encode (indented level t)) (k, t) := by
  have hcolon : encode ": " = [':'.toUInt8, ' '.toUInt8] := by decide
  rw [encode_append, encode_append, encode_append, hcolon, List.append_assoc, List.append_assoc]
  rfl

theorem encode_indentedEntries (level : Nat) (entries : List (String × Tree ι)) :
    encode (indentedEntries level entries) = entries.flatMap fun e => ','.toUInt8 ::
      (lineStart level ++
        Json.memberWord [' '.toUInt8] (fun t => encode (indented level t)) e) := by
  have hcomma : encode ",\n" = [','.toUInt8, '\n'.toUInt8] := by decide
  induction entries with
  | nil => rfl
  | cons e rest ih =>
      rw [indentedEntries, encode_append, encode_append, encode_indentedMember, ih, hcomma,
        List.flatMap_cons]
      rfl

theorem encode_indented_array (level : Nat) (mark : ι) (items : List (Tree ι)) :
    encode (indented level (.array mark items)) = '['.toUInt8 ::
      Json.inside (lineStart (level + 1)) (lineStart level) Json.Brackets.array.close
        (fun t => encode (indented (level + 1) t)) items := by
  have hopen : encode "[\n" = ['['.toUInt8, '\n'.toUInt8] := by decide
  cases items with
  | nil => rfl
  | cons t rest =>
      rw [indented, encode_append, encode_append, encode_append, encode_append, encode_append,
        encode_append, encode_indentedItems, hopen, Json.encode_newline, Json.encode_close_array]
      simp only [Json.inside, lineStart, List.append_assoc]
      rfl

theorem encode_indented_object (level : Nat) (mark : ι) (entries : List (String × Tree ι)) :
    encode (indented level (.object mark entries)) = '\x7b'.toUInt8 ::
      Json.inside (lineStart (level + 1)) (lineStart level) Json.Brackets.object.close
        (Json.memberWord [' '.toUInt8] fun t => encode (indented (level + 1) t)) entries := by
  have hopen : encode "\x7b\n" = ['\x7b'.toUInt8, '\n'.toUInt8] := by decide
  cases entries with
  | nil => rfl
  | cons e rest =>
      rw [indented, encode_append, encode_append, encode_append, encode_append, encode_append,
        encode_indentedMember, encode_indentedEntries, hopen, Json.encode_newline,
        Json.encode_close_object]
      simp only [Json.inside, lineStart, List.append_assoc]
      rfl

/-- The layout of `indented`. -/
def indentedLayout : Json.Layout ι where
  word level t := encode (t.indented level)
  gap := lineStart
  colon := [' '.toUInt8]
  blank_gap := blank_lineStart
  blank_colon := by
    intro b hb
    rw [List.mem_singleton.mp hb]
    decide
  scalar level t ht := by
    cases t <;> first | rfl | simp [depth] at ht
  array := encode_indented_array
  object := encode_indented_object

end Tree
end DynamicData
