import DynamicData.Proofs.Term.Grammar

/-!
# The reader is exact

Every reader of terms takes from the front of the input exactly the words of its part
of the grammar. The statement about whole payloads follows by induction on how deep
containers may still nest.
-/

namespace DynamicData.Term

open DynamicData.Parser

/-! ## Bytes, lengths and integers -/

theorem reads_readBytes (count : Nat) :
    Reads (readBytes count) fun word body => word = body ∧ body.length = count := by
  intro bytes body rest
  constructor
  · intro h
    unfold readBytes at h
    dsimp only at h
    split at h
    · rename_i hlen
      cases h
      exact ⟨bytes.take count, (List.take_append_drop count bytes).symm, rfl, hlen⟩
    · cases h
  · rintro ⟨word, rfl, rfl, rfl⟩
    unfold readBytes
    simp

theorem reads_readByte : Reads readByte fun word b => word = [b] := by
  intro bytes b rest
  cases bytes with
  | nil =>
      constructor
      · intro h
        cases h
      · rintro ⟨word, hword, rfl⟩
        cases hword
  | cons c bytes =>
      constructor
      · intro h
        cases h
        exact ⟨[b], rfl, rfl⟩
      · rintro ⟨word, hword, rfl⟩
        cases hword
        rfl

theorem reads_readWord (width : Nat) :
    Reads (readWord width) fun word n => word.length = width ∧ Bytes.ofBigEndian word = n := by
  apply ((reads_readBytes width).map Bytes.ofBigEndian).congr
  intro word n
  constructor
  · rintro ⟨body, ⟨rfl, hlen⟩, rfl⟩
    exact ⟨hlen, rfl⟩
  · rintro ⟨hlen, rfl⟩
    exact ⟨word, ⟨rfl, hlen⟩, rfl⟩

/-- The length field of a tag. -/
theorem reads_count (tag : Tag) :
    Reads (readWord (countWidth tag)) fun word n => Counts tag word n :=
  reads_readWord (countWidth tag)

theorem reads_readField (tag : Tag) :
    Reads (readField (countWidth tag)) fun word body =>
      ∃ field, word = field ++ body ∧ Counts tag field body.length := by
  apply ((reads_count tag).bind reads_readBytes).congr
  intro word body
  constructor
  · rintro ⟨field, _, n, rfl, hcount, rfl, rfl⟩
    exact ⟨field, rfl, hcount⟩
  · rintro ⟨field, rfl, hcount⟩
    exact ⟨field, body, body.length, rfl, hcount, rfl, rfl⟩

/-- The last step of a reader whose value may be missing. -/
theorem reads_option {α : Type} {p : Reader Term} (o : Option α) (f : α → Term)
    (hnone : o = none → ∃ e, p = throw e) (hsome : ∀ a, o = some a → p = pure (f a)) :
    Reads p fun word t => word = [] ∧ ∃ a, o = some a ∧ t = f a := by
  cases o with
  | none =>
      obtain ⟨e, he⟩ := hnone rfl
      rw [he]
      apply (reads_throw e).congr
      intro word t
      simp
  | some a =>
      rw [hsome a rfl]
      apply (reads_pure (f a)).congr
      intro word t
      simp

/-! ## Atoms -/

theorem decode?_eq_some_iff {body : Bytes} {name : String} :
    Text.decode? body = some name ↔ body = Text.encode name := by
  constructor
  · intro h
    exact (Text.encode_of_decode? h).symm
  · rintro rfl
    exact Text.decode?_encode name

theorem spells_codePoints {tag : Tag} (htag : tag = .atom ∨ tag = .smallAtom)
    (body : Bytes) (name : String) :
    (some ∘ Text.ofCodePoints) body = some name ↔ Spells tag body name := by
  rw [Function.comp_apply, Option.some.injEq]
  constructor
  · rintro rfl
    rcases htag with rfl | rfl
    · exact .atom body
    · exact .smallAtom body
  · intro h
    rcases htag with rfl | rfl <;>
      · cases h
        rfl

theorem spells_utf8 {tag : Tag} (htag : tag = .atomUtf8 ∨ tag = .smallAtomUtf8)
    (body : Bytes) (name : String) :
    Text.decode? body = some name ↔ Spells tag body name := by
  rw [decode?_eq_some_iff]
  constructor
  · rintro rfl
    rcases htag with rfl | rfl
    · exact .atomUtf8 name
    · exact .smallAtomUtf8 name
  · intro h
    rcases htag with rfl | rfl <;>
      · cases h
        rfl

/-- An atom is read off the bytes of its name, whichever way its tag spells it. -/
theorem reads_readAtom {tag : Tag} {decode? : Bytes → Option String}
    (hatom : tag.isAtom = true)
    (hspells : ∀ body name, decode? body = some name ↔ Spells tag body name) :
    Reads (readAtom decode? (countWidth tag)) (Leaf tag) := by
  refine ((reads_readField tag).bind fun body =>
    reads_option (decode? body) ofAtom (fun h => ⟨.invalidUtf8, by rw [h]⟩)
      (fun name h => by rw [h])).congr fun word t => ?_
  constructor
  · rintro ⟨_, _, body, rfl, ⟨field, rfl, hcount⟩, rfl, name, hname, rfl⟩
    rw [List.append_nil]
    exact .atom hcount ((hspells _ _).mp hname)
  · intro h
    cases h with
    | @atom _ field body name count spells =>
        exact ⟨field ++ body, [], body, (List.append_nil _).symm, ⟨field, rfl, count⟩, rfl, name,
          (hspells _ _).mpr spells, rfl⟩
    | big form => rcases form with rfl | rfl <;> cases hatom
    | binary form => rcases form with rfl | rfl <;> cases hatom
    | _ => cases hatom

/-! ## Integers with a sign and a magnitude -/

theorem ofMagnitude?_eq_some {sign : UInt8} {digits : Bytes} {i : Int} :
    ofMagnitude? (sign != 0) (Bytes.ofLittleEndian digits) = some i ↔
      i = signedMagnitude sign digits ∧ -2 ^ 127 ≤ signedMagnitude sign digits ∧
        signedMagnitude sign digits < 2 ^ 127 := by
  unfold ofMagnitude? signedMagnitude
  generalize Bytes.ofLittleEndian digits = m
  by_cases hsign : sign = 0
  · rw [if_neg (by simp [hsign]), if_pos hsign]
    split
    · rw [Option.some.injEq]
      omega
    · constructor
      · intro h
        cases h
      · omega
  · rw [if_pos (by simp [hsign]), if_neg hsign]
    split
    · rw [Option.some.injEq]
      omega
    · constructor
      · intro h
        cases h
      · omega

/-- The integer that a count, a sign and digits make, if they make one. -/
def big? (count : Nat) (sign : UInt8) (digits : Bytes) : Option Int :=
  if maxDigits < count then none
  else ofMagnitude? (sign != 0) (Bytes.ofLittleEndian digits)

theorem big?_eq_some {count : Nat} {sign : UInt8} {digits : Bytes} {i : Int} :
    big? count sign digits = some i ↔
      count ≤ 16 ∧ i = signedMagnitude sign digits ∧
        -2 ^ 127 ≤ signedMagnitude sign digits ∧ signedMagnitude sign digits < 2 ^ 127 := by
  unfold big?
  by_cases hmany : maxDigits < count
  · rw [if_pos hmany]
    constructor
    · intro h
      cases h
    · rintro ⟨hfew, _⟩
      exact absurd hfew (Nat.not_le.mpr hmany)
  · rw [if_neg hmany, ofMagnitude?_eq_some]
    exact (and_iff_right (Nat.not_lt.mp hmany)).symm

theorem reads_readBig {tag : Tag} (hbig : tag = .smallBig ∨ tag = .largeBig) :
    Reads (readBig (countWidth tag)) (Leaf tag) := by
  refine ((reads_count tag).bind fun count => reads_readByte.bind fun sign =>
    (reads_readBytes count).bind fun digits =>
      reads_option (big? count sign digits) Term.integer ?_ ?_).congr fun word t => ?_
  · -- A count that is too large fails before the digits are looked at.
    intro h
    unfold big? at h
    split at h
    · rename_i hmany
      exact ⟨.integerOutOfRange count, if_pos hmany⟩
    · rename_i hfew
      exact ⟨.integerOutOfRange count, by rw [if_neg hfew, h]⟩
  · intro i h
    unfold big? at h
    split at h
    · cases h
    · rename_i hfew
      rw [if_neg hfew, h]
  constructor
  · rintro ⟨field, _, count, rfl, hcount, _, _, sign, rfl, rfl, _, _, digits, rfl, ⟨rfl, rfl⟩,
      rfl, i, hi, rfl⟩
    obtain ⟨hfew, rfl, hfits⟩ := big?_eq_some.mp hi
    rw [List.append_nil]
    exact .big hbig hcount hfew hfits
  · intro h
    cases h with
    | @big _ field sign digits form count few fits =>
        exact ⟨field, sign :: digits, digits.length, rfl, count, [sign], digits, sign, rfl, rfl,
          digits, [], digits, (List.append_nil _).symm, ⟨rfl, rfl⟩, rfl, _,
          big?_eq_some.mpr ⟨few, rfl, fits⟩, rfl⟩
    | atom count spells => rcases hbig with rfl | rfl <;> cases spells
    | binary form => rcases hbig with rfl | rfl <;> rcases form with h | h <;> cases h
    | _ => rcases hbig with h | h <;> cases h

/-! ## Terms without parts -/

theorem reads_readBinary {tag : Tag} (hbinary : tag = .binary ∨ tag = .string) :
    Reads (readField (countWidth tag) >>= fun body => (pure (.binary body) : Reader Term))
      (Leaf tag) := by
  apply ((reads_readField tag).map Term.binary).congr
  intro word t
  constructor
  · rintro ⟨body, ⟨field, rfl, hcount⟩, rfl⟩
    exact .binary hbinary hcount
  · intro h
    cases h with
    | @binary _ field body form count => exact ⟨body, ⟨field, rfl, count⟩, rfl⟩
    | atom count spells => rcases hbinary with rfl | rfl <;> cases spells
    | big form => rcases hbinary with rfl | rfl <;> rcases form with h | h <;> cases h
    | _ => rcases hbinary with h | h <;> cases h

/-- A value of a fixed number of bytes. -/
theorem reads_word {tag : Tag} {width : Nat} {f : Nat → Term}
    (hleaf : ∀ word t, Leaf tag word t ↔
      word.length = width ∧ f (Bytes.ofBigEndian word) = t) :
    Reads (readWord width >>= fun n => (pure (f n) : Reader Term)) (Leaf tag) := by
  apply ((reads_readWord width).map f).congr
  intro word t
  rw [hleaf]
  constructor
  · rintro ⟨_, ⟨hlen, rfl⟩, rfl⟩
    exact ⟨hlen, rfl⟩
  · rintro ⟨hlen, rfl⟩
    exact ⟨_, ⟨hlen, rfl⟩, rfl⟩

/-- A byte is its own big-endian value. -/
theorem leaf_smallInteger_iff {word : Bytes} {t : Term} :
    Leaf .smallInteger word t ↔ word.length = 1 ∧ .integer (Bytes.ofBigEndian word) = t := by
  have hbyte (b : UInt8) : Bytes.ofBigEndian [b] = b.toNat := by
    simp [Bytes.ofBigEndian]
  constructor
  · intro h
    cases h with
    | smallInteger b => exact ⟨rfl, by rw [hbyte]⟩
    | big form => rcases form with h | h <;> cases h
    | atom count spells => cases spells
    | binary form => rcases form with h | h <;> cases h
  · rintro ⟨hlen, rfl⟩
    obtain ⟨b, rfl⟩ := List.length_eq_one_iff.mp hlen
    rw [hbyte]
    exact .smallInteger b

theorem leaf_integer_iff {word : Bytes} {t : Term} :
    Leaf .integer word t ↔
      word.length = 4 ∧ .integer (Bytes.toSigned 32 (Bytes.ofBigEndian word)) = t := by
  constructor
  · intro h
    cases h with
    | integer width => exact ⟨width, rfl⟩
    | big form => rcases form with h | h <;> cases h
    | atom count spells => cases spells
    | binary form => rcases form with h | h <;> cases h
  · rintro ⟨hlen, rfl⟩
    exact .integer hlen

theorem leaf_newFloat_iff {word : Bytes} {t : Term} :
    Leaf .newFloat word t ↔
      word.length = 8 ∧ .float ⟨UInt64.ofNat (Bytes.ofBigEndian word)⟩ = t := by
  constructor
  · intro h
    cases h with
    | newFloat width => exact ⟨width, rfl⟩
    | big form => rcases form with h | h <;> cases h
    | atom count spells => cases spells
    | binary form => rcases form with h | h <;> cases h
  · rintro ⟨hlen, rfl⟩
    exact .newFloat hlen

theorem leaf_nil_iff {word : Bytes} {t : Term} : Leaf .nil word t ↔ word = [] ∧ t = .list [] := by
  constructor
  · intro h
    cases h with
    | nil => exact ⟨rfl, rfl⟩
    | big form => rcases form with h | h <;> cases h
    | atom count spells => cases spells
    | binary form => rcases form with h | h <;> cases h
  · rintro ⟨rfl, rfl⟩
    exact .nil

theorem reads_readLeaf (tag : Tag) (hlist : tag ≠ .list) (hmap : tag ≠ .map) :
    Reads (readLeaf tag) (Leaf tag) := by
  cases tag with
  | smallInteger =>
      exact reads_word (f := fun n => .integer n) fun word t => leaf_smallInteger_iff
  | integer =>
      exact reads_word (f := fun n => .integer (Bytes.toSigned 32 n)) fun word t =>
        leaf_integer_iff
  | newFloat =>
      exact reads_word (f := fun n => .float ⟨UInt64.ofNat n⟩) fun word t => leaf_newFloat_iff
  | smallBig =>
      show Reads (readBig (countWidth .smallBig)) _
      exact reads_readBig (.inl rfl)
  | largeBig =>
      show Reads (readBig (countWidth .largeBig)) _
      exact reads_readBig (.inr rfl)
  | atom =>
      show Reads (readAtom (some ∘ Text.ofCodePoints) (countWidth .atom)) _
      exact reads_readAtom rfl (spells_codePoints (.inl rfl))
  | smallAtom =>
      show Reads (readAtom (some ∘ Text.ofCodePoints) (countWidth .smallAtom)) _
      exact reads_readAtom rfl (spells_codePoints (.inr rfl))
  | atomUtf8 =>
      show Reads (readAtom Text.decode? (countWidth .atomUtf8)) _
      exact reads_readAtom rfl (spells_utf8 (.inl rfl))
  | smallAtomUtf8 =>
      show Reads (readAtom Text.decode? (countWidth .smallAtomUtf8)) _
      exact reads_readAtom rfl (spells_utf8 (.inr rfl))
  | binary =>
      show Reads (readField (countWidth .binary) >>= fun body => pure (Term.binary body)) _
      exact reads_readBinary (.inl rfl)
  | string =>
      show Reads (readField (countWidth .string) >>= fun body => pure (Term.binary body)) _
      exact reads_readBinary (.inr rfl)
  | nil => exact (reads_pure _).congr fun word t => leaf_nil_iff.symm
  | list => exact absurd rfl hlist
  | map => exact absurd rfl hmap

/-! ## Containers -/

theorem expectBytes_of_le {count : Nat} {bytes : Bytes} (h : count ≤ bytes.length) :
    expectBytes count bytes = .ok ((), bytes) := by
  simp [expectBytes, h]

theorem expectBytes_of_lt {count : Nat} {bytes : Bytes} (h : bytes.length < count) :
    expectBytes count bytes = .error (.unexpectedEnd count bytes.length) := by
  simp [expectBytes, List.take_of_length_le (Nat.le_of_lt h), Nat.ne_of_lt h]

theorem expectBytes_eq_ok {count : Nat} {bytes rest : Bytes} {u : Unit}
    (h : expectBytes count bytes = .ok (u, rest)) : bytes = rest := by
  by_cases hle : count ≤ bytes.length
  · rw [expectBytes_of_le hle] at h
    cases h
    rfl
  · rw [expectBytes_of_lt (Nat.not_le.mp hle)] at h
    cases h

/-- A check that enough input is left may stand before a reader that takes at least as
much. -/
theorem reads_expecting {α : Type} {p : Reader α} {G : Bytes → α → Prop} {count : Nat}
    (hp : Reads p G) (hlong : ∀ word a, G word a → count ≤ word.length) :
    Reads (expectBytes count >>= fun _ => p) G := by
  intro bytes a rest
  rw [bind_eq_ok]
  constructor
  · rintro ⟨_, mid, hexpect, hread⟩
    obtain rfl := expectBytes_eq_ok hexpect
    exact (hp _ _ _).mp hread
  · rintro ⟨word, rfl, hword⟩
    have := hlong word a hword
    refine ⟨(), word ++ rest, expectBytes_of_le ?_, hp.apply hword rest⟩
    rw [List.length_append]
    omega

/-- A list counts its items, which end with the tag of an empty list. -/
theorem reads_readList {depth : Nat} {term : Reader Term}
    (hterm : Reads term (Represents depth)) :
    Reads (readList term) fun word t => ∃ field body items,
      word = field ++ (body ++ [Tag.nil.code]) ∧ Counts .list field items.length ∧
        RepresentsItems depth body items ∧ t = .list items := by
  -- the last byte decides between the list and an error
  have htail : ∀ (items : List Term) (tail : UInt8),
      Reads (if tail = Tag.nil.code then pure (.list items) else throw .improperList :
        Reader Term) fun word t => word = [] ∧ tail = Tag.nil.code ∧ t = .list items := by
    intro items tail
    by_cases hnil : tail = Tag.nil.code
    · rw [if_pos hnil]
      apply (reads_pure _).congr
      intro word t
      exact and_congr_right fun _ => (and_iff_right hnil).symm
    · rw [if_neg hnil]
      apply (reads_throw _).congr
      intro word t
      simp [hnil]
  refine ((reads_count .list).bind fun count => reads_expecting
    ((hterm.times count).bind fun items => reads_readByte.bind (htail items))
      ?_).congr fun word t => ?_
  · -- every item takes a byte at least, so the check lets all lists pass
    rintro _ _ ⟨body, _, items, rfl, ⟨rfl, hseq⟩, _⟩
    have := hseq.mul_length_le fun _ _ h => h.length_pos
    rw [List.length_append]
    omega
  constructor
  · rintro ⟨field, _, count, rfl, hcount, body, _, items, rfl, ⟨rfl, hseq⟩, _, _, tail, rfl,
      rfl, rfl, rfl, rfl⟩
    exact ⟨field, body, items, rfl, hcount, representsItems_iff.mpr hseq, rfl⟩
  · rintro ⟨field, body, items, rfl, hcount, hparts, rfl⟩
    exact ⟨field, _, items.length, rfl, hcount, body, [Tag.nil.code], items, rfl,
      ⟨rfl, representsItems_iff.mp hparts⟩, [Tag.nil.code], [], Tag.nil.code, rfl, rfl, rfl,
      rfl, rfl⟩

theorem reads_readMap {depth : Nat} {term : Reader Term}
    (hterm : Reads term (Represents depth)) :
    Reads (readMap term) fun word t => ∃ field body pairs,
      word = field ++ body ∧ Counts .map field pairs.length ∧
        RepresentsPairs depth body pairs ∧ t = .map pairs := by
  refine ((reads_count .map).bind fun count => reads_expecting
    (((hterm.pair hterm).times count).map Term.map) ?_).congr fun word t => ?_
  · -- a key and a value take two bytes at least
    rintro body _ ⟨pairs, ⟨rfl, hseq⟩, _⟩
    exact hseq.mul_length_le fun _ _ h => RepresentsPair.two_le_length h
  constructor
  · rintro ⟨field, body, count, rfl, hcount, pairs, ⟨rfl, hseq⟩, rfl⟩
    exact ⟨field, body, pairs, rfl, hcount, representsPairs_iff.mpr hseq, rfl⟩
  · rintro ⟨field, body, pairs, rfl, hcount, hparts, rfl⟩
    exact ⟨field, body, pairs.length, rfl, hcount, pairs,
      ⟨rfl, representsPairs_iff.mp hparts⟩, rfl⟩

/-! ## Terms -/

theorem code_injective {tag tag' : Tag} (h : tag.code = tag'.code) : tag = tag' := by
  have hcode := Tag.ofCode?_code tag
  rw [h, Tag.ofCode?_code tag'] at hcode
  exact (Option.some.inj hcode).symm

/-- No value without parts is written with the tag of a container. -/
theorem Leaf.ne_container {tag : Tag} {word : Bytes} {t : Term} (h : Leaf tag word t) :
    tag ≠ .list ∧ tag ≠ .map := by
  cases h with
  | big form => rcases form with rfl | rfl <;> decide
  | atom count spells => cases spells <;> decide
  | binary form => rcases form with rfl | rfl <;> decide
  | _ => decide

/-- What follows a tag, where the containers have grammars of their own. -/
def After (L M : Bytes → Term → Prop) : Tag → Bytes → Term → Prop
  | .list => L
  | .map => M
  | tag => Leaf tag

theorem after_iff {L M : Bytes → Term → Prop} {tag : Tag} {body : Bytes} {t : Term} :
    After L M tag body t ↔
      Leaf tag body t ∨ (tag = .list ∧ L body t) ∨ (tag = .map ∧ M body t) := by
  constructor
  · intro h
    cases tag with
    | list => exact .inr (.inl ⟨rfl, h⟩)
    | map => exact .inr (.inr ⟨rfl, h⟩)
    | _ => exact .inl h
  · rintro (h | ⟨rfl, h⟩ | ⟨rfl, h⟩)
    · cases tag with
      | list => exact absurd rfl h.ne_container.1
      | map => exact absurd rfl h.ne_container.2
      | _ => exact h
    · exact h
    · exact h

/-- A term is its tag and what follows it. -/
theorem reads_readWith {list map : Reader Term} {L M : Bytes → Term → Prop}
    (hlist : Reads list L) (hmap : Reads map M) :
    Reads (readWith list map) fun word t =>
      ∃ tag body, word = Tag.code tag :: body ∧ After L M tag body t := by
  unfold readWith
  refine (reads_readByte.bind (H := fun code word t =>
    ∃ tag, Tag.code tag = code ∧ After L M tag word t) fun code => ?_).congr ?_
  · cases hcode : Tag.ofCode? code with
    | none =>
        apply (reads_throw _).congr
        intro word t
        constructor
        · exact False.elim
        · rintro ⟨tag, rfl, _⟩
          rw [Tag.ofCode?_code] at hcode
          cases hcode
    | some tag =>
        obtain rfl := Tag.code_of_ofCode? hcode
        refine Reads.congr (G := After L M tag) ?_ ?_
        · cases tag with
          | list => exact hlist
          | map => exact hmap
          | _ => exact reads_readLeaf _ (by decide) (by decide)
        · intro word t
          constructor
          · exact fun h => ⟨tag, rfl, h⟩
          · rintro ⟨tag', htag, h⟩
            rwa [← code_injective htag]
  · intro word t
    constructor
    · rintro ⟨_, body, code, rfl, rfl, tag, rfl, h⟩
      exact ⟨tag, body, rfl, h⟩
    · rintro ⟨tag, body, rfl, h⟩
      exact ⟨[tag.code], body, tag.code, rfl, rfl, tag, rfl, h⟩

theorem reads_read (max left : Nat) : Reads (read max left) (Represents left) := by
  induction left with
  | zero =>
      apply (reads_readWith (reads_throw _) (reads_throw _)).congr
      intro word t
      constructor
      · rintro ⟨tag, body, rfl, h⟩
        rcases after_iff.mp h with hleaf | ⟨_, hf⟩ | ⟨_, hf⟩
        · exact .leaf hleaf
        · exact hf.elim
        · exact hf.elim
      · intro h
        cases h with
        | leaf form => exact ⟨_, _, rfl, after_iff.mpr (.inl form)⟩
  | succ left ih =>
      apply (reads_readWith (reads_readList ih) (reads_readMap ih)).congr
      intro word t
      constructor
      · rintro ⟨tag, body, rfl, h⟩
        rcases after_iff.mp h with hleaf | ⟨rfl, field, body, items, rfl, hcount, hparts, rfl⟩ |
          ⟨rfl, field, body, pairs, rfl, hcount, hparts, rfl⟩
        · exact .leaf hleaf
        · exact .list hcount hparts
        · exact .map hcount hparts
      · intro h
        cases h with
        | leaf form => exact ⟨_, _, rfl, after_iff.mpr (.inl form)⟩
        | list count parts => exact ⟨.list, _, rfl, _, _, _, rfl, count, parts, rfl⟩
        | map count parts => exact ⟨.map, _, rfl, _, _, _, rfl, count, parts, rfl⟩

/-! ## Payloads -/

theorem reads_readPayload (max : Nat) :
    Reads (readPayload max) fun word t =>
      ∃ body, word = version :: body ∧ Represents max body t := by
  have hread : ∀ found, Reads (if found ≠ version then
      (throw (.versionMismatch version found) : Reader PUnit) >>= fun _ => read max max
      else read max max) fun word t => found = version ∧ Represents max word t := by
    intro found
    by_cases hfound : found = version
    · rw [if_neg (not_not_intro hfound)]
      apply (reads_read max max).congr
      intro word t
      exact (and_iff_right hfound).symm
    · rw [if_pos hfound]
      apply (reads_throw (TermError.versionMismatch version found)).congr
      intro word t
      simp [hfound]
  apply (reads_readByte.bind hread).congr
  intro word t
  constructor
  · rintro ⟨_, body, found, rfl, rfl, rfl, h⟩
    exact ⟨body, rfl, h⟩
  · rintro ⟨body, rfl, h⟩
    exact ⟨[version], body, version, rfl, rfl, rfl, h⟩

/-- Decoding succeeds where reading leaves nothing over. -/
theorem decode_eq_ok_iff {max : Nat} {payload : Bytes} {t : Term} :
    decode max payload = .ok t ↔ readPayload max payload = .ok (t, []) := by
  unfold decode
  split
  · rename_i e he
    rw [he]
    constructor <;>
      · intro h
        cases h
  · rename_i found hread
    rw [hread]
    constructor
    · intro h
      cases h
      rfl
    · intro h
      cases h
      rfl
  · rename_i found rest hrest hread
    rw [hread]
    constructor
    · intro h
      cases h
    · intro h
      cases h
      exact (hrest rfl).elim

theorem decode_of_represents {max : Nat} {body : Bytes} {t : Term}
    (h : Represents max body t) : decode max (version :: body) = .ok t := by
  have hread := (reads_readPayload max).apply ⟨body, rfl, h⟩ []
  rw [List.append_nil] at hread
  exact decode_eq_ok_iff.mpr hread

theorem represents_of_decode {max : Nat} {payload : Bytes} {t : Term}
    (h : decode max payload = .ok t) :
    ∃ body, payload = version :: body ∧ Represents max body t := by
  obtain ⟨word, rfl, body, rfl, hbody⟩ :=
    (reads_readPayload max payload t []).mp (decode_eq_ok_iff.mp h)
  exact ⟨body, List.append_nil _, hbody⟩

end DynamicData.Term
