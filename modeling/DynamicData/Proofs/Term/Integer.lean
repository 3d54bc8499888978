import DynamicData.Proofs.RoundTrip.Binary
import DynamicData.Proofs.Term.Exact

/-!
# Integers in payloads

An integer has many spellings: a byte, a word of four bytes, or a sign and the digits of a
magnitude, of which any number may be zeros at the high end. They are described here for
integers of any size. A reader that comes to such a word takes it for the integer, or fails if
there are too many digits or the integer has more than 128 bits. A document is made of what
is read only if every integer in it has 64 bits.
-/

namespace DynamicData

namespace Term

open DynamicData.Parser

/-! ## Spellings -/

/-- The word spells the integer `i`, with so many digits if it has a sign and a magnitude. -/
inductive SpellsInteger : (word : Bytes) → (digits : Nat) → (i : Int) → Prop
  | byte (b : UInt8) : SpellsInteger [Tag.smallInteger.code, b] 0 b.toNat
  | word {field : Bytes} (width : field.length = 4) :
      SpellsInteger (Tag.integer.code :: field) 0 (Bytes.toSigned 32 (Bytes.ofBigEndian field))
  | big {tag : Tag} {field : Bytes} {sign : UInt8} {digits : Bytes}
      (form : tag = .smallBig ∨ tag = .largeBig) (count : Counts tag field digits.length) :
      SpellsInteger (tag.code :: (field ++ sign :: digits)) digits.length
        (signedMagnitude sign digits)

variable {word : Bytes} {digits depth : Nat} {i : Int}

theorem SpellsInteger.represents (h : SpellsInteger word digits i) (hfew : digits ≤ 16)
    (hfits : -2 ^ 127 ≤ i ∧ i < 2 ^ 127) : Represents depth word (.integer i) := by
  cases h with
  | byte b => exact .leaf (.smallInteger b)
  | word width => exact .leaf (.integer width)
  | big form count => exact .leaf (.big form count hfew hfits)

/-- Behind the tag of a value without parts stands that value. -/
theorem leaf_of_represents {tag : Tag} (hlist : tag ≠ .list) (hmap : tag ≠ .map)
    {body w rest : Bytes} {t : Term} (hr : Represents depth w t)
    (heq : tag.code :: body = w ++ rest) :
    ∃ body', Leaf tag body' t ∧ body = body' ++ rest := by
  cases hr with
  | leaf form =>
      obtain ⟨hcode, hbody⟩ := List.cons.inj heq
      obtain rfl := code_injective hcode
      exact ⟨_, form, hbody⟩
  | list count parts => exact absurd (code_injective (List.cons.inj heq).1) hlist
  | map count parts => exact absurd (code_injective (List.cons.inj heq).1) hmap

/-- A term that begins with a spelling of an integer is the integer. -/
theorem SpellsInteger.of_represents (h : SpellsInteger word digits i) {w rest rest' : Bytes}
    {t : Term} (hr : Represents depth w t) (heq : word ++ rest = w ++ rest') :
    digits ≤ 16 ∧ t = .integer i := by
  cases h with
  | byte b =>
      have hbyte : Represents depth [Tag.smallInteger.code, b] (.integer b.toNat) :=
        .leaf (.smallInteger b)
      exact ⟨Nat.zero_le _, ((reads_read depth depth).append_inj hbyte hr heq).2.2.symm⟩
  | word width =>
      exact ⟨Nat.zero_le _,
        ((reads_read depth depth).append_inj (.leaf (.integer width)) hr heq).2.2.symm⟩
  | @big tag field sign digits form count =>
      have hcontainer : tag ≠ .list ∧ tag ≠ .map := by rcases form with rfl | rfl <;> decide
      rw [List.cons_append, List.append_assoc, List.cons_append] at heq
      obtain ⟨body, hleaf, hbody⟩ := leaf_of_represents hcontainer.1 hcontainer.2 hr heq
      cases hleaf with
      | @big _ field' sign' digits' form' count' few fits =>
          rw [List.append_assoc] at hbody
          -- the two counts are the same number, so the digits end at the same byte
          obtain ⟨-, htail, hlength⟩ := (reads_count tag).append_inj count count' hbody
          obtain ⟨rfl, hdigits⟩ := List.cons.inj htail
          obtain ⟨rfl, -⟩ := List.append_inj hdigits hlength
          exact ⟨few, rfl⟩
      | atom count spells => rcases form with rfl | rfl <;> cases spells
      | binary form' => rcases form with rfl | rfl <;> rcases form' with h | h <;> cases h
      | _ => rcases form with h | h <;> cases h

/-! ## Spellings inside a payload -/

/-- A reader of the bytes comes to the word where a term is due: as the first, or as an item,
a key or a value after others that are read. -/
inductive Meets (word : Bytes) : (depth : Nat) → Bytes → Prop
  | here {depth : Nat} (rest : Bytes) : Meets word depth (word ++ rest)
  | item {depth count : Nat} {field before rest : Bytes} {items : List Term}
      (announced : Counts .list field count) (parts : RepresentsItems depth before items)
      (more : items.length < count) (inside : Meets word depth rest) :
      Meets word (depth + 1) (Tag.list.code :: (field ++ (before ++ rest)))
  | key {depth count : Nat} {field before rest : Bytes} {pairs : List (Term × Term)}
      (announced : Counts .map field count) (parts : RepresentsPairs depth before pairs)
      (more : pairs.length < count) (inside : Meets word depth rest) :
      Meets word (depth + 1) (Tag.map.code :: (field ++ (before ++ rest)))
  | value {depth count : Nat} {field before kword rest : Bytes} {pairs : List (Term × Term)}
      {k : Term} (announced : Counts .map field count)
      (parts : RepresentsPairs depth before pairs) (more : pairs.length < count)
      (key : Represents depth kword k) (inside : Meets word depth rest) :
      Meets word (depth + 1) (Tag.map.code :: (field ++ (before ++ (kword ++ rest))))

/-- A list that announces more items than were passed has the next one here. -/
theorem exists_next_item {field before rest w tail : Bytes} {count : Nat} {items : List Term}
    {t : Term} (announced : Counts .list field count)
    (parts : RepresentsItems depth before items) (more : items.length < count)
    (hr : Represents (depth + 1) w t)
    (heq : Tag.list.code :: (field ++ (before ++ rest)) = w ++ tail) :
    ∃ terms, t = .list terms ∧ ∃ u ∈ terms, ∃ w' tail', Represents depth w' u ∧
      rest = w' ++ tail' := by
  cases hr with
  | leaf form =>
      exact absurd (code_injective (List.cons.inj heq).1).symm form.ne_container.1
  | map count' parts' => exact absurd (code_injective (List.cons.inj heq).1) (by decide)
  | @list _ field' body terms count' parts' =>
      rw [List.cons_append, List.append_assoc, List.append_assoc] at heq
      obtain ⟨-, hparts, hcount⟩ := (reads_count .list).append_inj announced count'
        (List.cons.inj heq).2
      exact ⟨terms, rfl, (reads_read depth depth).exists_next (representsItems_iff.mp parts)
        (representsItems_iff.mp parts') (hcount ▸ more) hparts⟩

theorem exists_next_pair {field before rest w tail : Bytes} {count : Nat}
    {pairs : List (Term × Term)} {t : Term} (announced : Counts .map field count)
    (parts : RepresentsPairs depth before pairs) (more : pairs.length < count)
    (hr : Represents (depth + 1) w t)
    (heq : Tag.map.code :: (field ++ (before ++ rest)) = w ++ tail) :
    ∃ terms, t = .map terms ∧ ∃ k v, (k, v) ∈ terms ∧ ∃ kword vword tail',
      Represents depth kword k ∧ Represents depth vword v ∧ rest = kword ++ (vword ++ tail') := by
  cases hr with
  | leaf form =>
      exact absurd (code_injective (List.cons.inj heq).1).symm form.ne_container.2
  | list count' parts' => exact absurd (code_injective (List.cons.inj heq).1) (by decide)
  | @map _ field' body terms count' parts' =>
      rw [List.cons_append, List.append_assoc] at heq
      obtain ⟨-, hparts, hcount⟩ := (reads_count .map).append_inj announced count'
        (List.cons.inj heq).2
      obtain ⟨⟨k, v⟩, hmem, _, tail', ⟨kword, vword, rfl, hk, hv⟩, hrest⟩ :=
        ((reads_read depth depth).pair (reads_read depth depth)).exists_next
          (representsPairs_iff.mp parts) (representsPairs_iff.mp parts') (hcount ▸ more) hparts
      exact ⟨terms, rfl, k, v, hmem, kword, vword, tail', hk, hv, by simpa using hrest⟩

/-! ## Documents -/

theorem integer?_eq_none_iff {ι : Type} {i : Int} :
    (Tree.integer? i : Option (Tree ι)) = none ↔ i < -2 ^ 63 ∨ 2 ^ 64 ≤ i := by
  unfold Tree.integer?
  split
  · simp only [reduceCtorEq, false_iff]
    omega
  · split
    · simp only [reduceCtorEq, false_iff]
      omega
    · simp only [true_iff]
      omega

theorem integer?_of_document {d : Document} (hd : (Term.integer i).document = .ok d) :
    Tree.integer? i = some d := by
  unfold document at hd
  split at hd
  · next e he =>
      cases hd
      exact he
  · cases hd

theorem exists_document_of_item {ts : List Term} {ds : List Document}
    (hds : documentItems ts = .ok ds) : ∀ t ∈ ts, ∃ d, t.document = .ok d := by
  induction ts generalizing ds with
  | nil => exact fun _ ht => absurd ht List.not_mem_nil
  | cons t rest ih =>
      unfold documentItems at hds
      obtain ⟨d, hd, hds⟩ := except_bind_eq_ok.mp hds
      obtain ⟨_, hrest, -⟩ := except_bind_eq_ok.mp hds
      exact List.forall_mem_cons.mpr ⟨⟨d, hd⟩, ih hrest⟩

/-- A key has a document as well, its text. -/
theorem exists_document_of_pair {ps : List (Term × Term)} {es : List (String × Document)}
    (hes : documentPairs ps = .ok es) :
    ∀ p ∈ ps, (∃ d, p.1.document = .ok d) ∧ ∃ d, p.2.document = .ok d := by
  induction ps generalizing es with
  | nil => exact fun _ hp => absurd hp List.not_mem_nil
  | cons p rest ih =>
      unfold documentPairs at hes
      obtain ⟨name, hname, hes⟩ := except_bind_eq_ok.mp hes
      obtain ⟨d, hd, hes⟩ := except_bind_eq_ok.mp hes
      obtain ⟨_, hrest, -⟩ := except_bind_eq_ok.mp hes
      exact List.forall_mem_cons.mpr
        ⟨⟨⟨_, (carriesText_of_key hname).document⟩, d, hd⟩, ih hrest⟩

/-- A document is made of what is read only if the integers met on the way have at most 16
digits and 64 bits. -/
theorem Meets.in_range (hspells : SpellsInteger word digits i) {bytes : Bytes}
    (h : Meets word depth bytes) {w tail : Bytes} {t : Term} (hr : Represents depth w t)
    (heq : bytes = w ++ tail) {d : Document} (hd : t.document = .ok d) :
    digits ≤ 16 ∧ ∃ e : Document, Tree.integer? i = some e := by
  induction h generalizing w tail t d with
  | here rest =>
      obtain ⟨hfew, rfl⟩ := hspells.of_represents hr heq
      exact ⟨hfew, d, integer?_of_document hd⟩
  | item announced parts more inside ih =>
      obtain ⟨terms, rfl, u, hu, w', tail', hw', hrest⟩ :=
        exists_next_item announced parts more hr heq
      unfold document at hd
      obtain ⟨ds, hds, -⟩ := except_bind_eq_ok.mp hd
      obtain ⟨e, he⟩ := exists_document_of_item hds u hu
      exact ih hw' hrest he
  | key announced parts more inside ih =>
      obtain ⟨terms, rfl, k, v, hmem, kword, vword, tail', hk, -, hrest⟩ :=
        exists_next_pair announced parts more hr heq
      unfold document at hd
      obtain ⟨es, hes, -⟩ := except_bind_eq_ok.mp hd
      obtain ⟨⟨e, he⟩, -⟩ := exists_document_of_pair hes (k, v) hmem
      exact ih hk hrest he
  | @value depth count field before kword rest pairs k announced parts more key inside ih =>
      obtain ⟨terms, rfl, k', v, hmem, kword', vword, tail', hk, hv, hrest⟩ :=
        exists_next_pair announced parts more hr heq
      unfold document at hd
      obtain ⟨es, hes, -⟩ := except_bind_eq_ok.mp hd
      obtain ⟨-, e, he⟩ := exists_document_of_pair hes (k', v) hmem
      obtain ⟨-, hrest, -⟩ := (reads_read depth depth).append_inj key hk hrest
      exact ih hv hrest he

end Term

namespace Document

open Term

variable {word body payload : Bytes} {digits : Nat} {i : Int} {limits : Limits} {d : Document}

/-- Every spelling of an integer of 64 bits is read as the one form of it. -/
theorem ofBinary_integer (hspells : SpellsInteger word digits i) (hfew : digits ≤ 16)
    (hd : Tree.integer? i = some d) (hbytes : word.length < limits.maxPayloadBytes) :
    ofBinary limits (131 :: word) = .ok d := by
  have hfits : ¬ (i < -2 ^ 63 ∨ 2 ^ 64 ≤ i) := by
    rw [← integer?_eq_none_iff (ι := Unit), hd]
    exact nofun
  refine ofBinary_of_decode (decode_of_represents (hspells.represents hfew (by omega))) ?_ hbytes
  rw [Term.document, hd]

/-- Where a reader comes to an integer with too many digits or bits, the payload is refused. -/
theorem ofBinary_out_of_range (hspells : SpellsInteger word digits i)
    (hmeets : Meets word limits.maxNestingDepth body)
    (hout : 16 < digits ∨ i < -2 ^ 63 ∨ 2 ^ 64 ≤ i)
    (hbytes : body.length < limits.maxPayloadBytes) :
    ∃ message, ofBinary limits (131 :: body) = .error (.binary message) := by
  have hlength : (131 :: body).length ≤ limits.maxPayloadBytes := hbytes
  refine (ofBinary_ok_or_binary hlength).resolve_left ?_
  rintro ⟨d, hd⟩
  obtain ⟨t, hdecode, hdocument⟩ := ok_of_ofBinary hd
  obtain ⟨_, hbody, hr⟩ := represents_of_decode hdecode
  cases hbody
  obtain ⟨hfew, e, he⟩ := hmeets.in_range hspells hr (List.append_nil _).symm hdocument
  rcases hout with hmany | hwide
  · omega
  · rw [integer?_eq_none_iff.mpr hwide] at he
    cases he

/-- What is read of a payload is carried by the term in it, so no integer is altered. -/
theorem exists_carries_of_ofBinary (hd : ofBinary limits payload = .ok d) :
    ∃ body t d', payload = 131 :: body ∧ Represents limits.maxNestingDepth body t ∧
      Carries t d' ∧ d = d'.merged := by
  obtain ⟨t, hdecode, hdocument⟩ := ok_of_ofBinary hd
  obtain ⟨body, hbody, hr⟩ := represents_of_decode hdecode
  obtain ⟨d', hcarries, hmerged⟩ := exists_carries t hdocument
  exact ⟨body, t, d', hbody, hr, hcarries, hmerged⟩

end Document
end DynamicData
