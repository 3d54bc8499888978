import DynamicData.Proofs.Term.Exact

/-!
# Payloads that are cut short or run on

A term says itself where it ends. Bytes that come after it do not change how it is read,
and if bytes are missing at the end, the reader follows the whole payload up to the first
read that asks for more than is left, and fails there.

`Delimits p` says this of a reader `p`. A sequence has it from its parts: a cut falls
either into what the first part takes, or into what the second one takes after it. The
check that as many bytes are left as there are parts takes nothing and so has nothing to
be cut; before the parts it can only fail earlier than they would.
-/

namespace DynamicData.Term

open DynamicData.Parser

variable {α β : Type}

/-- The outcome is a failure for want of input. -/
def EndsEarly (outcome : Except TermError α) : Prop :=
  ∃ needed remaining, remaining < needed ∧ outcome = .error (.unexpectedEnd needed remaining)

/-- What the reader takes is read in the same way whatever comes after it, and ends early if
any of it is missing at the end. -/
def Delimits (p : Reader α) : Prop :=
  ∀ bytes a rest, p bytes = .ok (a, rest) → ∃ word, bytes = word ++ rest ∧
    (∀ after, p (word ++ after) = .ok (a, after)) ∧
    ∀ front missing, word = front ++ missing → missing ≠ [] → EndsEarly (p front)

/-! ## Sequences and repetitions -/

theorem EndsEarly.bind {p : Reader α} {bytes : Bytes} (h : EndsEarly (p bytes))
    (f : α → Reader β) : EndsEarly ((p >>= f) bytes) := by
  obtain ⟨needed, remaining, hlt, hp⟩ := h
  exact ⟨needed, remaining, hlt, by rw [bind_apply, hp]⟩

theorem delimits_pure (a : α) : Delimits (pure a : Reader α) := by
  rintro bytes b rest h
  cases h
  refine ⟨[], rfl, fun _ => rfl, fun front missing hcut hmissing => ?_⟩
  exact absurd (List.append_eq_nil_iff.mp hcut.symm).2 hmissing

theorem delimits_throw (e : TermError) : Delimits (throw e : Reader α) := by
  rintro bytes b rest h
  cases h

/-- A cut of two words falls into the first one or somewhere after it. -/
theorem cut_append {first second front missing : Bytes}
    (h : first ++ second = front ++ missing) :
    (∃ cut, cut ≠ [] ∧ first = front ++ cut) ∨
      ∃ after, front = first ++ after ∧ second = after ++ missing := by
  rcases List.append_eq_append_iff.mp h with ⟨after, hfront, hsecond⟩ | ⟨cut, hfirst, hmissing⟩
  · exact .inr ⟨after, hfront, hsecond⟩
  · by_cases hcut : cut = []
    · subst hcut
      exact .inr ⟨[], by simpa using hfirst.symm, by simpa using hmissing.symm⟩
    · exact .inl ⟨cut, hcut, hfirst⟩

theorem Delimits.bind {p : Reader α} {f : α → Reader β} (hp : Delimits p)
    (hf : ∀ a, Delimits (f a)) : Delimits (p >>= f) := by
  intro bytes b rest h
  obtain ⟨a, mid, ha, hb⟩ := bind_eq_ok.mp h
  obtain ⟨first, rfl, hfirst, hfirstCut⟩ := hp _ _ _ ha
  obtain ⟨second, rfl, hsecond, hsecondCut⟩ := hf a _ _ _ hb
  refine ⟨first ++ second, (List.append_assoc ..).symm, fun after => ?_, ?_⟩
  · rw [List.append_assoc, bind_of_ok (hfirst _)]
    exact hsecond after
  · intro front missing hcut hmissing
    rcases cut_append hcut with ⟨cut, hne, hword⟩ | ⟨after, rfl, hword⟩
    · exact (hfirstCut front cut hword hne).bind f
    · rw [bind_of_ok (hfirst after)]
      exact hsecondCut after missing hword hmissing

theorem Delimits.map {p : Reader α} (hp : Delimits p) (f : α → β) :
    Delimits (p >>= fun a => pure (f a)) :=
  hp.bind fun a => delimits_pure (f a)

theorem Delimits.repeatInto {p : Reader α} (hp : Delimits p) (count : Nat) (done : List α) :
    Delimits (repeatInto p count done) := by
  induction count generalizing done with
  | zero => exact delimits_pure _
  | succ count ih => exact hp.bind fun a => ih (a :: done)

theorem Delimits.times {p : Reader α} (hp : Delimits p) (count : Nat) :
    Delimits (p.times count) :=
  hp.repeatInto count []

theorem Delimits.pair {p : Reader α} {q : Reader β} (hp : Delimits p) (hq : Delimits q) :
    Delimits (p.pair q) :=
  hp.bind fun _ => hq.map _

/-! ## Bytes and checks -/

theorem readBytes_of_lt {count : Nat} {bytes : Bytes} (h : bytes.length < count) :
    readBytes count bytes = .error (.unexpectedEnd count bytes.length) := by
  simp [readBytes, List.take_of_length_le (Nat.le_of_lt h), Nat.ne_of_lt h]

theorem delimits_readBytes (count : Nat) : Delimits (readBytes count) := by
  intro bytes body rest h
  obtain ⟨word, rfl, rfl, hlen⟩ := (reads_readBytes count bytes body rest).mp h
  refine ⟨word, rfl, fun after => (reads_readBytes count).apply ⟨rfl, hlen⟩ after, ?_⟩
  rintro front missing rfl hmissing
  have hlt : front.length < count := by
    have := List.length_pos_iff.mpr hmissing
    simp at hlen
    omega
  exact ⟨count, front.length, hlt, readBytes_of_lt hlt⟩

theorem delimits_readByte : Delimits readByte := by
  intro bytes b rest h
  obtain ⟨word, rfl, rfl⟩ := (reads_readByte bytes b rest).mp h
  refine ⟨[b], rfl, fun after => reads_readByte.apply rfl after, ?_⟩
  intro front missing hcut hmissing
  obtain rfl : front = [] := by
    cases front with
    | nil => rfl
    | cons c front => simp [hmissing] at hcut
  exact ⟨1, 0, Nat.one_pos, rfl⟩

/-- A check that no whole word fails may stand before a reader: on a word that is cut short
one of the two ends early. -/
theorem Delimits.expecting {p : Reader α} {count : Nat} (hp : Delimits p)
    (hlong : ∀ word a, p word = .ok (a, []) → count ≤ word.length) :
    Delimits (expectBytes count >>= fun _ => p) := by
  intro bytes a rest h
  obtain ⟨_, mid, hexpect, hread⟩ := bind_eq_ok.mp h
  obtain rfl := expectBytes_eq_ok hexpect
  obtain ⟨word, rfl, hword, hcut⟩ := hp _ _ _ hread
  have hcount : count ≤ word.length := hlong word a (by simpa using hword [])
  refine ⟨word, rfl, fun after => ?_, fun front missing hfront hmissing => ?_⟩
  · rw [bind_of_ok (expectBytes_of_le (by simp; omega))]
    exact hword after
  · by_cases hle : count ≤ front.length
    · rw [bind_of_ok (expectBytes_of_le hle)]
      exact hcut front missing hfront hmissing
    · have hlt := Nat.not_le.mp hle
      have hends : EndsEarly (expectBytes count front) :=
        ⟨count, front.length, hlt, expectBytes_of_lt hlt⟩
      exact hends.bind _

theorem delimits_readWord (width : Nat) : Delimits (readWord width) :=
  (delimits_readBytes width).map _

theorem delimits_readField (width : Nat) : Delimits (readField width) :=
  (delimits_readWord width).bind delimits_readBytes

/-! ## Terms -/

theorem delimits_readAtom (decode? : Bytes → Option String) (width : Nat) :
    Delimits (readAtom decode? width) := by
  refine (delimits_readField width).bind fun body => ?_
  cases decode? body with
  | none => exact delimits_throw _
  | some name => exact delimits_pure _

theorem delimits_readBig (width : Nat) : Delimits (readBig width) := by
  refine (delimits_readWord width).bind fun count => delimits_readByte.bind fun sign =>
    (delimits_readBytes count).bind fun digits => ?_
  -- the digits have been taken, whatever becomes of them
  by_cases hmany : maxDigits < count
  · rw [if_pos hmany]
    exact delimits_throw _
  · rw [if_neg hmany]
    cases ofMagnitude? (sign != 0) (Bytes.ofLittleEndian digits) with
    | none => exact delimits_throw _
    | some i => exact delimits_pure _

theorem delimits_readLeaf (tag : Tag) : Delimits (readLeaf tag) := by
  cases tag with
  | smallInteger | integer | newFloat => exact (delimits_readWord _).map _
  | smallBig | largeBig => exact delimits_readBig _
  | atom | smallAtom => exact delimits_readAtom (some ∘ Text.ofCodePoints) _
  | atomUtf8 | smallAtomUtf8 => exact delimits_readAtom Text.decode? _
  | binary | string => exact (delimits_readField _).map _
  | nil | list | map => exact delimits_pure _

theorem delimits_readList {depth : Nat} {term : Reader Term}
    (hreads : Reads term (Represents depth)) (hterm : Delimits term) :
    Delimits (readList term) := by
  refine (delimits_readWord 4).bind fun count => Delimits.expecting
    ((hterm.times count).bind fun items => delimits_readByte.bind fun tail => ?_) ?_
  · by_cases hnil : tail = Tag.nil.code
    · rw [if_pos hnil]
      exact delimits_pure _
    · rw [if_neg hnil]
      exact delimits_throw _
  · intro word t h
    obtain ⟨items, mid, hitems, -⟩ := bind_eq_ok.mp h
    obtain ⟨body, rfl, rfl, hseq⟩ := (hreads.times count _ _ _).mp hitems
    have := hseq.mul_length_le fun _ _ h => h.length_pos
    simp
    omega

theorem delimits_readMap {depth : Nat} {term : Reader Term}
    (hreads : Reads term (Represents depth)) (hterm : Delimits term) :
    Delimits (readMap term) := by
  refine (delimits_readWord 4).bind fun count => Delimits.expecting
    (((hterm.pair hterm).times count).map Term.map) ?_
  intro word t h
  obtain ⟨pairs, mid, hpairs, -⟩ := bind_eq_ok.mp h
  obtain ⟨body, rfl, rfl, hseq⟩ := ((hreads.pair hreads).times count _ _ _).mp hpairs
  have := hseq.mul_length_le fun _ _ h => RepresentsPair.two_le_length h
  simp
  omega

theorem delimits_readWith {list map : Reader Term} (hlist : Delimits list)
    (hmap : Delimits map) : Delimits (readWith list map) := by
  refine delimits_readByte.bind fun code => ?_
  cases Tag.ofCode? code with
  | none => exact delimits_throw _
  | some tag =>
      cases tag with
      | list => exact hlist
      | map => exact hmap
      | _ => exact delimits_readLeaf _

theorem delimits_read (max left : Nat) : Delimits (read max left) := by
  induction left with
  | zero => exact delimits_readWith (delimits_throw _) (delimits_throw _)
  | succ left ih =>
      have hreads := reads_read max left
      exact delimits_readWith (delimits_readList hreads ih) (delimits_readMap hreads ih)

theorem delimits_readPayload (max : Nat) : Delimits (readPayload max) := by
  refine delimits_readByte.bind fun found => ?_
  by_cases hfound : found ≠ version
  · rw [if_pos hfound]
    exact delimits_throw _
  · rw [if_neg hfound]
    exact delimits_read max max

/-! ## Payloads -/

/-- Every proper front of a payload that is accepted lacks bytes, and whatever follows the
payload is left over. -/
theorem decode_self_delimiting {max : Nat} {payload : Bytes} {t : Term}
    (h : decode max payload = .ok t) :
    (∀ front, front <+: payload → front ≠ payload → EndsEarly (decode max front)) ∧
      ∀ after, after ≠ [] →
        decode max (payload ++ after) = .error (.trailingBytes after.length) := by
  obtain ⟨word, hword, hafter, hcut⟩ := delimits_readPayload max _ _ _ (decode_eq_ok_iff.mp h)
  rw [List.append_nil] at hword
  subst hword
  constructor
  · rintro front ⟨missing, rfl⟩ hne
    obtain ⟨needed, remaining, hlt, hread⟩ :=
      hcut front missing rfl fun hnil => hne (by rw [hnil, List.append_nil])
    refine ⟨needed, remaining, hlt, ?_⟩
    unfold decode
    rw [hread]
  · intro after hne
    obtain ⟨b, rest, rfl⟩ := List.exists_cons_of_ne_nil hne
    unfold decode
    rw [hafter]

/-- A map with a list in it, cut inside the count of the list and before its last byte, and
followed by two more bytes. -/
theorem decode_cut_nested_list :
    let front : Bytes := [131, 116, 0, 0, 0, 1, 119, 1, 97, 108, 0]
    let payload : Bytes := front ++ [0, 0, 1, 97, 7, 106]
    decode 2 payload = .ok (.map [(.atom "a", .list [.integer 7])]) ∧
      EndsEarly (decode 2 front) ∧ EndsEarly (decode 2 payload.dropLast) ∧
      decode 2 (payload ++ [106, 106]) = .error (.trailingBytes 2) := by
  intro front payload
  have h : decode 2 payload = .ok (.map [(.atom "a", .list [.integer 7])]) := by rfl
  obtain ⟨hfront, hafter⟩ := decode_self_delimiting h
  exact ⟨h, hfront front (List.prefix_append _ _) (by decide),
    hfront _ (List.dropLast_prefix _) (by decide), hafter _ (by decide)⟩

end DynamicData.Term
