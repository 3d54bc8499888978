import DynamicData.Payload
import DynamicData.Proofs.Parser

/-!
# Sources

What is read of a source depends on its bytes and not on the chunks in which they arrive. It
is read up to a cap, and its failure is met only if the cap is past all of its bytes. As the
cap is one byte past the limit, a payload that is too long is known for what it is and is
never cut down to one that is accepted: a source gives what its bytes give, or is refused for
their number, or fails.
-/

namespace DynamicData

namespace Source

/-- The bytes that a source delivers before it ends or fails. -/
def bytes (s : Source) : Bytes :=
  s.chunks.flatten

/-- The byte past the limit, or the last byte of the source, has a number of machine size. All
that is left out are sources of `2 ^ 64 - 1` bytes or more where there is no limit, and no
machine of this size holds so many. -/
def Countable (limits : Limits) (s : Source) : Prop :=
  limits.maxPayloadBytes < Limits.sizeMax ∨ s.bytes.length < Limits.sizeMax

instance (limits : Limits) (s : Source) : Decidable (s.Countable limits) :=
  inferInstanceAs (Decidable (_ ∨ _))

/-- A source is read to the cap, or else to its end. The induction is over the chunks, each of
which uses up as much of the cap as it is long. -/
theorem read_eq (cap : Nat) (chunks : List Bytes) (failure : Option String) :
    read cap chunks failure =
      if cap ≤ chunks.flatten.length then .ok (chunks.flatten.take cap)
      else match failure with
        | none => .ok chunks.flatten
        | some message => .error (.io message) := by
  induction chunks generalizing cap with
  | nil =>
      cases failure with
      | none => simp [read]
      | some message => simp [read]
  | cons chunk rest ih =>
      rw [read, List.flatten_cons, List.length_append]
      by_cases hfull : cap ≤ chunk.length
      · rw [if_pos hfull, if_pos (Nat.le_add_right_of_le hfull),
          List.take_append_of_le_length hfull]
      · have hrest : cap - chunk.length ≤ rest.flatten.length ↔
            cap ≤ chunk.length + rest.flatten.length := Nat.sub_le_iff_le_add'
        rw [if_neg hfull, ih]
        by_cases hcap : cap ≤ chunk.length + rest.flatten.length
        · rw [if_pos hcap, if_pos (hrest.mpr hcap), List.take_append,
            List.take_of_length_le (Nat.le_of_not_le hfull)]
          rfl
        · rw [if_neg hcap, if_neg (mt hrest.mp hcap)]
          cases failure <;> rfl

variable {limits : Limits} {s : Source}

/-- The cap is past the limit wherever it matters. -/
theorem Countable.cap_le_iff (hs : s.Countable limits) :
    cap limits ≤ s.bytes.length ↔ limits.maxPayloadBytes < s.bytes.length := by
  unfold Countable at hs
  unfold cap
  omega

theorem Countable.cap_eq (hs : s.Countable limits)
    (hlong : limits.maxPayloadBytes < s.bytes.length) :
    cap limits = limits.maxPayloadBytes + 1 := by
  unfold Countable at hs
  unfold cap
  omega

theorem Countable.payload_eq (hs : s.Countable limits) : s.payload limits =
    if limits.maxPayloadBytes < s.bytes.length then
      .ok (s.bytes.take (limits.maxPayloadBytes + 1))
    else match s.failure with
      | none => .ok s.bytes
      | some message => .error (.io message) := by
  unfold payload
  rw [read_eq]
  show (if cap limits ≤ s.bytes.length then Except.ok (s.bytes.take (cap limits)) else _) = _
  by_cases hlong : limits.maxPayloadBytes < s.bytes.length
  · rw [if_pos (hs.cap_le_iff.mpr hlong), if_pos hlong, hs.cap_eq hlong]
  · rw [if_neg (mt hs.cap_le_iff.mp hlong), if_neg hlong]
    rfl

/-! ## What a source gives -/

/-- `read` is what a source gives under limits, if `parsed` is what its bytes give: the same
unless they are too many, which is found at the first byte too many, or the source fails
before it has delivered too many. -/
structure Agrees {α : Type} (limits : Limits) (s : Source) (read parsed : Except DataError α) :
    Prop where
  whole : s.failure = none → s.bytes.length ≤ limits.maxPayloadBytes → read = parsed
  tooLong : limits.maxPayloadBytes < s.bytes.length → read =
    .error (.limitExceeded "payload bytes" limits.maxPayloadBytes (limits.maxPayloadBytes + 1))
  fails : ∀ message, read = .error (.io message) ↔
    s.failure = some message ∧ s.bytes.length ≤ limits.maxPayloadBytes

/-- No source has failed. -/
def Unfailed {α : Type} (x : Except DataError α) : Prop :=
  ∀ message, x ≠ .error (.io message)

theorem Unfailed.bind {α β : Type} {x : Except DataError α} {f : α → Except DataError β}
    (hx : Unfailed x) (hf : ∀ a, Unfailed (f a)) : Unfailed (x >>= f) := by
  intro message
  cases x with
  | error e =>
      intro h
      cases h
      exact hx message rfl
  | ok a => exact hf a message

theorem unfailed_check (limit : String) (max actual : Nat) :
    Unfailed (Limits.check limit max actual) := by
  intro message
  unfold Limits.check
  split <;> exact nofun

/-- What is done with a document afterwards does not fail as a source does. -/
theorem Agrees.bind {α β : Type} {x y : Except DataError α} (ha : s.Agrees limits x y)
    {f : α → Except DataError β} (hf : ∀ a, Unfailed (f a)) :
    s.Agrees limits (x >>= f) (y >>= f) where
  whole := fun hnone hle => by rw [ha.whole hnone hle]
  tooLong := fun hlong => by
    rw [ha.tooLong hlong]
    rfl
  fails := by
    intro message
    rw [← ha.fails message]
    cases x with
    | error e =>
        show Except.error e = .error (.io message) ↔ Except.error e = .error (.io message)
        simp
    | ok a => exact iff_of_false (hf a message) nofun

end Source

namespace Document

variable {limits : Limits} {s : Source}

theorem ofJson_of_lt {payload : Bytes} (hlong : limits.maxPayloadBytes < payload.length) :
    ofJson limits payload =
      .error (.limitExceeded "payload bytes" limits.maxPayloadBytes payload.length) := by
  unfold ofJson Limits.checkPayloadBytes Limits.check
  rw [if_pos hlong]
  rfl

/-- Bytes that are there already do not fail to come. -/
theorem unfailed_ofJson (payload : Bytes) : Source.Unfailed (ofJson limits payload) := by
  refine (Source.unfailed_check _ _ _).bind fun _ => ?_
  cases Json.parse payload with
  | error fault => exact fun _ => nofun
  | ok d => exact (Source.unfailed_check _ _ _).bind fun _ _ => nofun

theorem ofSource_eq (hs : s.Countable limits) : ofSource limits s =
    if limits.maxPayloadBytes < s.bytes.length then
      .error (.limitExceeded "payload bytes" limits.maxPayloadBytes
        (limits.maxPayloadBytes + 1))
    else match s.failure with
      | none => ofJson limits s.bytes
      | some message => .error (.io message) := by
  unfold ofSource
  rw [hs.payload_eq]
  by_cases hlong : limits.maxPayloadBytes < s.bytes.length
  · have hlength : (s.bytes.take (limits.maxPayloadBytes + 1)).length =
        limits.maxPayloadBytes + 1 := by
      rw [List.length_take]
      omega
    rw [if_pos hlong, if_pos hlong]
    exact (ofJson_of_lt (by omega)).trans (by rw [hlength])
  · rw [if_neg hlong, if_neg hlong]
    cases s.failure <;> rfl

theorem agrees_ofSource (hs : s.Countable limits) :
    s.Agrees limits (ofSource limits s) (ofJson limits s.bytes) := by
  rw [ofSource_eq hs]
  refine ⟨fun hnone hle => ?_, fun hlong => if_pos hlong, fun message => ?_⟩
  · rw [if_neg (Nat.not_lt.mpr hle), hnone]
  · by_cases hlong : limits.maxPayloadBytes < s.bytes.length
    · rw [if_pos hlong]
      exact iff_of_false nofun fun hboth => absurd hlong (Nat.not_lt.mpr hboth.2)
    · rw [if_neg hlong, and_iff_left (Nat.le_of_not_lt hlong)]
      cases s.failure with
      | none => exact iff_of_false (unfailed_ofJson _ message) nofun
      | some reason => simp

end Document

namespace Heap

/-- A container is read from a source as it is from the bytes that the source delivers, in
whichever chunks they arrive. One byte more than the limit allows is enough to refuse it for
its length, whatever else is wrong with the bytes or with the source, and it fails as the
source does exactly if the source fails before that. -/
theorem containersOfSource_agree (h : Heap) {limits : Limits} {s : Source}
    (hs : s.Countable limits) :
    s.Agrees limits (h.objectOfSource limits s) (h.objectOfJson limits s.bytes) ∧
      s.Agrees limits (h.arrayOfSource limits s) (h.arrayOfJson limits s.bytes) := by
  have hd := Document.agrees_ofSource hs
  refine ⟨hd.bind fun d => ?_, hd.bind fun d => ?_⟩
  · cases d <;> exact fun _ => nofun
  · cases d <;> exact fun _ => nofun

/-- An array of six bytes in three chunks under a limit of six bytes: as it is, with a byte too
many and a failure after it, and with a failure where it ends. -/
theorem arrayOfSource_in_chunks :
    let limits : Limits := ⟨128, 100, 6⟩
    let chunks : List Bytes := [Text.encode "[1", Text.encode ", 2", Text.encode "]"]
    let whole : Source := ⟨chunks, none⟩
    let longer : Source := ⟨chunks ++ [Text.encode "]"], some "connection reset"⟩
    let cut : Source := ⟨chunks, some "connection reset"⟩
    (whole.Countable limits ∧
      empty.arrayOfSource limits whole = empty.arrayOfJson limits (Text.encode "[1, 2]") ∧
      ∃ r, empty.arrayOfSource limits whole = .ok r) ∧
    (longer.Countable limits ∧ (∃ r, empty.arrayOfJson limits (longer.bytes.take 6) = .ok r) ∧
      empty.arrayOfSource limits longer = .error (.limitExceeded "payload bytes" 6 7)) ∧
    cut.Countable limits ∧ empty.arrayOfSource limits cut = .error (.io "connection reset") := by
  intro limits chunks whole longer cut
  have hlimits : limits.maxPayloadBytes < Limits.sizeMax := by decide
  obtain ⟨-, hwhole⟩ := containersOfSource_agree empty (s := whole) (.inl hlimits)
  obtain ⟨-, hlonger⟩ := containersOfSource_agree empty (s := longer) (.inl hlimits)
  obtain ⟨-, hcut⟩ := containersOfSource_agree empty (s := cut) (.inl hlimits)
  refine ⟨⟨.inl hlimits, ?_, _, rfl⟩, ⟨.inl hlimits, ⟨_, rfl⟩, ?_⟩, .inl hlimits, ?_⟩
  · exact hwhole.whole rfl (by decide)
  · exact hlonger.tooLong (by decide)
  · exact (hcut.fails _).mpr ⟨rfl, by decide⟩

end Heap
end DynamicData
