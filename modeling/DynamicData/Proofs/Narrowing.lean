import DynamicData.Path.Read
import DynamicData.Proofs.Source

/-!
# Stricter limits

Limits only refuse. Of two sets of limits, the stricter one gives what the wider one gives,
a value or a failure, unless it refuses: then the failure names one of its own limits. So
what is accepted under the stricter limits is accepted under the wider ones with the same
result, and what is accepted under the wider ones alone is refused for a limit.

`Narrows R` is this relation between two outcomes, `R` the reasons for which the first one
may refuse. It passes through a sequence: the parts that do not look at a limit are the
same on both sides. For the reader of terms, where the limit is looked at between other
checks, it is proved by induction on what remains of the stricter limit.
-/

namespace DynamicData

variable {ε α β : Type}

/-- The first outcome is the second one or a failure for a reason in `R`. -/
def Narrows (R : ε → Prop) (narrow wide : Except ε α) : Prop :=
  narrow = wide ∨ ∃ e, R e ∧ narrow = .error e

namespace Narrows

variable {R : ε → Prop}

theorem refl (x : Except ε α) : Narrows R x x :=
  .inl rfl

theorem refusal {e : ε} (he : R e) (wide : Except ε α) : Narrows R (.error e) wide :=
  .inr ⟨e, he, rfl⟩

theorem bind {x y : Except ε α} {f g : α → Except ε β} (hx : Narrows R x y)
    (hf : ∀ a, Narrows R (f a) (g a)) : Narrows R (x >>= f) (y >>= g) := by
  rcases hx with rfl | ⟨e, he, rfl⟩
  · cases x with
    | error e => exact refl _
    | ok a => exact hf a
  · exact refusal he _

/-- What comes after both outcomes does not look at a limit. -/
theorem andThen {x y : Except ε α} (hx : Narrows R x y) (f : α → Except ε β) :
    Narrows R (x >>= f) (y >>= f) :=
  hx.bind fun a => refl (f a)

theorem mono {R' : ε → Prop} {x y : Except ε α} (h : Narrows R x y) (hR : ∀ e, R e → R' e) :
    Narrows R' x y :=
  h.imp_right fun ⟨e, he, hx⟩ => ⟨e, hR e he, hx⟩

end Narrows

/-! ## Terms under two limits -/

namespace Term

/-- The refusal of a container that lies too deep for the limit. -/
def TooDeep (max : Nat) (e : TermError) : Prop :=
  e = .depthExceeded max

/-- On every input the first reader does as the second one, or meets a container that lies
too deep. -/
def Tighter (max : Nat) (p q : Reader α) : Prop :=
  ∀ bytes, Narrows (TooDeep max) (p bytes) (q bytes)

variable {max : Nat}

theorem Tighter.refl (p : Reader α) : Tighter max p p :=
  fun _ => .refl _

theorem tighter_throw (q : Reader α) : Tighter max (throw (.depthExceeded max)) q :=
  fun _ => .inr ⟨_, rfl, rfl⟩

theorem Tighter.bind {p q : Reader α} {f g : α → Reader β} (hp : Tighter max p q)
    (hf : ∀ a, Tighter max (f a) (g a)) : Tighter max (p >>= f) (q >>= g) :=
  fun bytes => (hp bytes).bind fun r => hf r.1 r.2

theorem Tighter.repeatInto {p q : Reader α} (hp : Tighter max p q) (count : Nat)
    (done : List α) : Tighter max (Parser.repeatInto p count done)
      (Parser.repeatInto q count done) := by
  induction count generalizing done with
  | zero => exact .refl _
  | succ count ih => exact hp.bind fun a => ih (a :: done)

theorem Tighter.pair {p q : Reader α} {p' q' : Reader β} (hp : Tighter max p q)
    (hp' : Tighter max p' q') : Tighter max (p.pair p') (q.pair q') :=
  hp.bind fun _ => hp'.bind fun _ => .refl _

theorem tighter_readList {term term' : Reader Term} (h : Tighter max term term') :
    Tighter max (readList term) (readList term') :=
  (Tighter.refl (readWord 4)).bind fun count => (Tighter.refl (expectBytes count)).bind
    fun _ => (h.repeatInto count []).bind fun _ => .refl _

theorem tighter_readMap {term term' : Reader Term} (h : Tighter max term term') :
    Tighter max (readMap term) (readMap term') :=
  (Tighter.refl (readWord 4)).bind fun count => (Tighter.refl (expectBytes (2 * count))).bind
    fun _ => ((h.pair h).repeatInto count []).bind fun _ => .refl _

theorem tighter_readWith {list list' map map' : Reader Term} (hlist : Tighter max list list')
    (hmap : Tighter max map map') : Tighter max (readWith list map) (readWith list' map') := by
  refine (Tighter.refl readByte).bind fun code => ?_
  cases Tag.ofCode? code with
  | none => exact .refl _
  | some tag =>
      cases tag with
      | list => exact hlist
      | map => exact hmap
      | _ => exact .refl _

theorem tighter_read (max max' : Nat) {left left' : Nat} (hle : left ≤ left') :
    Tighter max (read max left) (read max' left') := by
  induction left generalizing left' with
  | zero =>
      cases left' <;> exact tighter_readWith (tighter_throw _) (tighter_throw _)
  | succ left ih =>
      obtain ⟨left', rfl⟩ := Nat.exists_eq_add_of_le' hle
      have hread := ih (Nat.le_of_succ_le_succ hle)
      exact tighter_readWith (tighter_readList hread) (tighter_readMap hread)

theorem tighter_readPayload {max max' : Nat} (hle : max ≤ max') :
    Tighter max (readPayload max) (readPayload max') := by
  refine (Tighter.refl readByte).bind fun found => ?_
  by_cases hfound : found ≠ version
  · rw [if_pos hfound, if_pos hfound]
    exact .refl _
  · rw [if_neg hfound, if_neg hfound]
    exact tighter_read max max' hle

theorem narrows_decode {max max' : Nat} (hle : max ≤ max') (payload : Bytes) :
    Narrows (TooDeep max) (decode max payload) (decode max' payload) := by
  unfold decode
  rcases tighter_readPayload hle payload with h | ⟨e, he, h⟩
  · rw [h]
    exact .refl _
  · rw [h]
    exact .refusal he _

end Term

/-! ## Limits -/

/-- No limit of the first is above that of the second. -/
instance : LE Limits :=
  ⟨fun l m => l.maxNestingDepth ≤ m.maxNestingDepth ∧ l.maxPathSteps ≤ m.maxPathSteps ∧
    l.maxPayloadBytes ≤ m.maxPayloadBytes⟩

namespace Limits

/-- The refusals of a value that is above its limit. -/
inductive Refusal (l : Limits) : DataError → Prop
  | nestingDepth {depth : Nat} (above : l.maxNestingDepth < depth) :
      Refusal l (.limitExceeded "nesting depth" l.maxNestingDepth depth)
  | pathSteps {steps : Nat} (above : l.maxPathSteps < steps) :
      Refusal l (.limitExceeded "path steps" l.maxPathSteps steps)
  | payloadBytes {bytes : Nat} (above : l.maxPayloadBytes < bytes) :
      Refusal l (.limitExceeded "payload bytes" l.maxPayloadBytes bytes)

/-- The refusals of a binary payload, among them the one of the term decoder. -/
def BinaryRefusal (l : Limits) (e : DataError) : Prop :=
  l.Refusal e ∨ e = .binary (TermError.depthExceeded l.maxNestingDepth).message

variable {l m : Limits}

theorem narrows_check {R : DataError → Prop} {limit : String} {max max' actual : Nat}
    (hle : max ≤ max') (hR : max < actual → R (.limitExceeded limit max actual)) :
    Narrows R (check limit max actual) (check limit max' actual) := by
  unfold check
  by_cases h : max < actual
  · rw [if_pos h]
    exact .refusal (hR h) _
  · rw [if_neg h, if_neg (fun h' => h (Nat.lt_of_le_of_lt hle h'))]
    exact .refl _

theorem narrows_checkPayloadBytes (hle : l ≤ m) (bytes : Nat) :
    Narrows l.Refusal (l.checkPayloadBytes bytes) (m.checkPayloadBytes bytes) :=
  narrows_check hle.2.2 .payloadBytes

end Limits

/-! ## Documents under two limits -/

namespace Document

variable {l m : Limits}

theorem narrows_ofJson (hle : l ≤ m) (payload : Bytes) :
    Narrows l.Refusal (ofJson l payload) (ofJson m payload) := by
  refine (Limits.narrows_checkPayloadBytes hle _).bind fun _ => ?_
  cases Json.parse payload with
  | error fault => exact .refl _
  | ok d => exact (Limits.narrows_check hle.1 .nestingDepth).andThen _

theorem narrows_ofBinary (hle : l ≤ m) (payload : Bytes) :
    Narrows l.BinaryRefusal (ofBinary l payload) (ofBinary m payload) := by
  refine ((Limits.narrows_checkPayloadBytes hle _).mono fun _ => .inl).bind fun _ => ?_
  rcases Term.narrows_decode hle.1 payload with h | ⟨e, rfl, h⟩
  · rw [h]
    exact .refl _
  · rw [h]
    exact .refusal (.inr rfl) _

end Document

/-! ## Sources under two limits -/

namespace Source

/-- Less is read of a source either to the same end or up to the cap. -/
theorem read_capped {cap cap' : Nat} (hle : cap ≤ cap') (chunks : List Bytes)
    (failure : Option String) : read cap chunks failure = read cap' chunks failure ∨
      ∃ bytes, read cap chunks failure = .ok bytes ∧ bytes.length = cap := by
  rw [read_eq, read_eq]
  by_cases hcap : cap ≤ chunks.flatten.length
  · exact .inr ⟨_, if_pos hcap, by rw [List.length_take, Nat.min_eq_left hcap]⟩
  · rw [if_neg hcap, if_neg fun hcap' => hcap (Nat.le_trans hle hcap')]
    exact .inl rfl

end Source

theorem Document.narrows_ofSource {l m : Limits} (hle : l ≤ m) (s : Source) :
    Narrows l.Refusal (ofSource l s) (ofSource m s) := by
  obtain ⟨-, -, hbytes⟩ := id hle
  have hcap : Source.cap l ≤ Source.cap m := by
    unfold Source.cap
    omega
  unfold ofSource Source.payload
  rcases Source.read_capped hcap s.chunks s.failure with h | ⟨bytes, h, hlen⟩
  · rw [h]
    exact (Narrows.refl _).bind fun payload => narrows_ofJson hle payload
  · by_cases hmax : l.maxPayloadBytes < bytes.length
    · -- one byte more than is allowed has been read
      rw [h]
      refine .inr ⟨_, .payloadBytes hmax, ?_⟩
      show (l.checkPayloadBytes bytes.length >>= _) = _
      rw [Limits.checkPayloadBytes, Limits.check, if_pos hmax]
      rfl
    · -- both caps are the largest number of machine size
      have hsame : Source.cap l = Source.cap m := by
        unfold Source.cap at *
        omega
      rw [hsame]
      exact (Narrows.refl _).bind fun payload => narrows_ofJson hle payload

theorem Path.narrows_read {l m : Limits} (hle : l ≤ m) (s : String) :
    Narrows l.Refusal (read l s) (read m s) :=
  (Narrows.refl _).bind fun _ =>
    (Limits.narrows_check hle.2.1 .pathSteps).andThen _

/-! ## Every entry point -/

/-- Under stricter limits every way to take in a payload or a path gives what it gives under
the wider ones, or refuses for one of the stricter limits. The reader of terms, under the
stricter of two limits on nesting, fails for this limit or does as under the wider one. -/
theorem Limits.narrows_of_le {l m : Limits} (hle : l ≤ m) :
    (∀ (h : Heap) (payload : Bytes),
      Narrows l.Refusal (h.objectOfJson l payload) (h.objectOfJson m payload) ∧
      Narrows l.Refusal (h.arrayOfJson l payload) (h.arrayOfJson m payload) ∧
      Narrows l.BinaryRefusal (h.objectOfBinary l payload) (h.objectOfBinary m payload) ∧
      Narrows l.BinaryRefusal (h.arrayOfBinary l payload) (h.arrayOfBinary m payload)) ∧
    (∀ (h : Heap) (s : Source),
      Narrows l.Refusal (h.objectOfSource l s) (h.objectOfSource m s) ∧
      Narrows l.Refusal (h.arrayOfSource l s) (h.arrayOfSource m s)) ∧
    (∀ s : String, Narrows l.Refusal (Path.read l s) (Path.read m s)) ∧
    ∀ (max max' : Nat) (payload : Bytes), max ≤ max' →
      Term.decode max payload = .error (.depthExceeded max) ∨
        Term.decode max payload = Term.decode max' payload := by
  refine ⟨fun h payload => ⟨?_, ?_, ?_, ?_⟩, fun h s => ⟨?_, ?_⟩, Path.narrows_read hle, ?_⟩
  · exact (Document.narrows_ofJson hle payload).andThen _
  · exact (Document.narrows_ofJson hle payload).andThen _
  · exact (Document.narrows_ofBinary hle payload).andThen _
  · exact (Document.narrows_ofBinary hle payload).andThen _
  · exact (Document.narrows_ofSource hle s).andThen _
  · exact (Document.narrows_ofSource hle s).andThen _
  · intro max max' payload hmax
    rcases Term.narrows_decode hmax payload with h | ⟨e, rfl, h⟩
    · exact .inr h
    · exact .inl h

/-- Limits of one level, one step and sixteen bytes beside the standard ones: an array in an
array, in JSON and as terms, and a path of two steps. -/
theorem narrows_one_level_one_step :
    let l : Limits := ⟨1, 1, 16⟩
    let m : Limits := .standard
    let json : Bytes := Text.encode "[[]]"
    let binary : Bytes := [131, 108, 0, 0, 0, 1, 108, 0, 0, 0, 0, 106, 106]
    l ≤ m ∧
      (Narrows l.Refusal (Heap.empty.arrayOfJson l json) (Heap.empty.arrayOfJson m json) ∧
        Heap.empty.arrayOfJson l json = .error (.limitExceeded "nesting depth" 1 2) ∧
        ∃ r, Heap.empty.arrayOfJson m json = .ok r) ∧
      (Narrows l.BinaryRefusal (Heap.empty.arrayOfBinary l binary)
          (Heap.empty.arrayOfBinary m binary) ∧
        Heap.empty.arrayOfBinary l binary =
          .error (.binary (TermError.depthExceeded 1).message) ∧
        ∃ r, Heap.empty.arrayOfBinary m binary = .ok r) ∧
      (Narrows l.Refusal (Path.read l "a[0]") (Path.read m "a[0]") ∧
        Path.read l "a[0]" = .error (.limitExceeded "path steps" 1 2) ∧
        ∃ p, Path.read m "a[0]" = .ok p) ∧
      (Term.decode 1 binary = .error (.depthExceeded 1) ∨
        Term.decode 1 binary = Term.decode 2 binary) := by
  intro l m json binary
  have hle : l ≤ m := ⟨by decide, by decide, by decide⟩
  obtain ⟨hpayload, -, hpath, hterm⟩ := Limits.narrows_of_le hle
  obtain ⟨-, hjson, -, -⟩ := hpayload Heap.empty json
  obtain ⟨-, -, -, hbinary⟩ := hpayload Heap.empty binary
  refine ⟨hle, ⟨hjson, rfl, _, rfl⟩, ⟨hbinary, rfl, _, rfl⟩,
    ⟨hpath _, rfl, _, rfl⟩, hterm 1 2 binary (by decide)⟩

end DynamicData
