import DynamicData.Payload
import DynamicData.Proofs.Entries
import DynamicData.Proofs.Parser

/-!
# What holds of every parsed document

A document is read from JSON from the inside out: scalars as the text has them, containers of
what has been read already, and the members of an object by insertion. So a property of
documents that is kept along the way (`Document.Inductive`) holds of every document that is
read.
-/

namespace DynamicData

open DynamicData.Parser

/-- The property `P` holds of the scalars that a payload can bring, and of containers whose
parts have it. An object has each key once. -/
structure Document.Inductive (P : Document → Prop) : Prop where
  null : P .null
  bool : ∀ b, P (.bool b)
  int : ∀ i, P (.int i)
  unsigned : ∀ u, P (.unsigned u)
  float : ∀ x, P (.float x)
  text : ∀ s, P (.text s)
  array : ∀ {items : List Document}, (∀ t ∈ items, P t) → P (.array () items)
  object : ∀ {entries : Entries Document}, entries.keys.Nodup → (∀ t ∈ entries.values, P t) →
    P (.object () entries)

namespace Json

theorem yields_failNext {α : Type} {P : α → Prop} (cause : Cause) :
    Yields (failNext cause : Reader α) P :=
  yields_of_error fun _ => ⟨_, rfl⟩

/-- What every part keeps, the whole run of parts keeps. -/
theorem yields_parts {σ : Type} {P : σ → Prop} (br : Brackets) {part : σ → Reader σ}
    (hpart : ∀ done, P done → Yields (part done) P) :
    ∀ (fuel : Bytes) (done : σ), P done → Yields (parts br part fuel done) P
  | [], _, _ => yields_failNext .endInValue
  | _ :: fuel, done, hd => by
      unfold parts
      -- what follows a part is the bracket, a comma and the next part, or an error
      refine yields_bind (hpart done hd) fun done hd => ?_
      refine yields_andThen fun _ => yields_andThen fun bytes => ?_
      cases bytes with
      | nil => exact yields_failNext br.atEnd
      | cons b rest =>
          by_cases hclose : b = br.close
          · simp only [if_pos hclose]
            exact yields_andThen fun _ => yields_pure hd
          · simp only [if_neg hclose]
            by_cases hcomma : b = ','.toUInt8
            · simp only [if_pos hcomma]
              refine yields_andThen fun _ => yields_andThen fun bytes => ?_
              cases bytes with
              | nil => exact yields_failNext .endInValue
              | cons c rest =>
                  by_cases hc : c = br.close
                  · simp only [if_pos hc]
                    exact yields_failNext .trailingComma
                  · simp only [if_neg hc]
                    exact yields_parts br hpart fuel done hd
            · simp only [if_neg hcomma]
              exact yields_failNext br.noComma

theorem yields_enclosed {σ : Type} {P : σ → Prop} (br : Brackets) {part : σ → Reader σ}
    (hpart : ∀ done, P done → Yields (part done) P) {start : σ} (hs : P start) :
    Yields (enclosed br part start) P := by
  unfold enclosed
  refine yields_andThen fun _ => yields_andThen fun bytes => ?_
  cases bytes with
  | nil => exact yields_failNext br.atEnd
  | cons b rest =>
      by_cases hclose : b = br.close
      · simp only [if_pos hclose]
        exact yields_andThen fun _ => yields_pure hs
      · simp only [if_neg hclose]
        exact yields_parts br hpart _ start hs

section
variable {P : Document → Prop}

theorem yields_array (hP : Document.Inductive P) {value : Reader Document}
    (hv : Yields value P) : Yields (array value) P := by
  unfold array
  apply yields_andThen
  intro _
  refine yields_bind (yields_enclosed (P := fun done => ∀ t ∈ done, P t) .array ?_ ?_)
    fun items hi => yields_pure (hP.array fun t ht => hi t (List.mem_reverse.mp ht))
  · intro done hd
    refine yields_bind hv fun d hkd => yields_pure fun t ht => ?_
    rcases List.mem_cons.mp ht with rfl | ht
    · exact hkd
    · exact hd t ht
  · exact fun t ht => absurd ht List.not_mem_nil

/-- Entries under distinct keys, with values that have the property. -/
def EntriesOf (P : Document → Prop) (entries : Entries Document) : Prop :=
  entries.keys.Nodup ∧ ∀ t ∈ entries.values, P t

theorem EntriesOf.insert {entries : Entries Document} (he : EntriesOf P entries) (k : String)
    {v : Document} (hv : P v) : EntriesOf P (entries.insert k v) := by
  refine ⟨Entries.nodup_insert k v he.1, fun t ht => ?_⟩
  rcases Entries.mem_values_insert ht with ht | rfl
  · exact he.2 t ht
  · exact hv

theorem yields_object (hP : Document.Inductive P) {value : Reader Document}
    (hv : Yields value P) : Yields (object value) P := by
  unfold object
  apply yields_andThen
  intro _
  refine yields_bind (yields_enclosed (P := EntriesOf P) .object ?_ ?_)
    fun entries he => yields_pure (hP.object he.1 he.2)
  · intro done hd
    unfold member
    exact yields_andThen fun k => yields_bind hv fun v hkv => yields_pure (hd.insert k hkv)
  · exact ⟨List.nodup_nil, fun t ht => absurd ht List.not_mem_nil⟩

theorem Number.holds (hP : Document.Inductive P) (n : Number) : P n.tree := by
  cases n with
  | unsigned u => exact hP.unsigned u
  | signed i => exact hP.int i
  | real x => exact hP.float x

theorem yields_visit {α : Type} {Q : α → Prop} {v : Visitor α} (hnull : Yields v.null Q)
    (hbool : ∀ b, Yields (v.bool b) Q) (hnumber : ∀ negative, Yields (v.number negative) Q)
    (hstring : Yields v.string Q) (harray : Yields v.array Q) (hobject : Yields v.object Q) :
    Yields (visit v) Q := by
  unfold visit
  refine yields_andThen fun bytes => ?_
  cases bytes with
  | nil => exact yields_failNext .endInValue
  | cons b rest =>
      cases hb : Opening.ofByte? b with
      | none =>
          simp only [hb]
          exact yields_failNext .expectedValue
      | some o =>
          simp only [hb]
          cases o with
          | null => exact yields_andThen fun _ => yields_andThen fun _ => hnull
          | true => exact yields_andThen fun _ => yields_andThen fun _ => hbool true
          | false => exact yields_andThen fun _ => yields_andThen fun _ => hbool false
          | minus => exact yields_andThen fun _ => hnumber true
          | digit => exact hnumber false
          | quote => exact yields_andThen fun _ => hstring
          | bracket => exact harray
          | brace => exact hobject

theorem yields_valueWith (hP : Document.Inductive P) {array object : Reader Document}
    (ha : Yields array P) (ho : Yields object P) : Yields (valueWith array object) P := by
  unfold valueWith
  refine yields_andThen fun _ => yields_visit ?null ?bool ?number ?string ha ho
  case null => exact yields_pure hP.null
  case bool => exact fun b => yields_pure (hP.bool b)
  case number => exact fun _ => yields_andThen fun n => yields_pure (n.holds hP)
  case string => exact yields_andThen fun s => yields_pure (hP.text s)

theorem yields_value (hP : Document.Inductive P) : ∀ budget : Nat, Yields (value budget) P
  | 0 => yields_valueWith hP (yields_failNext .recursionLimit) (yields_failNext .recursionLimit)
  | budget + 1 =>
    yields_valueWith hP (yields_array hP (yields_value hP budget))
      (yields_object hP (yields_value hP budget))

theorem holds_of_parse (hP : Document.Inductive P) {payload : Bytes} {d : Document}
    (hd : parse payload = .ok d) : P d := by
  have hend : Yields (atEnd (value maxDepth)) P := by
    unfold atEnd
    refine yields_bind (yields_value hP maxDepth) fun d hkd => yields_andThen fun _ => ?_
    apply yields_andThen
    intro bytes
    cases bytes with
    | nil => exact yields_pure hkd
    | cons b rest => exact yields_failNext .trailingCharacters
  unfold parse at hd
  cases hr : atEnd (value maxDepth) payload with
  | error e => rw [hr] at hd; cases hd
  | ok r =>
      rw [hr] at hd
      cases hd
      exact hend _ _ _ hr

end

end Json

namespace Document

theorem ok_of_ofJson {limits : Limits} {payload : Bytes} {d : Document}
    (hd : ofJson limits payload = .ok d) :
    Json.parse payload = .ok d ∧ d.depth ≤ limits.maxNestingDepth := by
  unfold ofJson at hd
  obtain ⟨_, _, hd⟩ := except_bind_eq_ok.mp hd
  cases hp : Json.parse payload with
  | error fault => rw [hp] at hd; cases hd
  | ok e =>
      rw [hp] at hd
      obtain ⟨_, hdepth, hd⟩ := except_bind_eq_ok.mp hd
      cases hd
      exact ⟨rfl, Limits.check_eq_ok_iff.mp hdepth⟩

theorem ok_of_ofSource {limits : Limits} {s : Source} {d : Document}
    (hd : ofSource limits s = .ok d) : ∃ payload, ofJson limits payload = .ok d := by
  unfold ofSource at hd
  obtain ⟨payload, _, hd⟩ := except_bind_eq_ok.mp hd
  exact ⟨payload, hd⟩

theorem ok_of_ofBinary {limits : Limits} {payload : Bytes} {d : Document}
    (hd : ofBinary limits payload = .ok d) :
    ∃ t, Term.decode limits.maxNestingDepth payload = .ok t ∧ t.document = .ok d := by
  unfold ofBinary at hd
  obtain ⟨_, _, hd⟩ := except_bind_eq_ok.mp hd
  cases ht : Term.decode limits.maxNestingDepth payload with
  | error e => rw [ht] at hd; cases hd
  | ok t =>
      rw [ht] at hd
      cases he : t.document with
      | error e => simp only [he] at hd; cases hd
      | ok e =>
          simp only [he] at hd
          cases hd
          exact ⟨t, rfl, he⟩

/-- The document is what some payload is read as. -/
inductive Parsed : Document → Prop
  | json {payload : Bytes} {d : Document} (read : Json.parse payload = .ok d) : Parsed d
  | binary {limits : Limits} {payload : Bytes} {d : Document}
      (read : ofBinary limits payload = .ok d) : Parsed d

theorem parsed_of_ofJson {limits : Limits} {payload : Bytes} {d : Document}
    (hd : ofJson limits payload = .ok d) : d.Parsed :=
  .json (ok_of_ofJson hd).1

theorem parsed_of_ofSource {limits : Limits} {s : Source} {d : Document}
    (hd : ofSource limits s = .ok d) : d.Parsed := by
  obtain ⟨_, hd⟩ := ok_of_ofSource hd
  exact parsed_of_ofJson hd

/-- Within the limit on the size a binary payload fails with a binary error, if at all. -/
theorem ofBinary_ok_or_binary {limits : Limits} {payload : Bytes}
    (hbytes : payload.length ≤ limits.maxPayloadBytes) :
    (∃ d, ofBinary limits payload = .ok d) ∨
      ∃ message, ofBinary limits payload = .error (.binary message) := by
  have hcheck : limits.checkPayloadBytes payload.length = .ok () :=
    Limits.check_eq_ok_iff.mpr hbytes
  unfold ofBinary
  rw [hcheck]
  cases Term.decode limits.maxNestingDepth payload with
  | error e => exact .inr ⟨e.message, rfl⟩
  | ok t =>
      cases ht : t.document with
      | error e => exact .inr ⟨e.message, by simp only [ht]; rfl⟩
      | ok d => exact .inl ⟨d, by simp only [ht]; rfl⟩

end Document
end DynamicData
