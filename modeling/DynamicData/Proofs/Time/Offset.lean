import DynamicData.Proofs.Text
import DynamicData.Proofs.Time.Form
import Mathlib.Data.List.Basic

/-!
# Where the offset of a date-time begins

The offset is split off from the end of a text: a final `Z`, or what the last sign begins. A
date has signs in it as well. They come before the sign of the offset, and where there is no
offset, the last of them comes too early to be taken for one.
-/

namespace DynamicData.OffsetDateTime

open Text (span_run eq_append_of_span head_of_span)

/-! ## Fields -/

theorem digits?_eq_some_iff {cs : List Char} {n : Nat} :
    Numeral.digits? cs = some n ↔ cs ≠ [] ∧ Field cs.length cs n := by
  unfold Numeral.digits?
  constructor
  · intro h
    split at h
    · next hcs =>
        cases h
        exact ⟨hcs.1, rfl, List.all_eq_true.mp hcs.2, rfl⟩
    · cases h
  · rintro ⟨hne, -, hdecimal, rfl⟩
    rw [if_pos ⟨hne, List.all_eq_true.mpr hdecimal⟩]

theorem upTo?_eq_some_iff {max : Nat} {cs : List Char} {n : Nat} :
    upTo? max cs = some n ↔ cs ≠ [] ∧ Field cs.length cs n ∧ n ≤ max := by
  rw [upTo?, Option.filter_eq_some_iff, digits?_eq_some_iff, decide_eq_true_eq, and_assoc]

theorem Field.upTo? {width : Nat} {word : List Char} {n max : Nat}
    (h : Field (width + 1) word n) (hle : n ≤ max) : upTo? max word = some n := by
  have hne : word ≠ [] := by
    rintro rfl
    cases h.length
  exact upTo?_eq_some_iff.mpr ⟨hne, ⟨rfl, h.decimal, h.value⟩, hle⟩

theorem Field.exists_two {word : List Char} {n : Nat} (h : Field 2 word n) :
    ∃ a b, word = [a, b] :=
  List.length_eq_two.mp h.length

/-! ## The last sign -/

theorem splitLast?_eq_some_iff {p : Char → Bool} {cs front rest : List Char} {c : Char} :
    splitLast? p cs = some (front, c, rest) ↔
      cs = front ++ c :: rest ∧ p c = true ∧ ∀ d ∈ rest, p d = false := by
  unfold splitLast?
  constructor
  · intro h
    cases hspan : cs.reverse.span fun c => !p c with
    | mk after before =>
        obtain ⟨hcs, hafter⟩ := eq_append_of_span hspan
        rw [hspan] at h
        cases before with
        | nil => cases h
        | cons d before =>
            have hd := head_of_span hspan (c := d) rfl
            cases h
            refine ⟨?_, by simpa using hd, fun e he => ?_⟩
            · rw [← List.reverse_reverse cs, hcs, List.reverse_append, List.reverse_cons,
                List.append_assoc, List.singleton_append]
            · simpa using hafter e (List.mem_reverse.mp he)
  · rintro ⟨rfl, hc, hrest⟩
    have hspan : (front ++ c :: rest).reverse.span (fun c => !p c) =
        (rest.reverse, c :: front.reverse) := by
      rw [List.reverse_append, List.reverse_cons, List.append_assoc, List.singleton_append]
      refine span_run (fun d hd => ?_) fun d hd => ?_
      · rw [hrest d (List.mem_reverse.mp hd)]
        rfl
      · cases hd
        rw [hc]
        rfl
    rw [hspan]
    dsimp only
    rw [List.reverse_reverse, List.reverse_reverse]

theorem SignForm.isSign {c : Char} {sign : Int} (h : SignForm c sign) : isSign c = true := by
  cases h <;> rfl

theorem exists_signForm {c : Char} (hc : isSign c = true) : ∃ sign, SignForm c sign := by
  rw [isSign, Bool.or_eq_true, decide_eq_true_eq, decide_eq_true_eq] at hc
  rcases hc with rfl | rfl
  · exact ⟨1, .plus⟩
  · exact ⟨-1, .minus⟩

theorem SignForm.mul {c : Char} {sign : Int} (h : SignForm c sign) (n : Int) :
    (if c = '-' then -n else n) = sign * n := by
  cases h with
  | plus => exact (Int.one_mul n).symm
  | minus => exact (Int.neg_one_mul n).symm

/-! ## Offsets -/

theorem Field.digit_or_colon {width n : Nat} {word rest : List Char} (h : Field width word n)
    (hrest : ∀ c ∈ rest, c.isDigit = true ∨ c = ':') :
    ∀ c ∈ word ++ ':' :: rest, c.isDigit = true ∨ c = ':' := by
  intro c hc
  rcases List.mem_append.mp hc with hword | hc
  · exact .inl (h.decimal c hword)
  · rcases List.mem_cons.mp hc with rfl | hc
    · exact .inr rfl
    · exact hrest c hc

theorem offsetSize?_sound {c : Char} {sign : Int} {cs : List Char} {n : Nat}
    (signed : SignForm c sign) (h : offsetSize? cs = some n) : ZoneForm (c :: cs) (sign * n) := by
  unfold offsetSize? at h
  split at h
  · obtain ⟨hours, hhours, h⟩ := Option.bind_eq_some_iff.mp h
    obtain ⟨minutes, hminutes, h⟩ := Option.bind_eq_some_iff.mp h
    cases h
    obtain ⟨-, hour, hourLe⟩ := upTo?_eq_some_iff.mp hhours
    obtain ⟨-, minute, minuteLe⟩ := upTo?_eq_some_iff.mp hminutes
    exact .minutes signed hour hourLe minute minuteLe
  · obtain ⟨hours, hhours, h⟩ := Option.bind_eq_some_iff.mp h
    obtain ⟨minutes, hminutes, h⟩ := Option.bind_eq_some_iff.mp h
    obtain ⟨seconds, hseconds, h⟩ := Option.bind_eq_some_iff.mp h
    cases h
    obtain ⟨-, hour, hourLe⟩ := upTo?_eq_some_iff.mp hhours
    obtain ⟨-, minute, minuteLe⟩ := upTo?_eq_some_iff.mp hminutes
    obtain ⟨-, second, secondLe⟩ := upTo?_eq_some_iff.mp hseconds
    exact .seconds signed hour hourLe minute minuteLe second secondLe
  · cases h

/-- An offset is `Z`, or a sign and its size. After the sign there are digits and colons only. -/
theorem ZoneForm.cases {zone : List Char} {offset : Int} (h : ZoneForm zone offset) :
    zone = ['Z'] ∧ offset = 0 ∨ ∃ c sign cs, ∃ n : Nat, zone = c :: cs ∧ offset = sign * n ∧
      SignForm c sign ∧ offsetSize? cs = some n ∧ ∀ d ∈ cs, d.isDigit = true ∨ d = ':' := by
  cases h with
  | utc => exact .inl ⟨rfl, rfl⟩
  | minutes signed hour hourLe minute minuteLe =>
      refine .inr ⟨_, _, _, _, rfl, rfl, signed, ?_, ?_⟩
      · obtain ⟨h₁, h₂, rfl⟩ := hour.exists_two
        obtain ⟨m₁, m₂, rfl⟩ := minute.exists_two
        show offsetSize? [h₁, h₂, ':', m₁, m₂] = _
        rw [offsetSize?, hour.upTo? hourLe, minute.upTo? minuteLe]
        rfl
      · exact hour.digit_or_colon fun d hd => .inl (minute.decimal d hd)
  | seconds signed hour hourLe minute minuteLe second secondLe =>
      refine .inr ⟨_, _, _, _, rfl, rfl, signed, ?_, ?_⟩
      · obtain ⟨h₁, h₂, rfl⟩ := hour.exists_two
        obtain ⟨m₁, m₂, rfl⟩ := minute.exists_two
        obtain ⟨s₁, s₂, rfl⟩ := second.exists_two
        show offsetSize? [h₁, h₂, ':', m₁, m₂, ':', s₁, s₂] = _
        rw [offsetSize?, hour.upTo? hourLe, minute.upTo? minuteLe, second.upTo? secondLe]
        rfl
      · exact hour.digit_or_colon (minute.digit_or_colon fun d hd => .inl (second.decimal d hd))

theorem splitOffset?_sound {cs clock : List Char} {offset : Int}
    (h : splitOffset? cs = some (clock, offset)) :
    ∃ zone, cs = clock ++ zone ∧ ZoneForm zone offset := by
  unfold splitOffset? at h
  split at h
  · next hlast =>
      cases h
      exact ⟨['Z'], (List.dropLast_append_getLast? 'Z' hlast).symm, .utc⟩
  · split at h
    · cases h
    · next front c size hsplit =>
        obtain ⟨rfl, hc, -⟩ := splitLast?_eq_some_iff.mp hsplit
        split at h
        · cases h
        · obtain ⟨n, hn, h⟩ := Option.map_eq_some_iff.mp h
          obtain ⟨sign, signed⟩ := exists_signForm hc
          rw [signed.mul] at h
          cases h
          exact ⟨c :: size, rfl, offsetSize?_sound signed hn⟩

/-- An offset is found behind whatever is longer than a date: its own sign is the last one. -/
theorem splitOffset?_complete {clock zone : List Char} {offset : Int} (h : ZoneForm zone offset)
    (hclock : 10 < (Text.encode (String.ofList clock)).length) :
    splitOffset? (clock ++ zone) = some (clock, offset) := by
  unfold splitOffset?
  rcases h.cases with ⟨rfl, rfl⟩ | ⟨c, sign, cs, n, rfl, rfl, signed, hsize, hchars⟩
  · rw [if_pos List.getLast?_concat, List.dropLast_concat]
  · have hlast : (clock ++ c :: cs).getLast? ≠ some 'Z' := by
      rw [List.getLast?_append_cons]
      intro hlast
      rcases List.mem_cons.mp (List.mem_of_getLast? hlast) with rfl | hmem
      · cases signed
      · rcases hchars 'Z' hmem with hdigit | hcolon <;> contradiction
    have hsplit : splitLast? isSign (clock ++ c :: cs) = some (clock, c, cs) := by
      refine splitLast?_eq_some_iff.mpr ⟨rfl, signed.isSign, fun d hd => ?_⟩
      rcases hchars d hd with hdigit | rfl
      · rw [isSign, Bool.or_eq_false_iff, decide_eq_false_iff_not, decide_eq_false_iff_not]
        constructor <;> rintro rfl <;> contradiction
      · rfl
    rw [if_neg hlast, hsplit]
    dsimp only
    rw [if_neg (Nat.not_le.mpr hclock), hsize, Option.map_some, signed.mul]

end DynamicData.OffsetDateTime
