import DynamicData.Path.Read
import DynamicData.Proofs.Parser
import DynamicData.Proofs.Path.Grammar
import DynamicData.Proofs.Text

/-!
# Reading accepts the grammar of paths

A text is read as a path if and only if the grammar derives it, and then as the steps
of the derivation. The limit on the number of steps is checked after that: a text
outside the grammar is refused as such under every limit.

A reader of one step is sound for any rest of the text. It is complete where the rest is
one that can follow a step (`Stops`), since otherwise it would read on.
-/

namespace DynamicData.Path

open Text (span_run eq_append_of_span)

/-! ## Names -/

theorem isNameChar_iff {c : Char} : isNameChar c = true ↔ c ∉ separators := by
  simp [isNameChar, separators, and_assoc]

/-- The rest of a text can follow a step. -/
def Stops (rest : List Char) : Prop :=
  ∀ c, rest.head? = some c → c = '.' ∨ c = '['

theorem Stops.not_nameChar {rest : List Char} (h : Stops rest) (c : Char)
    (hc : rest.head? = some c) : isNameChar c = false := by
  rcases h c hc with rfl | rfl <;> decide

theorem readKey_sound {cs rest : List Char} {step : Step}
    (h : readKey cs = .ok (step, rest)) : ∃ word, cs = word ++ rest ∧ NameStep word step := by
  unfold readKey at h
  cases hspan : cs.span isNameChar with
  | mk run left =>
      obtain ⟨rfl, hrun⟩ := eq_append_of_span hspan
      rw [hspan] at h
      dsimp only at h
      split at h
      · cases h
      have hchars : ∀ c ∈ run, c ∉ separators := fun c hc => isNameChar_iff.mp (hrun c hc)
      by_cases hmark : run.getLast? = some '?'
      · obtain ⟨name, rfl⟩ := List.getLast?_eq_some_iff.mp hmark
        simp only [hmark, decide_true, if_true, List.dropLast_concat] at h
        split at h
        · cases h
        · next hname =>
            cases h
            exact ⟨_, rfl, .optional hname fun c hc => hchars c (List.mem_append_left _ hc)⟩
      · simp only [hmark, decide_false, if_false] at h
        split at h
        · cases h
        · next hname =>
            cases h
            exact ⟨run, rfl, .required hname hchars hmark⟩

theorem readKey_complete {word rest : List Char} {step : Step} (h : NameStep word step)
    (hrest : Stops rest) : readKey (word ++ rest) = .ok (step, rest) := by
  have hclose : rest.head? ≠ some ']' := fun hc => by
    rcases hrest _ hc with h | h <;> cases h
  have hrun : ∀ c ∈ word, isNameChar c = true := by
    intro c hc
    cases h with
    | required nonempty run unmarked => exact isNameChar_iff.mpr (run c hc)
    | optional nonempty run =>
        rcases List.mem_append.mp hc with hc | hc
        · exact isNameChar_iff.mpr (run c hc)
        · rw [List.mem_singleton.mp hc]
          decide
  unfold readKey
  rw [span_run hrun hrest.not_nameChar]
  dsimp only
  rw [if_neg hclose]
  cases h with
  | required nonempty run unmarked => simp [unmarked, nonempty]
  | optional nonempty run => simp [nonempty]

/-! ## Indices -/

theorem readIndex_sound {cs rest : List Char} {step : Step}
    (h : readIndex cs = .ok (step, rest)) :
    ∃ word, '[' :: cs = word ++ rest ∧ IndexStep word step := by
  unfold readIndex at h
  cases hspan : cs.span Char.isDigit with
  | mk digits left =>
      obtain ⟨rfl, hdigits⟩ := eq_append_of_span hspan
      rw [hspan] at h
      dsimp only at h
      split at h
      · cases h
      next hnonempty =>
      split at h
      · cases h
      · split at h
        · cases h
        next hfits =>
        have hlt : Numeral.value digits < 2 ^ 64 := by
          unfold maxIndex at hfits
          omega
        split at h
        · cases h
          exact ⟨_, by simp, .optional hnonempty hdigits hlt⟩
        · cases h
          exact ⟨_, by simp, .required hnonempty hdigits hlt⟩
      · cases h

theorem readIndex_complete {word rest : List Char} {step : Step} (h : IndexStep word step)
    (hrest : Stops rest) :
    ∃ inside, word = '[' :: inside ∧ readIndex (inside ++ rest) = .ok (step, rest) := by
  have hclose : ∀ tail : List Char, ∀ c, (']' :: tail).head? = some c → c.isDigit = false := by
    rintro tail c hc
    cases hc
    decide
  have hfit : ∀ {digits : List Char}, Numeral.value digits < 2 ^ 64 →
      ¬ maxIndex < Numeral.value digits := by
    intro digits hlt
    unfold maxIndex
    omega
  cases h with
  | @required digits nonempty decimal fits =>
      refine ⟨_, rfl, ?_⟩
      rw [List.append_assoc, List.singleton_append]
      unfold readIndex
      rw [span_run decimal (hclose rest)]
      dsimp only
      simp only [if_neg nonempty, if_neg (hfit fits)]
      split
      · rcases hrest '?' rfl with h | h <;> cases h
      · rfl
  | @optional digits nonempty decimal fits =>
      refine ⟨_, rfl, ?_⟩
      rw [List.append_assoc]
      unfold readIndex
      rw [List.cons_append, List.singleton_append, span_run decimal (hclose ('?' :: rest))]
      dsimp only
      simp only [if_neg nonempty, if_neg (hfit fits)]

/-! ## Paths -/

theorem IndexStep.exists_cons {word : List Char} {step : Step} (h : IndexStep word step) :
    ∃ inside, word = '[' :: inside := by
  cases h <;> exact ⟨_, rfl⟩

theorem Following.stops {words : List Char} {steps : List Step} (h : Following words steps) :
    Stops words := by
  intro c hc
  cases h with
  | nil => cases hc
  | name name tail =>
      cases hc
      exact .inl rfl
  | index index tail =>
      obtain ⟨inside, rfl⟩ := index.exists_cons
      cases hc
      exact .inr rfl

theorem readSteps_sound {fuel cs : List Char} {steps : List Step}
    (h : readSteps fuel cs = .ok steps) : Following cs steps := by
  fun_induction readSteps fuel cs generalizing steps with
  | case1 =>
      cases h
      exact .nil
  | case2 => cases h
  | case3 _ fuel rest ih =>
      obtain ⟨⟨step, left⟩, hkey, h⟩ := except_bind_eq_ok.mp h
      obtain ⟨more, hmore, h⟩ := except_bind_eq_ok.mp h
      cases h
      obtain ⟨word, rfl, hname⟩ := readKey_sound hkey
      exact .name hname (ih _ hmore)
  | case4 _ fuel rest ih =>
      obtain ⟨⟨step, left⟩, hindex, h⟩ := except_bind_eq_ok.mp h
      obtain ⟨more, hmore, h⟩ := except_bind_eq_ok.mp h
      cases h
      obtain ⟨word, hword, hstep⟩ := readIndex_sound hindex
      rw [hword]
      exact .index hstep (ih _ hmore)
  | case5 => cases h

/-- The characters of the text are fuel enough, as every step takes one at least. -/
theorem readSteps_complete {cs : List Char} {steps : List Step} (h : Following cs steps)
    (fuel : List Char) (hfuel : cs.length ≤ fuel.length) :
    readSteps fuel cs = .ok steps := by
  induction h generalizing fuel with
  | nil => simp [readSteps]
  | @name word words step steps name tail ih =>
      cases fuel with
      | nil => simp at hfuel
      | cons _ fuel =>
          have hleft : words.length ≤ fuel.length := by
            simp only [List.length_cons, List.length_append] at hfuel
            omega
          rw [readSteps, readKey_complete name tail.stops]
          show (do return step :: (← readSteps fuel words)) = _
          rw [ih fuel hleft]
          rfl
  | @index word words step steps index tail ih =>
      obtain ⟨inside, rfl, hread⟩ := readIndex_complete index tail.stops
      cases fuel with
      | nil => simp at hfuel
      | cons _ fuel =>
          have hleft : words.length ≤ fuel.length := by
            simp only [List.length_cons, List.length_append] at hfuel
            omega
          rw [List.cons_append, readSteps, hread]
          show (do return step :: (← readSteps fuel words)) = _
          rw [ih fuel hleft]
          rfl

/-- A name does not begin with a bracket. -/
theorem NameStep.exists_cons {word : List Char} {step : Step} (h : NameStep word step) :
    ∃ c tail, word = c :: tail ∧ c ≠ '[' := by
  cases h with
  | @required name nonempty run unmarked =>
      obtain ⟨c, tail, rfl⟩ := List.exists_cons_of_ne_nil nonempty
      refine ⟨c, tail, rfl, fun hc => run c (List.mem_cons_self ..) ?_⟩
      simp [hc, separators]
  | @optional name nonempty run =>
      obtain ⟨c, tail, rfl⟩ := List.exists_cons_of_ne_nil nonempty
      refine ⟨c, _, rfl, fun hc => run c (List.mem_cons_self ..) ?_⟩
      simp [hc, separators]

/-- All steps of a text are read if and only if the grammar derives it. -/
theorem readAll_eq_ok_iff {cs : List Char} {steps : List Step} :
    readAll cs = .ok steps ↔ Derives cs steps := by
  rw [derives_iff]
  constructor
  · intro h
    unfold readAll at h
    split at h
    · cases h
    · next rest =>
        have hfollow := readSteps_sound h
        generalize hword : '[' :: rest = cs at hfollow
        cases hfollow with
        | nil => cases hword
        | name name tail => simp at hword
        | index index tail => exact ⟨_, _, _, _, rfl, rfl, .inr index, tail⟩
    · obtain ⟨⟨step, left⟩, hkey, h⟩ := except_bind_eq_ok.mp h
      obtain ⟨more, hmore, h⟩ := except_bind_eq_ok.mp h
      cases h
      obtain ⟨word, rfl, hname⟩ := readKey_sound hkey
      exact ⟨word, left, step, more, rfl, rfl, .inl hname, readSteps_sound hmore⟩
  · rintro ⟨word, rest, step, more, rfl, rfl, hname | hindex, htail⟩
    · have hread := readKey_complete hname htail.stops
      obtain ⟨c, tail, rfl, hc⟩ := hname.exists_cons
      rw [List.cons_append] at hread ⊢
      unfold readAll
      split
      · next heq => cases heq
      · next heq => cases heq; exact absurd rfl hc
      · rw [hread]
        show (do return step :: (← readSteps rest rest)) = _
        rw [readSteps_complete htail rest (le_refl _)]
        rfl
    · obtain ⟨inside, rfl⟩ := hindex.exists_cons
      exact readSteps_complete (.index hindex htail) _ (le_refl _)

/-- Two points in a row do not begin a name. -/
example (steps : List Step) : ¬ Derives ['a', '.', '.', 'b'] steps := by
  rw [← readAll_eq_ok_iff, show readAll ['a', '.', '.', 'b'] = .error _ from rfl]
  exact nofun

theorem parse_eq_ok_iff {s : String} {p : Path} :
    parse s = .ok p ↔ Derives s.toList p.steps := by
  rw [← readAll_eq_ok_iff]
  unfold parse
  cases readAll s.toList with
  | error f => exact ⟨nofun, nofun⟩
  | ok steps =>
      constructor
      · intro h
        cases h
        rfl
      · intro h
        cases h
        rfl

theorem eq_invalidPath_of_parse {s : String} {e : DataError} (h : parse s = .error e) :
    ∃ position reason, e = .invalidPath s position reason := by
  unfold parse at h
  cases hread : readAll s.toList with
  | ok steps =>
      rw [hread] at h
      cases h
  | error f =>
      rw [hread] at h
      cases h
      exact ⟨_, _, rfl⟩

/-- A text has one derivation at most. -/
theorem Derives.unique {words : List Char} {steps steps' : List Step} (h : Derives words steps)
    (h' : Derives words steps') : steps = steps' := by
  rw [← readAll_eq_ok_iff] at h h'
  rw [h] at h'
  exact Except.ok.inj h'

theorem read_of_derives {s : String} {steps : List Step} (h : Derives s.toList steps)
    (limits : Limits) : read limits s =
      if limits.maxPathSteps < steps.length then
        .error (.limitExceeded "path steps" limits.maxPathSteps steps.length)
      else .ok ⟨steps⟩ := by
  have hparse : parse s = .ok ⟨steps⟩ := parse_eq_ok_iff.mpr h
  unfold read
  rw [hparse]
  show (do limits.checkPathSteps steps.length; return (⟨steps⟩ : Path)) = _
  unfold Limits.checkPathSteps Limits.check
  split <;> rfl

theorem read_of_not_derives {s : String} (h : ∀ steps, ¬ Derives s.toList steps)
    (limits : Limits) : ∃ position reason,
      read limits s = .error (.invalidPath s position reason) := by
  cases hparse : parse s with
  | ok p => exact absurd (parse_eq_ok_iff.mp hparse) (h p.steps)
  | error e =>
      obtain ⟨position, reason, rfl⟩ := eq_invalidPath_of_parse hparse
      refine ⟨position, reason, ?_⟩
      unfold read
      rw [hparse]
      rfl

theorem read_eq_ok_iff {limits : Limits} {s : String} {p : Path} : read limits s = .ok p ↔
    Derives s.toList p.steps ∧ p.steps.length ≤ limits.maxPathSteps := by
  constructor
  · intro h
    by_cases hs : ∃ steps, Derives s.toList steps
    · obtain ⟨steps, hs⟩ := hs
      rw [read_of_derives hs] at h
      split at h
      · cases h
      · next hle =>
          cases h
          exact ⟨hs, Nat.le_of_not_lt hle⟩
    · obtain ⟨_, _, hinvalid⟩ := read_of_not_derives (not_exists.mp hs) limits
      rw [hinvalid] at h
      cases h
  · rintro ⟨hp, hle⟩
    rw [read_of_derives hp, if_neg (Nat.not_lt_of_le hle)]

theorem read_eq_limitExceeded_iff {limits : Limits} {s limit : String} {max actual : Nat} :
    read limits s = .error (.limitExceeded limit max actual) ↔
      limit = "path steps" ∧ max = limits.maxPathSteps ∧
        ∃ steps, Derives s.toList steps ∧ actual = steps.length ∧ max < actual := by
  constructor
  · intro h
    by_cases hs : ∃ steps, Derives s.toList steps
    · obtain ⟨steps, hs⟩ := hs
      rw [read_of_derives hs] at h
      split at h
      · next hlt =>
          cases h
          exact ⟨rfl, rfl, steps, hs, rfl, hlt⟩
      · cases h
    · obtain ⟨_, _, hinvalid⟩ := read_of_not_derives (not_exists.mp hs) limits
      rw [hinvalid] at h
      cases h
  · rintro ⟨rfl, rfl, steps, hs, rfl, hlt⟩
    rw [read_of_derives hs, if_pos hlt]

theorem read_eq_invalidPath_iff {limits : Limits} {s : String} :
    (∃ position reason, read limits s = .error (.invalidPath s position reason)) ↔
      ∀ steps, ¬ Derives s.toList steps := by
  constructor
  · rintro ⟨position, reason, h⟩ steps hs
    rw [read_of_derives hs] at h
    split at h <;> cases h
  · exact fun h => read_of_not_derives h limits

/-- A text is read if and only if the grammar derives it within the limit, and then as the
steps of its one derivation. Above the limit the error has the exact number of steps; a
text outside the grammar is invalid under every limit. -/
theorem read_exact (limits : Limits) (s : String) :
    (∀ p, read limits s = .ok p ↔
      Derives s.toList p.steps ∧ p.steps.length ≤ limits.maxPathSteps) ∧
    (∀ limit max actual, read limits s = .error (.limitExceeded limit max actual) ↔
      limit = "path steps" ∧ max = limits.maxPathSteps ∧
        ∃ steps, Derives s.toList steps ∧ actual = steps.length ∧ max < actual) ∧
    ((∃ position reason, read limits s = .error (.invalidPath s position reason)) ↔
      ∀ steps, ¬ Derives s.toList steps) ∧
    ∀ steps steps', Derives s.toList steps → Derives s.toList steps' → steps = steps' :=
  ⟨fun _ => read_eq_ok_iff, fun _ _ _ => read_eq_limitExceeded_iff, read_eq_invalidPath_iff,
    fun _ _ => Derives.unique⟩

end DynamicData.Path
