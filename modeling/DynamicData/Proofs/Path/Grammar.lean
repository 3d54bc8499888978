import DynamicData.Number.Numeral
import DynamicData.Path.Basic

/-!
# The grammar of paths

A path is a word of the grammar

    element ("." element)*   or   index+ ("." element)*

where an element is a name and the indices after it. The relations pair each word with
the steps that it stands for. A name ends where a point, a bracket or the end follows,
so its run of characters is always the longest one, and its last question mark, if it
ends with one, is the mark.

The grammar is also read from left to right, a step at a time: `Following` relates what
is left of a path after a step to the steps that it still has.
-/

namespace DynamicData.Path

/-- The characters that cannot stand in a name. -/
def separators : List Char :=
  ['.', '[', ']']

/-- A name, and the mark if the step is optional. -/
inductive NameStep : List Char → Step → Prop
  | required {name : List Char} (nonempty : name ≠ []) (run : ∀ c ∈ name, c ∉ separators)
      (unmarked : name.getLast? ≠ some '?') : NameStep name ⟨.key (String.ofList name), false⟩
  | optional {name : List Char} (nonempty : name ≠ []) (run : ∀ c ∈ name, c ∉ separators) :
      NameStep (name ++ ['?']) ⟨.key (String.ofList name), true⟩

/-- An index of 64 bits in brackets, and the mark if the step is optional. -/
inductive IndexStep : List Char → Step → Prop
  | required {digits : List Char} (nonempty : digits ≠ [])
      (decimal : ∀ c ∈ digits, c.isDigit = true) (fits : Numeral.value digits < 2 ^ 64) :
      IndexStep ('[' :: (digits ++ [']'])) ⟨.index (Numeral.value digits), false⟩
  | optional {digits : List Char} (nonempty : digits ≠ [])
      (decimal : ∀ c ∈ digits, c.isDigit = true) (fits : Numeral.value digits < 2 ^ 64) :
      IndexStep ('[' :: (digits ++ [']', '?'])) ⟨.index (Numeral.value digits), true⟩

/-- Indices, one after the other. -/
inductive Indices : List Char → List Step → Prop
  | nil : Indices [] []
  | cons {word words : List Char} {step : Step} {steps : List Step}
      (index : IndexStep word step) (tail : Indices words steps) :
      Indices (word ++ words) (step :: steps)

/-- A name and the indices after it. -/
inductive Element : List Char → List Step → Prop
  | intro {word words : List Char} {step : Step} {steps : List Step}
      (name : NameStep word step) (indices : Indices words steps) :
      Element (word ++ words) (step :: steps)

/-- Elements, each after a point. -/
inductive Elements : List Char → List Step → Prop
  | nil : Elements [] []
  | cons {word words : List Char} {steps rest : List Step} (element : Element word steps)
      (tail : Elements words rest) : Elements ('.' :: (word ++ words)) (steps ++ rest)

/-- A path, from an object or from an array. -/
inductive Derives : List Char → List Step → Prop
  | fromObject {word words : List Char} {steps rest : List Step}
      (element : Element word steps) (tail : Elements words rest) :
      Derives (word ++ words) (steps ++ rest)
  | fromArray {first more words : List Char} {step : Step} {steps rest : List Step}
      (index : IndexStep first step) (indices : Indices more steps)
      (tail : Elements words rest) : Derives (first ++ (more ++ words)) (step :: (steps ++ rest))

/-- No bracket stands in a name. -/
theorem NameStep.bracket_notMem {word : List Char} {step : Step} (h : NameStep word step) :
    '[' ∉ word := by
  intro hopen
  cases h with
  | required nonempty run unmarked => exact run '[' hopen (by decide)
  | optional nonempty run =>
      rcases List.mem_append.mp hopen with hopen | hopen
      · exact run '[' hopen (by decide)
      · cases List.mem_singleton.mp hopen

/-! ## From left to right -/

/-- What follows a step of a path: nothing, a point and a name, or an index. -/
inductive Following : List Char → List Step → Prop
  | nil : Following [] []
  | name {word words : List Char} {step : Step} {steps : List Step}
      (name : NameStep word step) (tail : Following words steps) :
      Following ('.' :: (word ++ words)) (step :: steps)
  | index {word words : List Char} {step : Step} {steps : List Step}
      (index : IndexStep word step) (tail : Following words steps) :
      Following (word ++ words) (step :: steps)

theorem Following.append {words words' : List Char} {steps steps' : List Step}
    (h : Following words steps) (h' : Following words' steps') :
    Following (words ++ words') (steps ++ steps') := by
  induction h with
  | nil => exact h'
  | name name tail ih =>
      rw [List.cons_append, List.append_assoc]
      exact .name name ih
  | index index tail ih =>
      rw [List.append_assoc]
      exact .index index ih

theorem Indices.following {words : List Char} {steps : List Step} (h : Indices words steps) :
    Following words steps := by
  induction h with
  | nil => exact .nil
  | cons index tail ih => exact .index index ih

theorem Elements.following {words : List Char} {steps : List Step} (h : Elements words steps) :
    Following words steps := by
  induction h with
  | nil => exact .nil
  | cons element tail ih =>
      cases element with
      | intro name indices =>
          rw [List.append_assoc]
          exact .name name (indices.following.append ih)

/-- What follows a step falls into the indices that come first and the elements after
them. -/
theorem Following.exists_split {words : List Char} {steps : List Step}
    (h : Following words steps) : ∃ indexWord elementWord indexSteps elementSteps,
      words = indexWord ++ elementWord ∧ steps = indexSteps ++ elementSteps ∧
        Indices indexWord indexSteps ∧ Elements elementWord elementSteps := by
  induction h with
  | nil => exact ⟨[], [], [], [], rfl, rfl, .nil, .nil⟩
  | name name tail ih =>
      -- a point starts an element, which takes the indices that follow the name
      obtain ⟨iw, ew, is, es, rfl, rfl, hi, he⟩ := ih
      refine ⟨[], _, [], _, rfl, rfl, .nil, ?_⟩
      rw [← List.append_assoc, ← List.cons_append]
      exact .cons (.intro name hi) he
  | index index tail ih =>
      obtain ⟨iw, ew, is, es, rfl, rfl, hi, he⟩ := ih
      exact ⟨_, ew, _, es, (List.append_assoc ..).symm, rfl, .cons index hi, he⟩

/-- A path is a step and what follows it. -/
theorem derives_iff {words : List Char} {steps : List Step} :
    Derives words steps ↔ ∃ word rest step more, words = word ++ rest ∧ steps = step :: more ∧
      (NameStep word step ∨ IndexStep word step) ∧ Following rest more := by
  constructor
  · intro h
    cases h with
    | fromObject element tail =>
        cases element with
        | intro name indices =>
            exact ⟨_, _, _, _, List.append_assoc .., rfl, .inl name,
              indices.following.append tail.following⟩
    | fromArray index indices tail =>
        exact ⟨_, _, _, _, rfl, rfl, .inr index, indices.following.append tail.following⟩
  · rintro ⟨word, rest, step, more, rfl, rfl, hstep, hrest⟩
    obtain ⟨iw, ew, is, es, rfl, rfl, hi, he⟩ := hrest.exists_split
    rcases hstep with hname | hindex
    · rw [← List.append_assoc]
      exact .fromObject (.intro hname hi) he
    · exact .fromArray hindex hi he

end DynamicData.Path
