import DynamicData.Proofs.Number.Numeral
import DynamicData.Proofs.Path.Exact
import Mathlib.Logic.Relation

/-!
# The canonical text of a path

Of all texts of a path the one that is written has no zero in front of the digits of an
index, and it is the text that is left of any other one when these zeros are dropped. So
two texts are the same path if and only if they differ in such zeros only.

Dropping a zero is a relation between texts (`DropsZero`) that knows nothing of steps.
`trimmed` computes its normal form from left to right, and along a derivation the normal
form of a text is the text of its steps.
-/

namespace DynamicData.Path

open Relation

/-! ## Zeros that can be dropped -/

/-- The second text is the first without a zero that follows an opening bracket and that a
digit follows. -/
inductive DropsZero : List Char → List Char → Prop
  | intro (before after : List Char) {digit : Char} (decimal : digit.isDigit = true) :
      DropsZero (before ++ '[' :: '0' :: digit :: after) (before ++ '[' :: digit :: after)

theorem DropsZero.cons {cs ds : List Char} (h : DropsZero cs ds) (c : Char) :
    DropsZero (c :: cs) (c :: ds) := by
  cases h with
  | intro before after decimal => exact .intro (c :: before) after decimal

theorem DropsZero.length_eq {cs ds : List Char} (h : DropsZero cs ds) :
    cs.length = ds.length + 1 := by
  cases h
  simp only [List.length_append, List.length_cons]
  omega

/-- Dropping zeros behind a character drops zeros of the whole text. -/
theorem reflTransGen_cons {cs ds : List Char} (h : ReflTransGen DropsZero cs ds) (c : Char) :
    ReflTransGen DropsZero (c :: cs) (c :: ds) :=
  ReflTransGen.lift (List.cons c) (fun _ _ h => h.cons c) _ _ h

theorem length_le_of_reflTransGen {cs ds : List Char} (h : ReflTransGen DropsZero cs ds) :
    ds.length ≤ cs.length := by
  induction h with
  | refl => exact Nat.le_refl _
  | tail _ hlast ih =>
      have hone := hlast.length_eq
      omega

/-! ## The text without them -/

/-- A zero is redundant in front of a text that starts with a digit. -/
def startsWithDigit (cs : List Char) : Bool :=
  cs.head?.any Char.isDigit

/-- The text without its redundant zeros; `atIndex` if an opening bracket stands before it. -/
def trimmed (atIndex : Bool) : List Char → List Char
  | [] => []
  | c :: rest =>
    if atIndex = true ∧ c = '0' ∧ startsWithDigit rest = true then trimmed true rest
    else c :: trimmed (c == '[') rest

theorem trimmed_open (atIndex : Bool) (rest : List Char) :
    trimmed atIndex ('[' :: rest) = '[' :: trimmed true rest := by
  rw [trimmed, if_neg (by rintro ⟨-, h, -⟩; cases h)]
  rfl

/-- A zero that can be dropped is none that is left. -/
theorem DropsZero.trimmed_eq {cs ds : List Char} (h : DropsZero cs ds) (atIndex : Bool) :
    trimmed atIndex cs = trimmed atIndex ds := by
  cases h with
  | @intro before after digit decimal =>
      induction before generalizing atIndex with
      | nil =>
          rw [List.nil_append, List.nil_append, trimmed_open, trimmed_open, trimmed,
            if_pos ⟨rfl, rfl, decimal⟩]
      | cons c before ih =>
          -- the next character is the same in both texts
          have hnext : startsWithDigit (before ++ '[' :: '0' :: digit :: after) =
              startsWithDigit (before ++ '[' :: digit :: after) := by
            cases before <;> rfl
          rw [List.cons_append, List.cons_append, trimmed, trimmed, hnext, ih, ih]

/-- A text becomes its trimmed form by dropping zeros, also behind an opening bracket. -/
theorem reflTransGen_trimmed_both (cs : List Char) :
    ReflTransGen DropsZero cs (trimmed false cs) ∧
      ReflTransGen DropsZero ('[' :: cs) ('[' :: trimmed true cs) := by
  induction cs with
  | nil => exact ⟨.refl, .refl⟩
  | cons c rest ih =>
      have hkept : ReflTransGen DropsZero (c :: rest) (c :: trimmed (c == '[') rest) := by
        by_cases hc : c = '['
        · rw [hc]
          exact ih.2
        · rw [beq_false_of_ne hc]
          exact reflTransGen_cons ih.1 c
      constructor
      · rw [trimmed, if_neg (by rintro ⟨h, -⟩; cases h)]
        exact hkept
      · rw [trimmed]
        split
        · next h =>
            obtain ⟨-, rfl, hdigit⟩ := h
            cases rest with
            | nil => cases hdigit
            | cons digit rest => exact .head (.intro [] rest hdigit) ih.2
        · exact reflTransGen_cons hkept '['

theorem reflTransGen_trimmed (cs : List Char) : ReflTransGen DropsZero cs (trimmed false cs) :=
  (reflTransGen_trimmed_both cs).1

theorem trimmed_eq_of_reflTransGen {cs ds : List Char} (h : ReflTransGen DropsZero cs ds) :
    trimmed false cs = trimmed false ds := by
  induction h with
  | refl => rfl
  | tail _ hlast ih => rw [ih, hlast.trimmed_eq]

/-- No zero can be dropped from a trimmed text. -/
theorem not_dropsZero_trimmed (cs ds : List Char) : ¬ DropsZero (trimmed false cs) ds := by
  intro h
  have hback : trimmed false ds = trimmed false cs := by
    rw [← h.trimmed_eq, ← trimmed_eq_of_reflTransGen (reflTransGen_trimmed cs)]
  have hlength := length_le_of_reflTransGen (reflTransGen_trimmed ds)
  have hone := h.length_eq
  rw [hback] at hlength
  omega

/-- Two texts differ in redundant zeros only if and only if they are trimmed to the same. -/
theorem eqvGen_dropsZero_iff {cs ds : List Char} :
    EqvGen DropsZero cs ds ↔ trimmed false cs = trimmed false ds := by
  constructor
  · intro h
    induction h with
    | rel _ _ h => exact h.trimmed_eq false
    | refl _ => rfl
    | symm _ _ _ ih => exact ih.symm
    | trans _ _ _ _ _ ih₁ ih₂ => exact ih₁.trans ih₂
  · intro h
    have hcs := EqvGen.reflTransGen_le_eqvGen _ _ _ (reflTransGen_trimmed cs)
    have hds := EqvGen.reflTransGen_le_eqvGen _ _ _ (reflTransGen_trimmed ds)
    rw [h] at hcs
    exact .trans _ _ _ hcs (.symm _ _ hds)

/-! ## The text of the steps -/

/-- Outside of an index every character is kept, and none but a bracket opens one. -/
theorem trimmed_cons {c : Char} (hc : c ≠ '[') (rest : List Char) :
    trimmed false (c :: rest) = c :: trimmed false rest := by
  rw [trimmed, if_neg (by rintro ⟨h, -⟩; cases h), beq_false_of_ne hc]

theorem trimmed_append {word : List Char} (hword : '[' ∉ word) (rest : List Char) :
    trimmed false (word ++ rest) = word ++ trimmed false rest := by
  induction word with
  | nil => rfl
  | cons c word ih =>
      have hc : c ≠ '[' := fun h => hword (h ▸ List.mem_cons_self)
      rw [List.cons_append, trimmed_cons hc, ih fun h => hword (List.mem_cons_of_mem c h)]
      rfl

/-- The digits of an index are trimmed to those that its value is written with. -/
theorem trimmed_digits {c : Char} {cs : List Char} (hdecimal : ∀ d ∈ c :: cs, d.isDigit = true)
    (rest : List Char) : trimmed true (c :: cs ++ ']' :: rest) =
      Nat.toDigits 10 (Numeral.value (c :: cs)) ++ ']' :: trimmed false rest := by
  induction cs generalizing c with
  | nil =>
      rw [Numeral.toDigits_value hdecimal fun _ => rfl]
      show trimmed true (c :: ']' :: rest) = c :: ']' :: trimmed false rest
      have hc : c ≠ '[' := by
        rintro rfl
        exact absurd (hdecimal '[' List.mem_cons_self) (by decide)
      rw [trimmed, if_neg (by rintro ⟨-, -, h⟩; cases h), beq_false_of_ne hc]
      exact congrArg (c :: ·) (trimmed_cons (by decide) rest)
  | cons d cs ih =>
      have htail : ∀ e ∈ d :: cs, e.isDigit = true :=
        fun e he => hdecimal e (List.mem_cons_of_mem c he)
      have hd : startsWithDigit (d :: cs ++ ']' :: rest) = true := htail d List.mem_cons_self
      by_cases hc : c = '0'
      · have hvalue : Numeral.value ('0' :: d :: cs) = Numeral.value (d :: cs) :=
          Numeral.value_zeros_append 1 (d :: cs)
        rw [List.cons_append, trimmed, if_pos ⟨rfl, hc, hd⟩, ih htail, hc, hvalue]
      · -- the digits after a significant one are not at the start of an index
        have hkept : '[' ∉ c :: d :: cs ++ [']'] := by
          intro h
          rcases List.mem_append.mp h with h | h
          · exact absurd (hdecimal '[' h) (by decide)
          · cases List.mem_singleton.mp h
        have hsplit : c :: d :: cs ++ ']' :: rest = (c :: d :: cs ++ [']']) ++ rest := by
          rw [List.append_assoc, List.singleton_append]
        have hfirst : trimmed true (c :: (d :: cs ++ ']' :: rest)) =
            trimmed false (c :: (d :: cs ++ ']' :: rest)) := by
          rw [trimmed, trimmed, if_neg fun h => hc h.2.1, if_neg fun h => hc h.2.1]
        rw [Numeral.toDigits_value hdecimal fun h => absurd h hc, List.cons_append, hfirst,
          ← List.cons_append, hsplit, trimmed_append hkept, List.append_assoc,
          List.singleton_append]

/-- A name is written as it was. -/
theorem NameStep.firstText_eq {word : List Char} {step : Step} (h : NameStep word step) :
    step.firstText.toList = word ∧ step.text.toList = '.' :: word := by
  cases h <;> simp [Step.firstText, Step.text, Step.mark]

theorem NameStep.trimmed_append {word : List Char} {step : Step} (h : NameStep word step)
    (rest : List Char) : trimmed false (word ++ rest) = word ++ trimmed false rest :=
  Path.trimmed_append h.bracket_notMem rest

theorem trimmed_index {digits : List Char} (nonempty : digits ≠ [])
    (decimal : ∀ c ∈ digits, c.isDigit = true) (rest : List Char) :
    trimmed false ('[' :: (digits ++ ']' :: rest)) =
      '[' :: (Nat.toDigits 10 (Numeral.value digits) ++ ']' :: trimmed false rest) := by
  obtain ⟨c, cs, rfl⟩ := List.exists_cons_of_ne_nil nonempty
  rw [trimmed_open, trimmed_digits decimal]

theorem toList_text_index (i : Nat) (isOptional : Bool) :
    (Step.text ⟨.index i, isOptional⟩).toList =
      '[' :: (Nat.toDigits 10 i ++ ']' :: if isOptional then ['?'] else []) := by
  cases isOptional <;> simp [Step.text, Step.mark]

/-- An index is trimmed to what it is written as, which is an index of the same step. -/
theorem IndexStep.canonical {word : List Char} {step : Step} (h : IndexStep word step) :
    step.firstText = step.text ∧ IndexStep step.text.toList step ∧
      ∀ rest, trimmed false (word ++ rest) = step.text.toList ++ trimmed false rest := by
  have hdecimal : ∀ n, ∀ c ∈ Nat.toDigits 10 n, c.isDigit = true :=
    fun n c => Numeral.isDigit_of_mem_toDigits
  cases h with
  | @required digits nonempty decimal fits =>
      have hstep := IndexStep.required Nat.toDigits_ne_nil (hdecimal (Numeral.value digits))
        (by rw [Numeral.value_toDigits]; exact fits)
      rw [Numeral.value_toDigits] at hstep
      refine ⟨rfl, toList_text_index _ false ▸ hstep, fun rest => ?_⟩
      rw [toList_text_index, List.cons_append, List.append_assoc, List.singleton_append,
        trimmed_index nonempty decimal]
      simp
  | @optional digits nonempty decimal fits =>
      have hstep := IndexStep.optional Nat.toDigits_ne_nil (hdecimal (Numeral.value digits))
        (by rw [Numeral.value_toDigits]; exact fits)
      rw [Numeral.value_toDigits] at hstep
      refine ⟨rfl, toList_text_index _ true ▸ hstep, fun rest => ?_⟩
      have hmark : trimmed false ('?' :: rest) = '?' :: trimmed false rest :=
        trimmed_cons (by decide) rest
      have hword : '[' :: (digits ++ [']', '?']) ++ rest = '[' :: (digits ++ ']' :: '?' :: rest) := by
        simp
      rw [toList_text_index, hword, trimmed_index nonempty decimal, hmark]
      simp

/-- The steps after the first, as they are written. -/
def chars (steps : List Step) : List Char :=
  steps.flatMap fun step => step.text.toList

theorem toList_text (first : Step) (rest : List Step) :
    (text ⟨first :: rest⟩).toList = first.firstText.toList ++ chars rest := by
  show (first.firstText ++ String.join (rest.map Step.text)).toList = _
  rw [String.toList_append, String.toList_join, List.flatMap_map]
  rfl

theorem Following.canonical {words : List Char} {steps : List Step} (h : Following words steps) :
    trimmed false words = chars steps ∧ Following (chars steps) steps := by
  induction h with
  | nil => exact ⟨rfl, .nil⟩
  | @name word words step steps name tail ih =>
      have hpoint : trimmed false ('.' :: (word ++ words)) = '.' :: trimmed false (word ++ words) :=
        trimmed_cons (by decide) _
      have hchars : chars (step :: steps) = '.' :: (word ++ chars steps) := by
        rw [chars, List.flatMap_cons, name.firstText_eq.2]
        rfl
      rw [hpoint, name.trimmed_append, ih.1, hchars]
      exact ⟨rfl, .name name ih.2⟩
  | @index word words step steps index tail ih =>
      obtain ⟨-, hstep, htrim⟩ := index.canonical
      rw [htrim, ih.1]
      exact ⟨rfl, .index hstep ih.2⟩

/-- The text of a path is trimmed from any text of it, and is one itself. -/
theorem Derives.canonical {s : String} {p : Path} (h : Derives s.toList p.steps) :
    trimmed false s.toList = p.text.toList ∧ Derives p.text.toList p.steps := by
  obtain ⟨steps⟩ := p
  obtain ⟨word, rest, step, more, hs, rfl, hstep, htail⟩ := derives_iff.mp h
  obtain ⟨hrest, hmore⟩ := htail.canonical
  rw [hs, toList_text, derives_iff]
  rcases hstep with hname | hindex
  · obtain ⟨hfirst, -⟩ := hname.firstText_eq
    rw [hname.trimmed_append, hrest, hfirst]
    exact ⟨rfl, word, _, step, more, rfl, rfl, .inl hname, hmore⟩
  · obtain ⟨hfirst, hcanonical, htrim⟩ := hindex.canonical
    rw [htrim, hrest, hfirst]
    exact ⟨rfl, _, _, step, more, rfl, rfl, .inr hcanonical, hmore⟩

theorem read_text {limits : Limits} {s : String} {p : Path} (hp : read limits s = .ok p) :
    read limits p.text = .ok p := by
  obtain ⟨hderives, hle⟩ := read_eq_ok_iff.mp hp
  exact read_eq_ok_iff.mpr ⟨hderives.canonical.2, hle⟩

theorem trimmed_eq_text {limits : Limits} {s : String} {p : Path}
    (hp : read limits s = .ok p) : trimmed false s.toList = p.text.toList :=
  (read_eq_ok_iff.mp hp).1.canonical.1

/-- A text is at most one path, whatever the limits. -/
theorem read_unique {limits limits' : Limits} {s : String} {p q : Path}
    (hp : read limits s = .ok p) (hq : read limits' s = .ok q) : p = q := by
  have hsteps := (read_eq_ok_iff.mp hp).1.unique (read_eq_ok_iff.mp hq).1
  cases p
  cases q
  exact congrArg Path.mk hsteps

theorem eq_iff_text_eq {limits limits' : Limits} {s t : String} {p q : Path}
    (hp : read limits s = .ok p) (hq : read limits' t = .ok q) : p = q ↔ p.text = q.text := by
  constructor
  · exact congrArg text
  · intro h
    have hptext := read_text hp
    rw [h] at hptext
    exact read_unique hptext (read_text hq)

/-- The text of a path that has been read is what is left of the text that was read when all
redundant zeros are dropped. It is read as the same path under the same limits, and whatever
it is read as has it for its text. Two texts that are read are the same path if and only if
they differ in redundant zeros only. -/
theorem text_canonical {limits : Limits} {s : String} {p : Path} (hp : read limits s = .ok p) :
    (ReflTransGen DropsZero s.toList p.text.toList ∧ ∀ cs, ¬ DropsZero p.text.toList cs) ∧
    read limits p.text = .ok p ∧
    (∀ limits' q, read limits' p.text = .ok q → q.text = p.text) ∧
    ∀ limits' t q, read limits' t = .ok q →
      (p = q ↔ EqvGen DropsZero s.toList t.toList) := by
  have htrim := trimmed_eq_text hp
  have htext := read_text hp
  refine ⟨⟨?_, fun cs => ?_⟩, htext, fun limits' q hq => ?_, fun limits' t q hq => ?_⟩
  · rw [← htrim]
    exact reflTransGen_trimmed s.toList
  · rw [← htrim]
    exact not_dropsZero_trimmed s.toList cs
  · rw [read_unique htext hq]
  · rw [eq_iff_text_eq hp hq, eqvGen_dropsZero_iff, htrim, trimmed_eq_text hq, String.toList_inj]

/-- An index with two zeros too many after a name that is nothing but question marks, and an
index that is zero however often it is written. -/
theorem text_canonical_zeros :
    let p : Path := ⟨[⟨.key "?", true⟩, ⟨.index 7, true⟩, ⟨.key "b?", true⟩, ⟨.index 0, false⟩]⟩
    read .standard "??[007]?.b??[00]" = .ok p ∧ p.text = "??[7]?.b??[0]" ∧
      ReflTransGen DropsZero "??[007]?.b??[00]".toList p.text.toList ∧
      read .standard p.text = .ok p ∧
      EqvGen DropsZero "??[007]?.b??[00]".toList "??[07]?.b??[0000]".toList := by
  intro p
  have hp : read .standard "??[007]?.b??[00]" = .ok p := by rfl
  have hq : read .strict "??[07]?.b??[0000]" = .ok p := by rfl
  obtain ⟨⟨hdrops, -⟩, hread, -, hsame⟩ := text_canonical hp
  exact ⟨hp, by rfl, hdrops, hread, (hsame _ _ p hq).mp rfl⟩

end DynamicData.Path
