import DynamicData.Proofs.Number.Numeral
import DynamicData.Proofs.Path.Exact

/-!
# Where the reading of a path fails

The error of a text that is not a path has the text and a position in it. The position is
one between two characters, and up to there the text is one that a path may begin with.

There is one exception. The digits of an index are read to their end before their value is
looked at, so a fault right after them can be found first although they are out of range
already. No path begins like that.
-/

namespace DynamicData.Path

open Text (eq_append_of_span)

/-! ## Beginnings of paths -/

/-- A path may begin with the text. -/
def Begins (before : List Char) : Prop :=
  ∃ after steps, Derives (before ++ after) steps

/-- What follows a step may begin with the text. -/
def Continues (before : List Char) : Prop :=
  ∃ after steps, Following (before ++ after) steps

/-- The text ends in the digits of an index that is out of range. -/
def EndsTooLarge (before : List Char) : Prop :=
  ∃ front digits, before = front ++ '[' :: digits ∧ (∀ c ∈ digits, c.isDigit = true) ∧
    2 ^ 64 ≤ Numeral.value digits

theorem EndsTooLarge.append_left {before : List Char} (h : EndsTooLarge before)
    (front : List Char) : EndsTooLarge (front ++ before) := by
  obtain ⟨front', digits, rfl, hdigits⟩ := h
  exact ⟨front ++ front', digits, (List.append_assoc ..).symm, hdigits⟩

/-- Nothing more, after which a path may end. -/
theorem Continues.nil : Continues [] :=
  ⟨[], [], .nil⟩

theorem Continues.name {word before : List Char} {step : Step} (name : NameStep word step)
    (h : Continues before) : Continues ('.' :: (word ++ before)) := by
  obtain ⟨after, steps, h⟩ := h
  refine ⟨after, step :: steps, ?_⟩
  rw [List.cons_append, List.append_assoc]
  exact .name name h

theorem Continues.index {word before : List Char} {step : Step} (index : IndexStep word step)
    (h : Continues before) : Continues (word ++ before) := by
  obtain ⟨after, steps, h⟩ := h
  refine ⟨after, step :: steps, ?_⟩
  rw [List.append_assoc]
  exact .index index h

/-- A path from an object begins with a name, without a point. -/
theorem Continues.begins_name {word before : List Char} {step : Step}
    (name : NameStep word step) (h : Continues before) : Begins (word ++ before) := by
  obtain ⟨after, steps, h⟩ := h
  exact ⟨after, _, derives_iff.mpr
    ⟨word, before ++ after, step, steps, List.append_assoc .., rfl, .inl name, h⟩⟩

/-- A path from an array begins as one that goes on with an index. -/
theorem Continues.begins_bracket {before : List Char} (h : Continues ('[' :: before)) :
    Begins ('[' :: before) := by
  obtain ⟨after, steps, h⟩ := h
  generalize hwords : '[' :: before ++ after = words at h
  cases h with
  | nil => cases hwords
  | name name tail => cases hwords
  | index index tail =>
      exact ⟨after, _, hwords ▸ derives_iff.mpr ⟨_, _, _, _, rfl, rfl, .inr index, tail⟩⟩

/-! ## Where one step fails -/

/-- A key fails at its start or at a bracket after characters of a name. -/
theorem readKey_fault {cs : List Char} {f : Fault} (h : readKey cs = .error f) :
    ∃ run, cs = run ++ f.rest ∧ ∀ c ∈ run, c ∉ separators := by
  unfold readKey at h
  cases hspan : cs.span isNameChar with
  | mk run rest =>
      obtain ⟨hcs, hrun⟩ := eq_append_of_span hspan
      rw [hspan] at h
      dsimp only at h
      split at h
      · cases h
        exact ⟨run, hcs, fun c hc => isNameChar_iff.mp (hrun c hc)⟩
      -- with the mark or without it, a key that has no name fails at its start
      split at h
      all_goals
        split at h
        · cases h
          exact ⟨[], rfl, fun _ hc => absurd hc List.not_mem_nil⟩
        · cases h

/-- An index fails at its start or after its digits. -/
theorem readIndex_fault {cs : List Char} {f : Fault} (h : readIndex cs = .error f) :
    ∃ digits, cs = digits ++ f.rest ∧ ∀ c ∈ digits, c.isDigit = true := by
  unfold readIndex at h
  cases hspan : cs.span Char.isDigit with
  | mk digits rest =>
      obtain ⟨hcs, hdigits⟩ := eq_append_of_span hspan
      rw [hspan] at h
      dsimp only at h
      split at h
      · next hempty =>
          cases h
          exact ⟨digits, hcs, hdigits⟩
      split at h
      · cases h
        exact ⟨digits, hcs, hdigits⟩
      · split at h
        · -- the value is looked at last, and reported at the first digit
          cases h
          exact ⟨[], rfl, fun _ hc => absurd hc List.not_mem_nil⟩
        · split at h <;> cases h
      · cases h
        exact ⟨digits, hcs, hdigits⟩

/-- Characters of a name are one with a letter more. -/
theorem exists_nameStep {run : List Char} (hrun : ∀ c ∈ run, c ∉ separators) :
    ∃ after step, NameStep (run ++ after) step := by
  refine ⟨['x'], _, .required (by simp) (fun c hc => ?_) (by simp)⟩
  rcases List.mem_append.mp hc with hc | hc
  · exact hrun c hc
  · rw [List.mem_singleton.mp hc]
    decide

/-- Digits in range are an index with the bracket that closes it, or with a zero before that
where there is none yet. -/
theorem exists_indexStep {digits : List Char} (hdigits : ∀ c ∈ digits, c.isDigit = true)
    (hfits : Numeral.value digits < 2 ^ 64) :
    ∃ after step, IndexStep ('[' :: (digits ++ after)) step := by
  cases digits with
  | nil =>
      have hzero : IndexStep ['[', '0', ']'] _ :=
        .required (List.cons_ne_nil '0' []) (by simp) (by decide)
      exact ⟨['0', ']'], _, hzero⟩
  | cons c digits => exact ⟨[']'], _, .required (List.cons_ne_nil c digits) hdigits hfits⟩

/-! ## Where a path fails -/

/-- The steps after a step fail where a path may go on, or after an index out of range. -/
theorem readSteps_fault {fuel cs : List Char} {f : Fault} (h : readSteps fuel cs = .error f) :
    ∃ before, cs = before ++ f.rest ∧ (Continues before ∨ EndsTooLarge before) := by
  fun_induction readSteps fuel cs with
  | case1 => cases h
  | case2 c rest =>
      cases h
      exact ⟨[], rfl, .inl .nil⟩
  | case3 _ fuel rest ih =>
      rcases except_bind_eq_error.mp h with hkey | ⟨⟨step, left⟩, hkey, hleft⟩
      · obtain ⟨run, hrest, hrun⟩ := readKey_fault hkey
        obtain ⟨after, step, hname⟩ := exists_nameStep hrun
        refine ⟨'.' :: run, congrArg ('.' :: ·) hrest, .inl ⟨after, [step], ?_⟩⟩
        simpa using Following.name hname .nil
      · obtain ⟨word, rfl, hname⟩ := readKey_sound hkey
        rcases except_bind_eq_error.mp hleft with hmore | ⟨_, -, hpure⟩
        · obtain ⟨before, rfl, hbefore⟩ := ih _ hmore
          refine ⟨'.' :: (word ++ before), by simp, ?_⟩
          rcases hbefore with hbefore | hbefore
          · exact .inl (.name hname hbefore)
          · exact .inr (hbefore.append_left ('.' :: word))
        · cases hpure
  | case4 _ fuel rest ih =>
      rcases except_bind_eq_error.mp h with hindex | ⟨⟨step, left⟩, hindex, hleft⟩
      · obtain ⟨digits, hrest, hdigits⟩ := readIndex_fault hindex
        refine ⟨'[' :: digits, congrArg ('[' :: ·) hrest, ?_⟩
        by_cases hfits : Numeral.value digits < 2 ^ 64
        · obtain ⟨after, step, hstep⟩ := exists_indexStep hdigits hfits
          refine .inl ⟨after, [step], ?_⟩
          simpa using Following.index hstep .nil
        · exact .inr ⟨[], digits, rfl, hdigits, Nat.le_of_not_lt hfits⟩
      · obtain ⟨word, hword, hstep⟩ := readIndex_sound hindex
        rcases except_bind_eq_error.mp hleft with hmore | ⟨_, -, hpure⟩
        · obtain ⟨before, rfl, hbefore⟩ := ih _ hmore
          refine ⟨word ++ before, by rw [hword, List.append_assoc], ?_⟩
          rcases hbefore with hbefore | hbefore
          · exact .inl (.index hstep hbefore)
          · exact .inr (hbefore.append_left word)
        · cases hpure
  | case5 _ c rest =>
      cases h
      exact ⟨[], rfl, .inl .nil⟩

/-- A path may begin with any characters of a name. -/
theorem begins_of_run {run : List Char} (hrun : ∀ c ∈ run, c ∉ separators) : Begins run := by
  obtain ⟨after, step, hname⟩ := exists_nameStep hrun
  refine ⟨after, [step], derives_iff.mpr ⟨run ++ after, [], step, [], ?_, rfl, .inl hname, .nil⟩⟩
  rw [List.append_nil]

/-- A path fails where one may go on, or after an index out of range. -/
theorem readAll_fault {cs : List Char} {f : Fault} (h : readAll cs = .error f) :
    ∃ before, cs = before ++ f.rest ∧ (Begins before ∨ EndsTooLarge before) := by
  unfold readAll at h
  split at h
  · cases h
    exact ⟨[], rfl, .inl (begins_of_run (by simp))⟩
  · next rest =>
      obtain ⟨before, hcs, hbefore⟩ := readSteps_fault h
      refine ⟨before, hcs, hbefore.imp_left fun hgoes => ?_⟩
      cases before with
      | nil => exact begins_of_run (by simp)
      | cons c before =>
          cases hcs
          exact hgoes.begins_bracket
  · rcases except_bind_eq_error.mp h with hkey | ⟨⟨step, left⟩, hkey, hleft⟩
    · obtain ⟨run, hcs, hrun⟩ := readKey_fault hkey
      exact ⟨run, hcs, .inl (begins_of_run hrun)⟩
    · obtain ⟨word, rfl, hname⟩ := readKey_sound hkey
      rcases except_bind_eq_error.mp hleft with hmore | ⟨_, -, hpure⟩
      · obtain ⟨before, rfl, hbefore⟩ := readSteps_fault hmore
        refine ⟨word ++ before, (List.append_assoc ..).symm, ?_⟩
        rcases hbefore with hbefore | hbefore
        · exact .inl (hbefore.begins_name hname)
        · exact .inr (hbefore.append_left word)
      · cases hpure

/-! ## No path goes on from an index out of range -/

/-- A word without a bracket ends before the first one of the text. -/
theorem exists_front_of_bracket_notMem {word words front rest : List Char} (hword : '[' ∉ word)
    (h : word ++ words = front ++ '[' :: rest) :
    ∃ front', front = word ++ front' ∧ words = front' ++ '[' :: rest := by
  rcases List.append_eq_append_iff.mp h with ⟨front', hfront, hwords⟩ | ⟨tail, rfl, hrest⟩
  · exact ⟨front', hfront, hwords⟩
  · cases tail with
    | nil => exact ⟨[], by simp, hrest.symm⟩
    | cons c tail =>
        cases hrest
        exact absurd (by simp) hword

theorem IndexStep.exists_digits {word : List Char} {step : Step} (h : IndexStep word step) :
    ∃ digits mark, word = '[' :: (digits ++ ']' :: mark) ∧ '[' ∉ digits ++ ']' :: mark ∧
      (∀ c ∈ digits, c.isDigit = true) ∧ Numeral.value digits < 2 ^ 64 := by
  have hdigit : ∀ {digits : List Char}, (∀ c ∈ digits, c.isDigit = true) → '[' ∉ digits :=
    fun decimal hopen => absurd (decimal '[' hopen) (by decide)
  cases h with
  | required nonempty decimal fits =>
      exact ⟨_, [], rfl, by simp [hdigit decimal], decimal, fits⟩
  | optional nonempty decimal fits =>
      exact ⟨_, ['?'], rfl, by simp [hdigit decimal], decimal, fits⟩

/-- Every bracket in what follows a step opens an index in range. -/
theorem Following.exists_digits {words : List Char} {steps : List Step}
    (h : Following words steps) {front rest : List Char} (hwords : words = front ++ '[' :: rest) :
    ∃ digits tail, rest = digits ++ ']' :: tail ∧ (∀ c ∈ digits, c.isDigit = true) ∧
      Numeral.value digits < 2 ^ 64 := by
  induction h generalizing front with
  | nil => simp at hwords
  | @name word words step steps name tail ih =>
      have hword : '[' ∉ '.' :: word := by simp [name.bracket_notMem]
      obtain ⟨front', -, hleft⟩ := exists_front_of_bracket_notMem hword hwords
      exact ih hleft
  | @index word words step steps index tail ih =>
      obtain ⟨digits, mark, rfl, hopen, hdigits, hfits⟩ := index.exists_digits
      cases front with
      | nil =>
          cases hwords
          exact ⟨digits, mark ++ words, by simp, hdigits, hfits⟩
      | cons c front =>
          -- the bracket is not the one that opens this index, so it stands further on
          obtain ⟨-, hinside⟩ := List.cons.inj hwords
          obtain ⟨front', -, hleft⟩ := exists_front_of_bracket_notMem hopen hinside
          exact ih hleft

/-- A path follows a step, after a point where it starts with a name. -/
theorem Derives.exists_following {words : List Char} {steps : List Step}
    (h : Derives words steps) : ∃ point, Following (point ++ words) steps := by
  obtain ⟨word, rest, step, more, rfl, rfl, hname | hindex, hrest⟩ := derives_iff.mp h
  · have hname := Following.name hname hrest
    exact ⟨['.'], hname⟩
  · have hindex := Following.index hindex hrest
    exact ⟨[], hindex⟩

theorem EndsTooLarge.not_begins {before : List Char} (h : EndsTooLarge before) :
    ¬ Begins before := by
  obtain ⟨front, digits, rfl, hdigits, hlarge⟩ := h
  rintro ⟨after, steps, hpath⟩
  obtain ⟨point, hfollow⟩ := hpath.exists_following
  have hwords : point ++ (front ++ '[' :: digits ++ after) =
      (point ++ front) ++ '[' :: (digits ++ after) := by simp
  obtain ⟨digits', tail, hrest, hdigits', hfits⟩ := hfollow.exists_digits hwords
  -- the index that the bracket opens has all of the digits, so it is not smaller
  have hclose : ']' ∉ digits := fun hmem => absurd (hdigits ']' hmem) (by decide)
  rcases List.append_eq_append_iff.mp hrest with ⟨more, rfl, -⟩ | ⟨more, rfl, hmore⟩
  · have := Numeral.value_le_value_append digits more
    omega
  · cases more with
    | nil =>
        rw [List.append_nil] at hlarge
        omega
    | cons c more =>
        cases hmore
        exact hclose (by simp)

/-! ## The position of the fault -/

theorem byteLength_append (cs ds : List Char) :
    byteLength (cs ++ ds) = byteLength cs + byteLength ds := by
  induction cs with
  | nil => exact (Nat.zero_add _).symm
  | cons c cs ih =>
      show c.utf8Size + byteLength (cs ++ ds) = _
      rw [ih, ← Nat.add_assoc]
      rfl

theorem utf8ByteSize_ofList (cs : List Char) :
    (String.ofList cs).utf8ByteSize = byteLength cs := by
  induction cs with
  | nil => exact String.utf8ByteSize_empty
  | cons c cs ih =>
      rw [← List.singleton_append, String.ofList_append, String.utf8ByteSize_append, ih,
        ← String.singleton_eq_ofList, String.utf8ByteSize_singleton]
      rfl

/-- The limit on the steps has an error of its own. -/
theorem exists_fault_of_read {limits : Limits} {s t : String} {position : Nat} {reason : String}
    (h : read limits s = .error (.invalidPath t position reason)) :
    ∃ f, readAll s.toList = .error f ∧ t = s ∧
      position = byteLength s.toList - byteLength f.rest := by
  rcases except_bind_eq_error.mp h with hparse | ⟨p, -, hcheck⟩
  · unfold parse at hparse
    split at hparse
    · cases hparse
    · next f hfault =>
        cases hparse
        exact ⟨f, hfault, rfl, rfl⟩
  · rcases except_bind_eq_error.mp hcheck with hlimit | ⟨_, -, hpure⟩
    · unfold Limits.checkPathSteps Limits.check at hlimit
      split at hlimit <;> cases hlimit
    · cases hpure

/-- The error of a text that is not a path has the text and a position in it, between two
characters. Up to there the text is one that a path may begin with if and only if it does not
end in the digits of an index out of range. -/
theorem read_fault {limits : Limits} {s t : String} {position : Nat} {reason : String}
    (h : read limits s = .error (.invalidPath t position reason)) :
    t = s ∧ position ≤ s.utf8ByteSize ∧ String.Pos.Raw.IsValid s ⟨position⟩ ∧
      ∃ before after : String, s = before ++ after ∧ before.utf8ByteSize = position ∧
        (Begins before.toList ↔ ¬ EndsTooLarge before.toList) := by
  obtain ⟨f, hfault, rfl, rfl⟩ := exists_fault_of_read h
  obtain ⟨before, htext, hbefore⟩ := readAll_fault hfault
  have hsplit : t = String.ofList before ++ String.ofList f.rest := by
    rw [← String.ofList_append, ← htext, String.ofList_toList]
  have hposition : (String.ofList before).utf8ByteSize =
      byteLength t.toList - byteLength f.rest := by
    rw [htext, byteLength_append, Nat.add_sub_cancel, utf8ByteSize_ofList]
  have hvalid : String.Pos.Raw.IsValid t ⟨byteLength t.toList - byteLength f.rest⟩ :=
    String.Pos.Raw.isValid_iff_exists_append.mpr
      ⟨_, _, hsplit, congrArg String.Pos.Raw.mk hposition.symm⟩
  refine ⟨rfl, hvalid.le_utf8ByteSize, hvalid, _, _, hsplit, hposition, ?_⟩
  rw [String.toList_ofList]
  exact ⟨fun hbegins hlarge => hlarge.not_begins hbegins, hbefore.resolve_right⟩

/-- A bracket closes a name after letters of two bytes, and a letter follows the digits of an
index that is one too large. -/
theorem read_fault_letters :
    (read .standard "naïve.é]x" = .error (.invalidPath "naïve.é]x" 9 "unexpected ']'") ∧
      ∃ before after : String, "naïve.é]x" = before ++ after ∧ before.utf8ByteSize = 9 ∧
        (Begins before.toList ↔ ¬ EndsTooLarge before.toList)) ∧
    read .standard "é[18446744073709551616x" =
      .error (.invalidPath "é[18446744073709551616x" 23 "expected ']', found 'x'") ∧
      ∃ before after : String, "é[18446744073709551616x" = before ++ after ∧
        before.utf8ByteSize = 23 ∧ (Begins before.toList ↔ ¬ EndsTooLarge before.toList) := by
  have hclose : read .standard "naïve.é]x" =
      .error (.invalidPath "naïve.é]x" 9 "unexpected ']'") := by rfl
  have hdigits : read .standard "é[18446744073709551616x" =
      .error (.invalidPath "é[18446744073709551616x" 23 "expected ']', found 'x'") := by rfl
  obtain ⟨-, -, -, hname⟩ := read_fault hclose
  obtain ⟨-, -, -, hindex⟩ := read_fault hdigits
  exact ⟨⟨hclose, hname⟩, hdigits, hindex⟩

end DynamicData.Path
