import DynamicData.Proofs.Json.Written

/-!
# Containers are read back

The parts of a container stand between brackets, with commas in between and blanks
where they do no harm. If each part is read back, so is the container.
-/

namespace DynamicData.Json

open DynamicData.Parser DynamicData.Text

/-! ## Blanks -/

/-- There is nothing but blanks. -/
def Blank (bytes : Bytes) : Prop :=
  ∀ b ∈ bytes, isBlank b = true

theorem skipBlanks_append {gap : Bytes} (hgap : Blank gap) (rest : Bytes) :
    skipBlanks (gap ++ rest) = skipBlanks rest :=
  List.dropWhile_append_of_pos hgap

theorem skipBlanks_cons {b : UInt8} (hb : isBlank b = false) (rest : Bytes) :
    skipBlanks (b :: rest) = b :: rest :=
  List.dropWhile_cons_of_neg (by rw [hb]; exact Bool.false_ne_true)

theorem stops_of_isBlank {b : UInt8} (hb : isBlank b = true) (rest : Bytes) :
    Stops (b :: rest) := by
  simp only [isBlank, Bool.or_eq_true, decide_eq_true_eq] at hb
  rcases hb with ((rfl | rfl) | rfl) | rfl <;> exact And.intro (by decide) (by decide)

theorem stops_append_of_blank {gap rest : Bytes} (hgap : Blank gap) (hrest : Stops rest) :
    Stops (gap ++ rest) := by
  cases gap with
  | nil => exact hrest
  | cons b gap => exact stops_of_isBlank (hgap b List.mem_cons_self) _

/-! ## Parts -/

section
variable {σ : Type}

/-- The word is read as one part, which leads from `done` to `done'`. -/
structure Part (part : σ → Reader σ) (done : σ) (word : Bytes) (done' : σ) : Prop where
  begins : Begins word
  read : ∀ rest, Stops rest → part done (word ++ rest) = .ok (done', rest)

/-- Parts with commas in between, from the first byte of the first up to the closing bracket.
Blanks may stand around each comma and after the last part. -/
inductive Parts (part : σ → Reader σ) : σ → Bytes → σ → Prop
  | last {done done' : σ} {word after : Bytes} (head : Part part done word done')
      (blank : Blank after) : Parts part done (word ++ after) done'
  | cons {done mid done' : σ} {word after before words : Bytes} (head : Part part done word mid)
      (blank : Blank after) (blank' : Blank before) (tail : Parts part mid words done') :
      Parts part done (word ++ (after ++ ','.toUInt8 :: (before ++ words))) done'

/-- What the reader of parts relies on to tell the closing bracket from all else. -/
structure Brackets.Closing (br : Brackets) : Prop where
  notBlank : isBlank br.close = false
  stops : ∀ rest, Stops (br.close :: rest)
  notComma : ','.toUInt8 ≠ br.close
  notBegins : ∀ b rest, Begins (b :: rest) → b ≠ br.close

theorem Brackets.closing_array : Brackets.array.Closing where
  notBlank := by decide
  stops _ := And.intro (by decide) (by decide)
  notComma := by decide
  notBegins _ _ h := h.2.1

theorem Brackets.closing_object : Brackets.object.Closing where
  notBlank := by decide
  stops _ := And.intro (by decide) (by decide)
  notComma := by decide
  notBegins _ _ h := h.2.2

variable {part : σ → Reader σ} {gap after before : Bytes} {br : Brackets}

theorem blanks_append {gap : Bytes} (hgap : Blank gap) {b : UInt8} (hb : isBlank b = false)
    (rest : Bytes) : blanks (gap ++ b :: rest) = .ok ((), b :: rest) := by
  rw [blanks, modify_apply, skipBlanks_append hgap, skipBlanks_cons hb]

/-- The last part is followed by the closing bracket. -/
theorem parts_close (hbr : br.Closing) (hafter : Blank after) {done mid : σ} {word : Bytes}
    (hpart : Part part done word mid) (f : UInt8) (fuel rest : Bytes) :
    parts br part (f :: fuel) done (word ++ (after ++ br.close :: rest)) = .ok (mid, rest) := by
  have hread := hpart.read _ (stops_append_of_blank hafter (hbr.stops rest))
  rw [parts, bind_of_ok hread, bind_of_ok (blanks_append hafter hbr.notBlank rest),
    bind_of_ok (rest_apply _)]
  dsimp only
  rw [if_pos rfl]
  rfl

/-- Any other part is followed by a comma and the next. -/
theorem parts_comma (hbr : br.Closing) (hafter : Blank after) (hbefore : Blank before)
    {done mid : σ} {word next : Bytes} (hpart : Part part done word mid) (hnext : Begins next)
    (f : UInt8) (fuel : Bytes) :
    parts br part (f :: fuel) done (word ++ (after ++ ','.toUInt8 :: (before ++ next))) =
      parts br part fuel mid next := by
  cases next with
  | nil => exact hnext.elim
  | cons b rest =>
      have hread := hpart.read (after ++ ','.toUInt8 :: (before ++ b :: rest))
        (stops_append_of_blank hafter (And.intro (by decide) (by decide)))
      have hcomma := blanks_append (b := ','.toUInt8) hafter (by decide) (before ++ b :: rest)
      rw [parts, bind_of_ok hread, bind_of_ok hcomma, bind_of_ok (rest_apply _)]
      dsimp only
      rw [if_neg hbr.notComma, if_pos rfl, bind_of_ok (set_apply _ _),
        skipBlanks_append hbefore, skipBlanks_cons hnext.1, bind_of_ok (rest_apply _)]
      dsimp only
      rw [if_neg (hbr.notBegins b rest hnext)]

theorem begins_append {word : Bytes} (hword : Begins word) (rest : Bytes) :
    Begins (word ++ rest) := by
  cases word with
  | nil => exact hword.elim
  | cons b word => exact hword

theorem length_pos_of_begins {word : Bytes} (hword : Begins word) : 0 < word.length := by
  cases word with
  | nil => exact hword.elim
  | cons b word => exact Nat.succ_pos _

theorem Parts.begins {done done' : σ} {words : Bytes} (h : Parts part done words done') :
    Begins words := by
  cases h with
  | last head => exact begins_append head.begins _
  | cons head => exact begins_append head.begins _

/-- The parts are read one after the other, with a byte of fuel for each. -/
theorem parts_read (hbr : br.Closing) {done done' : σ} {words : Bytes}
    (hparts : Parts part done words done') (fuel : Bytes)
    (hfuel : words.length ≤ fuel.length) (rest : Bytes) :
    parts br part fuel done (words ++ br.close :: rest) = .ok (done', rest) := by
  induction hparts generalizing fuel with
  | @last done done' word after head blank =>
      have hpos := length_pos_of_begins head.begins
      cases fuel with
      | nil =>
          rw [List.length_append] at hfuel
          exact absurd hfuel (Nat.not_le.mpr (Nat.add_pos_left hpos _))
      | cons f fuel =>
          rw [List.append_assoc]
          exact parts_close hbr blank head f fuel rest
  | @cons done mid done' word after before words head blank blank' tail ih =>
      have hpos := length_pos_of_begins head.begins
      cases fuel with
      | nil => exact absurd hfuel (by simp)
      | cons f fuel =>
          have hlength : words.length ≤ fuel.length := by
            simp only [List.length_append, List.length_cons] at hfuel
            omega
          rw [List.append_assoc, List.append_assoc, List.cons_append, List.append_assoc,
            parts_comma hbr blank blank' head (begins_append tail.begins _)]
          exact ih fuel hlength

theorem enclosed_close (hbr : br.Closing) (hgap : Blank gap) (start : σ) (rest : Bytes) :
    enclosed br part start (gap ++ br.close :: rest) = .ok (start, rest) := by
  rw [enclosed, bind_of_ok (blanks_append hgap hbr.notBlank rest), bind_of_ok (rest_apply _)]
  dsimp only
  rw [if_pos rfl]
  rfl

/-- A container is read by reading its parts one after the other. -/
theorem enclosed_parts (hbr : br.Closing) (hgap : Blank gap) {start done' : σ} {words : Bytes}
    (hparts : Parts part start words done') (rest : Bytes) :
    enclosed br part start (gap ++ (words ++ br.close :: rest)) = .ok (done', rest) := by
  have hbegins := begins_append hparts.begins (br.close :: rest)
  -- what is left of the input is fuel for as many parts as it has
  have hread := parts_read hbr hparts (words ++ br.close :: rest) (by simp) rest
  cases hinput : words ++ br.close :: rest with
  | nil => exact absurd hinput (by simp)
  | cons b input =>
      rw [hinput] at hbegins hread
      rw [enclosed, bind_of_ok (blanks_append hgap hbegins.1 input), bind_of_ok (rest_apply _)]
      dsimp only
      rw [if_neg (hbr.notBegins b input hbegins)]
      exact hread

end

/-! ## Arrays and objects -/

theorem value_of_blank {gap : Bytes} (hgap : Blank gap) (budget : Nat) (input : Bytes) :
    value budget (gap ++ input) = value budget input := by
  have hblanks : blanks (gap ++ input) = blanks input := by
    rw [blanks, modify_apply, modify_apply, skipBlanks_append hgap]
  cases budget with
  | zero => rw [value, valueWith, bind_apply, bind_apply, hblanks]
  | succ budget => rw [value, valueWith, bind_apply, bind_apply, hblanks]

variable {budget : Nat}

/-- The items of an array are put in front of those that came before. -/
theorem part_item {word : Bytes} {d : Document} (hword : Written budget word d)
    (done : List Document) :
    Part (fun done => do return (← value budget) :: done) done word (d :: done) :=
  ⟨hword.begins, fun rest hrest => bind_of_ok (hword.read rest hrest)⟩

theorem value_array {body rest : Bytes} {done : List Document}
    (hread : enclosed .array (fun done => do return (← value budget) :: done) [] body =
      .ok (done, rest)) :
    value (budget + 1) ('['.toUInt8 :: body) = .ok (.array () done.reverse, rest) := by
  have hopen : value (budget + 1) ('['.toUInt8 :: body) =
      (enclosed .array (fun done => do return (← value budget) :: done) [] >>=
        fun items => return .array () items.reverse : Reader Document) body := rfl
  rw [hopen, bind_of_ok hread]
  rfl

theorem value_object {body rest : Bytes} {entries : Entries Document}
    (hread : enclosed .object (member (value budget)) [] body = .ok (entries, rest)) :
    value (budget + 1) ('\x7b'.toUInt8 :: body) = .ok (.object () entries, rest) := by
  have hopen : value (budget + 1) ('\x7b'.toUInt8 :: body) =
      (enclosed .object (member (value budget)) [] >>=
        fun entries => return .object () entries : Reader Document) body := rfl
  rw [hopen, bind_of_ok hread]
  rfl

/-- A key is read up to the colon. -/
theorem key_string {kword before : Bytes} {k : String} (hkey : StringForm kword k.toList)
    (hbefore : Blank before) (rest : Bytes) :
    key ('"'.toUInt8 :: (kword ++ (before ++ ':'.toUInt8 :: rest))) = .ok (k, rest) := by
  have hcolon := blanks_append (b := ':'.toUInt8) hbefore (by decide) rest
  rw [key, bind_of_ok (rest_apply _)]
  dsimp only
  rw [if_pos rfl, bind_of_ok (set_apply _ _), bind_of_ok (hkey.string _), bind_of_ok hcolon,
    bind_of_ok (rest_apply _)]
  dsimp only
  rw [if_pos rfl]
  rfl

/-- A member is read as one part of an object, which it is inserted into. -/
theorem part_member {kword before after word : Bytes} {k : String} {d : Document}
    (hkey : StringForm kword k.toList) (hbefore : Blank before) (hafter : Blank after)
    (hword : Written budget word d) (done : Entries Document) :
    Part (member (value budget)) done
      ('"'.toUInt8 :: (kword ++ (before ++ ':'.toUInt8 :: (after ++ word)))) (done.insert k d) where
  begins := begins_cons _ (by decide)
  read rest hrest := by
    have hvalue : value budget (after ++ (word ++ rest)) = .ok (d, rest) := by
      rw [value_of_blank hafter]
      exact hword.read rest hrest
    rw [List.cons_append, List.append_assoc, List.append_assoc, List.cons_append,
      List.append_assoc, member, bind_of_ok (key_string hkey hbefore _), bind_of_ok hvalue]
    rfl

end DynamicData.Json
