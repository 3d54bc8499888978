import DynamicData.Path.Read
import DynamicData.Path.Resolve

/-!
# The three forms of a read

A value is read as required, with a fallback, or as optional, from a place or along a path.
The three forms agree: the optional read tells the other two. Where it finds a value, so do
they; where it fails, they fail in the same way; and only where it finds nothing, the
fallback stands in and the required read fails, for one of the causes of absence.

Whether an optional read of a place finds nothing does not depend on what is asked for,
but only on whether the place is empty or null. So a fallback stands in for nothing else,
in particular not for a value that cannot be had as the type asked for.
-/

namespace DynamicData

variable {α β : Type}

/-- The causes for which a required read fails where there is nothing. -/
def DataError.IsAbsence : DataError → Prop
  | .missing _ | .null _ | .indexOutOfBounds _ _ => True
  | _ => False

/-- The required read, the one with a fallback and the optional one agree. -/
structure FormsAgree (get : Except DataError α) (getOr : α → Except DataError α)
    (opt : Except DataError (Option α)) : Prop where
  /-- the fallback stands in where the optional read finds nothing -/
  fallback : ∀ f, getOr f = opt.map fun found => found.getD f
  /-- both find the same value -/
  found : ∀ v, get = .ok v ↔ opt = .ok (some v)
  /-- what fails as optional fails in the same way as required -/
  failure : ∀ e, opt = .error e → get = .error e
  /-- where the optional read finds nothing, the required one says so -/
  absence : opt = .ok none → ∃ e, get = .error e ∧ e.rootCause.IsAbsence

namespace FormsAgree

/-- All three come to the same outcome. -/
theorem of_outcome (x : Except DataError α) : FormsAgree x (fun _ => x) (x.map some) where
  fallback _ := by cases x <;> rfl
  found v := by cases x <;> simp [Except.map]
  failure e h := by
    cases x with
    | error e' =>
        cases h
        rfl
    | ok a => cases h
  absence h := by cases x <;> cases h

/-- There is nothing to read. -/
theorem of_absence {e : DataError} (he : e.rootCause.IsAbsence) :
    FormsAgree (.error e : Except DataError α) .ok (.ok none) where
  fallback _ := rfl
  found v := by simp
  failure e h := by cases h
  absence _ := ⟨e, rfl, he⟩

/-- The forms follow the same steps before they part. -/
theorem bind (x : Except DataError β) {get : β → Except DataError α}
    {getOr : β → α → Except DataError α} {opt : β → Except DataError (Option α)}
    (h : ∀ b, FormsAgree (get b) (getOr b) (opt b)) :
    FormsAgree (x >>= get) (fun f => x >>= fun b => getOr b f) (x >>= opt) := by
  cases x with
  | error e => exact of_outcome (.error e)
  | ok b => exact h b

/-- The path is put before the errors of all three. -/
theorem along {get : Except DataError α} {getOr : α → Except DataError α}
    {opt : Except DataError (Option α)} (h : FormsAgree get getOr opt) (path : Path) :
    FormsAgree (Heap.along path get) (fun f => Heap.along path (getOr f))
      (Heap.along path opt) := by
  cases opt with
  | error e =>
      have hget := h.failure e rfl
      have hgetOr : getOr = fun _ => .error e := funext h.fallback
      rw [hget, hgetOr]
      exact of_outcome (.error (e.atPath path.text))
  | ok found =>
      have hgetOr : getOr = fun f => .ok (found.getD f) := funext h.fallback
      rw [hgetOr]
      cases found with
      | none =>
          obtain ⟨e, hget, he⟩ := h.absence rfl
          rw [hget]
          exact of_absence he
      | some v =>
          rw [(h.found v).mpr rfl]
          exact of_outcome (.ok v)

end FormsAgree

namespace Heap

variable (h : Heap)

/-! ## Places -/

theorem isAbsence_absence (p : Place) : (h.absence p).rootCause.IsAbsence := by
  cases p <;> trivial

/-- Unless it is empty or null, a place is read by conversion in every form. -/
theorem formsAgree_place (t : Target α) (p : Place) :
    FormsAgree (h.get t p) (fun f => h.getOr t f p) (h.opt t p) := by
  unfold get getOr opt
  cases h.lookup p with
  | none => exact .of_absence (h.isAbsence_absence p)
  | some n =>
      cases n with
      | null => exact .of_absence trivial
      | _ => exact .of_outcome _

theorem opt_eq_ok_none_iff (t : Target α) (p : Place) :
    h.opt t p = .ok none ↔ h.isNull p = true := by
  unfold opt isNull
  cases h.lookup p with
  | none => simp
  | some n =>
      have hsome (x : Except DataError α) : x.map some ≠ .ok none := by
        cases x <;> simp [Except.map]
      cases n <;> simp [Node.isNull, hsome]

theorem present?_eq_none_iff (p : Place) : h.present? p = none ↔ h.isNull p = true := by
  unfold present? isNull
  cases h.lookup p <;> simp

/-- A value that is there is converted, whatever the fallback. -/
theorem getOr_of_present (t : Target α) (f : α) {p : Place} {n : Node}
    (hn : h.present? p = some n) : h.getOr t f p = h.coerce t p.location n := by
  obtain ⟨hlookup, hnull⟩ := Option.filter_eq_some_iff.mp hn
  unfold getOr
  rw [hlookup]
  cases n with
  | null => cases hnull
  | _ => rfl

/-! ## Paths -/

theorem formsAgree_path (t : Target α) (path : Path) (root : Node) :
    FormsAgree (h.getPath t path root) (fun f => h.getPathOr t f path root)
      (h.optPath t path root) := by
  refine (FormsAgree.bind (h.resolve path root) fun d => ?_).along path
  cases d with
  | absent location => exact .of_absence trivial
  | place p => exact h.formsAgree_place t p

/-! ## All addresses -/

/-- The three forms agree at every place, along every path and for the text of every path.
Whether there is nothing at a place is the same question for all types, for `isNull` and for
`present?`, and a fallback never stands in for a value that is there. -/
theorem reads_agree :
    (∀ {α : Type} (t : Target α) (p : Place),
      FormsAgree (h.get t p) (fun f => h.getOr t f p) (h.opt t p)) ∧
    (∀ {α : Type} (t : Target α) (path : Path) (root : Node),
      FormsAgree (h.getPath t path root) (fun f => h.getPathOr t f path root)
        (h.optPath t path root)) ∧
    (∀ {α : Type} (t : Target α) (limits : Limits) (s : String) (root : Node),
      FormsAgree (do h.getPath t (← Path.read limits s) root)
        (fun f => do h.getPathOr t f (← Path.read limits s) root)
        (do h.optPath t (← Path.read limits s) root)) ∧
    ∀ p : Place,
      (∀ {α β : Type} (t : Target α) (u : Target β),
        h.opt t p = .ok none ↔ h.opt u p = .ok none) ∧
      (∀ {α : Type} (t : Target α), h.opt t p = .ok none ↔ h.isNull p = true) ∧
      (h.present? p = none ↔ h.isNull p = true) ∧
      ∀ n, h.present? p = some n → ∀ {α : Type} (t : Target α) (e : DataError),
        h.coerce t p.location n = .error e → ∀ f, h.getOr t f p = .error e := by
  refine ⟨h.formsAgree_place, h.formsAgree_path, ?_, fun p => ⟨?_, ?_, ?_, ?_⟩⟩
  · intro α t limits s root
    exact .bind _ fun path => h.formsAgree_path t path root
  · intro α β t u
    rw [opt_eq_ok_none_iff, opt_eq_ok_none_iff]
  · exact fun t => h.opt_eq_ok_none_iff t p
  · exact h.present?_eq_none_iff p
  · intro n hn α t e he f
    rw [h.getOr_of_present t f hn, he]

/-- A text that is no integer, which no fallback replaces, and an index out of range, which
a fallback replaces. -/
theorem reads_agree_at_text_and_bound :
    let h : Heap := ⟨#[[.int 5]], #[[("n", .text "abc"), ("a", .array ⟨0⟩)]]⟩
    let p : Place := .key ⟨0⟩ "n"
    let path : Path := ⟨[⟨.key "a", false⟩, ⟨.index 3, false⟩]⟩
    let root : Node := .object ⟨0⟩
    (h.present? p = some (.text "abc") ∧
      h.coerce .int p.location (.text "abc") = .error (.invalidText (.key "n") "int" "abc") ∧
      ∀ f, h.getOr .int f p = .error (.invalidText (.key "n") "int" "abc")) ∧
    h.optPath .int path root = .ok none ∧ h.getPathOr .int 7 path root = .ok 7 ∧
    ∃ e, h.getPath .int path root = .error e ∧ e.rootCause.IsAbsence := by
  intro h p path root
  obtain ⟨-, hpaths, -, hplaces⟩ := reads_agree h
  obtain ⟨-, -, -, hpresent⟩ := hplaces p
  have hnone : h.optPath .int path root = .ok none := by rfl
  have hforms := hpaths Target.int path root
  refine ⟨⟨by rfl, by rfl, hpresent _ (by rfl) .int _ (by rfl)⟩, hnone, ?_, hforms.absence hnone⟩
  rw [hforms.fallback, hnone]
  rfl

end Heap
end DynamicData
