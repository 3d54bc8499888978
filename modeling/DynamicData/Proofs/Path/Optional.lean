import DynamicData.Proofs.Heap.Reading
import DynamicData.Proofs.Path.Visibility
import Mathlib.Data.List.Forall2

/-!
# Optional steps

Marking further steps of a path as optional changes an optional read in one way only: where
it failed because there is nothing at a step that is now optional, it finds nothing. What
was found before is found still, and every other failure stays.

The two walks are taken together. As long as they have not ended they are at the same
container, and a step that leads somewhere does so in both; so they can only part at a place
that is empty or null (`optFrom_relaxed`, by induction on the steps).
-/

namespace DynamicData

variable {α : Type}

/-! ## Paths with more marks -/

/-- The second step is the first, which may have been marked as optional. -/
structure Step.RelaxedTo (s t : Step) : Prop where
  segment : t.segment = s.segment
  mark : s.isOptional = true → t.isOptional = true

/-- The second path is the first with any number of its steps marked as optional. -/
def Path.RelaxedTo (p q : Path) : Prop :=
  List.Forall₂ Step.RelaxedTo p.steps q.steps

namespace Heap

variable {h : Heap}

/-! ## Places where there is nothing -/

/-- What every required read of an empty or null place fails with. -/
def nothingAt (h : Heap) (p : Place) : DataError :=
  match h.lookup p with
  | none => h.absence p
  | some _ => .null p.location

theorem get_of_isNull (t : Target α) {p : Place} (hp : h.isNull p = true) :
    h.get t p = .error (h.nothingAt p) := by
  unfold isNull at hp
  unfold get nothingAt
  cases hn : h.lookup p with
  | none => rfl
  | some n =>
      rw [hn] at hp
      cases n <;> first | rfl | cases hp

theorem child_of_isNull {p : Place} (hp : h.isNull p = true) (following : Segment) :
    h.child p following = .error (h.nothingAt p) := by
  cases following <;> simp only [child, get_of_isNull _ hp] <;> rfl

theorem rootCause_nothingAt (p : Place) : (h.nothingAt p).rootCause = h.nothingAt p := by
  unfold nothingAt
  cases h.lookup p with
  | none => cases p <;> rfl
  | some n => rfl

theorem isAbsence_nothingAt (p : Place) : (h.nothingAt p).IsAbsence := by
  unfold nothingAt
  cases h.lookup p with
  | none => cases p <;> exact trivial
  | some n => exact trivial

/-! ## Optional reads from a container -/

/-- The optional read of where a walk ends. -/
def optAt (h : Heap) (t : Target α) : Destination → Except DataError (Option α)
  | .absent _ => .ok none
  | .place p => h.opt t p

/-- The optional read of where steps lead to from a container. -/
def optFrom (h : Heap) (t : Target α) (c : Storage) (steps : List Step) :
    Except DataError (Option α) :=
  h.walk c steps >>= h.optAt t

theorem optPath_eq (h : Heap) (t : Target α) (path : Path) (root : Node) :
    h.optPath t path root = along path (h.resolve path root >>= h.optAt t) := by
  unfold optPath
  congr 2

section
variable {c : Storage} {step next : Step} {p : Place}

theorem walk_last_of_place (hp : c.place step.segment = .ok p) :
    h.walk c [step] = .ok (if step.isOptional && h.isNull p then
      .absent step.segment.location else .place p) := by
  rw [walk, hp]
  show (if _ then _ else _) = _
  split <;> rfl

theorem optFrom_of_error (t : Target α) {e : DataError} (he : c.place step.segment = .error e)
    (rest : List Step) : h.optFrom t c (step :: rest) = .error e := by
  unfold optFrom
  cases rest <;> rw [walk, he] <;> rfl

/-- At an optional step that leads nowhere nothing is found. -/
theorem optFrom_of_absent (t : Target α) (hp : c.place step.segment = .ok p)
    (habsent : (step.isOptional && h.isNull p) = true) (rest : List Step) :
    h.optFrom t c (step :: rest) = .ok none := by
  have hwalk := walk_last_of_place (h := h) hp
  rw [habsent, if_pos rfl] at hwalk
  unfold optFrom
  cases rest with
  | nil => rw [hwalk]; rfl
  | cons next rest => rw [walk_cons, hwalk]; rfl

/-- The last step is read at its place, be it optional or not. -/
theorem optFrom_last (t : Target α) (hp : c.place step.segment = .ok p) :
    h.optFrom t c [step] = h.opt t p := by
  cases habsent : step.isOptional && h.isNull p with
  | true =>
      rw [optFrom_of_absent t hp habsent,
        (h.opt_eq_ok_none_iff t p).mpr (Bool.and_eq_true_iff.mp habsent).2]
  | false =>
      rw [optFrom, walk_last_of_place hp, habsent]
      rfl

/-- Any other step leads on to the container at its place. -/
theorem optFrom_next (t : Target α) (hp : c.place step.segment = .ok p)
    (hpresent : (step.isOptional && h.isNull p) = false) (rest : List Step) :
    h.optFrom t c (step :: next :: rest) =
      h.child p next.segment >>= fun s => h.optFrom t s (next :: rest) := by
  rw [optFrom, walk_cons, walk_last_of_place hp, hpresent]
  show (do h.walk (← h.child p next.segment) (next :: rest)) >>= h.optAt t = _
  cases h.child p next.segment <;> rfl

end

/-! ## Two walks -/

/-- The walk along `steps` leads to a place where there is nothing, for which `e` is the error,
and in `marked` the step to this place is optional. -/
def StopsAtMarked (h : Heap) (c : Storage) (steps marked : List Step) (e : DataError) : Prop :=
  ∃ i step p, marked[i]? = some step ∧ step.isOptional = true ∧
    h.walk c (steps.take (i + 1)) = .ok (.place p) ∧ h.isNull p = true ∧ e = h.nothingAt p

theorem StopsAtMarked.cons {c s : Storage} {step step' next : Step} {rest marked : List Step}
    {p : Place} {e : DataError} (hstep : h.walk c [step] = .ok (.place p))
    (hs : h.child p next.segment = .ok s) (hstops : h.StopsAtMarked s (next :: rest) marked e) :
    h.StopsAtMarked c (step :: next :: rest) (step' :: marked) e := by
  obtain ⟨i, marker, q, hmarker, hoptional, hwalk, hq⟩ := hstops
  refine ⟨i + 1, marker, q, hmarker, hoptional, ?_, hq⟩
  exact walk_cons_eq_place_iff.mpr ⟨p, s, hstep, hs, hwalk⟩

/-- With more steps marked as optional an optional read comes to the same, unless it failed at
one of the steps that are now optional, where it now finds nothing. -/
theorem optFrom_relaxed (t : Target α) {steps marked : List Step}
    (hm : List.Forall₂ Step.RelaxedTo steps marked) (c : Storage) :
    h.optFrom t c marked = h.optFrom t c steps ∨
      ∃ e, h.optFrom t c steps = .error e ∧ h.optFrom t c marked = .ok none ∧
        h.StopsAtMarked c steps marked e := by
  induction hm generalizing c with
  | nil => exact .inl rfl
  | @cons step step' rest rest' hstep hrest ih =>
      cases hp : c.place step.segment with
      | error e =>
          rw [optFrom_of_error t hp, optFrom_of_error t (hstep.segment ▸ hp)]
          exact .inl rfl
      | ok p =>
      have hp' : c.place step'.segment = .ok p := hstep.segment ▸ hp
      cases hrest with
      | nil =>
          rw [optFrom_last t hp, optFrom_last t hp']
          exact .inl rfl
      | @cons next next' rest rest' hnext hrest =>
      cases habsent' : step'.isOptional && h.isNull p with
      | false =>
          -- neither walk ends here
          have habsent : (step.isOptional && h.isNull p) = false := by
            rw [Bool.and_eq_false_imp] at habsent' ⊢
            exact fun hmark => habsent' (hstep.mark hmark)
          rw [optFrom_next t hp habsent, optFrom_next t hp' habsent', hnext.segment]
          cases hs : h.child p next.segment with
          | error e => exact .inl rfl
          | ok s =>
              have hwalk := walk_last_eq_place_iff.mpr ⟨hp, habsent⟩
              rcases ih s with hsame | ⟨e, he, hnone, hstops⟩
              · exact .inl hsame
              · exact .inr ⟨e, he, hnone, hstops.cons hwalk hs⟩
      | true =>
          obtain ⟨hmark', hnull⟩ := Bool.and_eq_true_iff.mp habsent'
          rw [optFrom_of_absent t hp' habsent']
          cases hmark : step.isOptional with
          | true =>
              rw [optFrom_of_absent t hp (by rw [hmark, hnull]; rfl)]
              exact .inl rfl
          | false =>
              have habsent : (step.isOptional && h.isNull p) = false := by rw [hmark]; rfl
              have hwalk := walk_last_eq_place_iff.mpr ⟨hp, habsent⟩
              rw [optFrom_next t hp habsent, child_of_isNull hnull]
              exact .inr ⟨_, rfl, rfl, 0, step', p, rfl, hmark', hwalk, hnull, rfl⟩

/-! ## Two paths -/

/-- The optional reads along two paths, before they get their context. -/
theorem opt_resolve_relaxed (t : Target α) {p q : Path} (hm : p.RelaxedTo q) (root : Node) :
    (h.resolve q root >>= h.optAt t) = (h.resolve p root >>= h.optAt t) ∨
      ∃ i step pl, q.steps[i]? = some step ∧ step.isOptional = true ∧
        h.resolve ⟨p.steps.take (i + 1)⟩ root = .ok (.place pl) ∧ h.isNull pl = true ∧
        (h.resolve p root >>= h.optAt t) = .error (h.nothingAt pl) ∧
        (h.resolve q root >>= h.optAt t) = .ok none := by
  obtain ⟨steps⟩ := p
  obtain ⟨marked⟩ := q
  cases hm with
  | nil => exact .inl rfl
  | @cons first first' rest rest' hfirst hrest =>
      rw [resolve_eq h rfl, resolve_eq h rfl, hfirst.segment]
      cases hc : Storage.ofRoot root first.segment with
      | error e => exact .inl rfl
      | ok c =>
          rcases optFrom_relaxed t (.cons hfirst hrest) c with hsame | ⟨e, he, hnone, hstops⟩
          · exact .inl hsame
          · obtain ⟨i, step, pl, hi, hmark, hwalk, hnull, rfl⟩ := hstops
            refine .inr ⟨i, step, pl, hi, hmark, ?_, hnull, he, hnone⟩
            rw [List.take_succ_cons, resolve_eq h rfl, hc]
            exact hwalk

/-- Marking further steps as optional keeps what an optional read finds, and keeps every
failure but the absence at a step that is now optional, where the read finds nothing. -/
theorem optPath_relaxed (h : Heap) (t : Target α) {p q : Path} (hm : p.RelaxedTo q)
    (root : Node) :
    (∀ r, h.optPath t p root = .ok r → h.optPath t q root = .ok r) ∧
    ∀ e, h.optPath t p root = .error e →
      (∃ e', h.optPath t q root = .error e' ∧ e'.rootCause = e.rootCause) ∨
      h.optPath t q root = .ok none ∧ e.rootCause.IsAbsence ∧
        ∃ i step pl, q.steps[i]? = some step ∧ step.isOptional = true ∧
          h.resolve ⟨p.steps.take (i + 1)⟩ root = .ok (.place pl) ∧ h.isNull pl = true ∧
          e.rootCause = h.nothingAt pl := by
  rw [optPath_eq, optPath_eq]
  rcases opt_resolve_relaxed t hm root with
    hsame | ⟨i, step, pl, hi, hmark, hres, hnull, hfails, hnone⟩
  · rw [hsame]
    cases h.resolve p root >>= h.optAt t with
    | error e =>
        refine ⟨nofun, fun e' he => .inl ?_⟩
        cases he
        exact ⟨_, rfl, rfl⟩
    | ok r =>
        exact ⟨fun _ hr => hr, nofun⟩
  · rw [hfails, hnone]
    refine ⟨nofun, fun e he => .inr ?_⟩
    cases he
    have hroot : ((h.nothingAt pl).atPath p.text).rootCause = h.nothingAt pl :=
      rootCause_nothingAt pl
    rw [hroot]
    exact ⟨rfl, isAbsence_nothingAt pl, i, step, pl, hi, hmark, hres, hnull, rfl⟩

/-- An index out of range is suppressed by a mark, and a Boolean in place of an object
is not. -/
theorem optPath_relaxed_bound_and_kind :
    let h : Heap := ⟨#[[.bool true]], #[[("a", .array ⟨0⟩)]]⟩
    let root : Node := .object ⟨0⟩
    let path (i : Nat) (mark : Bool) : Path :=
      ⟨[⟨.key "a", mark⟩, ⟨.index i, mark⟩, ⟨.key "b", false⟩]⟩
    (path 3 false).RelaxedTo (path 3 true) ∧ (path 0 false).RelaxedTo (path 0 true) ∧
    h.optPath .int (path 3 false) root =
      .error (.atPath (.indexOutOfBounds 3 1) "a[3].b") ∧
    h.optPath .int (path 3 true) root = .ok none ∧
    ∃ e, h.optPath .int (path 0 true) root = .error e ∧
      e.rootCause = .typeMismatch (.index 0) "object" .boolean "true" := by
  intro h root path
  have hm (i : Nat) : (path i false).RelaxedTo (path i true) := by
    refine .cons ⟨rfl, nofun⟩ (.cons ⟨rfl, nofun⟩ (.cons ⟨rfl, nofun⟩ .nil))
  have hbound : h.optPath .int (path 3 false) root =
      .error (.atPath (.indexOutOfBounds 3 1) "a[3].b") := by rfl
  have hkind : h.optPath .int (path 0 false) root =
      .error (.atPath (.typeMismatch (.index 0) "object" .boolean "true") "a[0].b") := by rfl
  refine ⟨hm 3, hm 0, hbound, ?_, ?_⟩
  · rcases (optPath_relaxed h .int (hm 3) root).2 _ hbound with ⟨e, he, -⟩ | ⟨hnone, -⟩
    · cases he
    · exact hnone
  · rcases (optPath_relaxed h .int (hm 0) root).2 _ hkind with hfails | ⟨hnone, -⟩
    · exact hfails
    · cases hnone

end Heap
end DynamicData
