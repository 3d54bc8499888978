import DynamicData.Proofs.Heap.Reading
import DynamicData.Proofs.Path.Composition

/-!
# Where a path can start

Reading a path breaks a rule of the interface only where the path cannot start from the root
it is given: this is no container, or not of the kind that the first step asks for. Then
nothing is looked up, so the heap does not matter.

Once it has started, a walk is always at a container of the kind that its next step asks for
(`keepsRules_walk`, by induction on the steps): a step leads to a child of the kind that the
step after it asks for, or it fails, and not by a broken rule. So a mismatch of step and
container in the middle of a path is never reported, nor is a path without steps.
-/

namespace DynamicData

variable {α β : Type}

/-- A path with this first step can start from this node. -/
def Node.Starts : Node → Segment → Prop
  | .object _, .key _ => True
  | .array _, .index _ => True
  | _, _ => False

/-- Why a path cannot start from this node. -/
def Node.refusal : Node → DataError
  | .object _ => .pathNeedsName
  | .array _ => .pathNeedsIndex
  | n => .pathFromScalar n.kind

/-- No error of the outcome is a broken rule. -/
def KeepsRules (outcome : Except DataError α) : Prop :=
  ∀ e, outcome = .error e → ∀ reason, e.rootCause ≠ .contract reason

namespace KeepsRules

theorem ok (a : α) : KeepsRules (.ok a : Except DataError α) := nofun

theorem of_isAbsence {e : DataError} (he : e.rootCause.IsAbsence) :
    KeepsRules (.error e : Except DataError α) := by
  rintro _ ⟨⟩ reason hreason
  rw [hreason] at he
  exact he

theorem bind {x : Except DataError α} {f : α → Except DataError β} (hx : KeepsRules x)
    (hf : ∀ a, x = .ok a → KeepsRules (f a)) : KeepsRules (x >>= f) := by
  cases x with
  | error e =>
      rintro _ ⟨⟩
      exact hx e rfl
  | ok a => exact hf a rfl

theorem map {x : Except DataError α} (hx : KeepsRules x) (f : α → β) :
    KeepsRules (x.map f) :=
  hx.bind fun a _ => ok (f a)

theorem along {x : Except DataError α} (hx : KeepsRules x) (path : Path) :
    KeepsRules (Heap.along path x) := by
  cases x with
  | error e =>
      rintro _ ⟨⟩
      exact hx e rfl
  | ok a => exact ok a

end KeepsRules

/-! ## The start -/

namespace Storage

theorem ofRoot_of_starts {root : Node} {first : Segment} (hs : root.Starts first) :
    ∃ c, ofRoot root first = .ok c ∧ ofRoot c.node first = .ok c := by
  cases root <;> cases first <;> first | exact ⟨_, rfl, rfl⟩ | exact hs.elim

theorem ofRoot_of_not_starts {root : Node} {first : Segment} (hs : ¬ root.Starts first) :
    ofRoot root first = .error root.refusal := by
  cases root <;> cases first <;> first | rfl | exact (hs trivial).elim

/-- A container that a step starts from has a place for it. -/
theorem exists_place {c : Storage} {s : Segment} (hc : ofRoot c.node s = .ok c) :
    ∃ p, c.place s = .ok p := by
  cases c <;> cases s <;> first | exact ⟨_, rfl⟩ | cases hc

end Storage

/-- The refusal is a broken rule, and speaks neither of a path without steps nor of a step
that meets a container of the wrong kind. -/
theorem Node.exists_refusal_eq (n : Node) : ∃ reason, n.refusal = .contract reason ∧
    reason ≠ "path has no steps" ∧
    ∀ step container, reason ≠ "step " ++ step ++ " cannot address an " ++ container := by
  -- every refusal starts with an article
  have harticle : ∃ reason, n.refusal = .contract reason ∧ reason.toList.head? = some 'a' := by
    cases n with
    | object o => exact ⟨_, rfl, rfl⟩
    | array a => exact ⟨_, rfl, rfl⟩
    | _ => refine ⟨_, rfl, ?_⟩; simp
  obtain ⟨reason, hreason, ha⟩ := harticle
  refine ⟨reason, hreason, ?_, fun step container => ?_⟩
  · rintro rfl
    simp at ha
  · rintro rfl
    simp at ha

/-! ## The walk -/

namespace Heap

variable (h : Heap)

theorem keepsRules_coerce (t : Target α) (location : Location) (n : Node) :
    KeepsRules (h.coerce t location n) := by
  unfold coerce
  intro e he reason
  split at he
  · cases he
  · split at he
    · split at he <;> cases he
      nofun
    · split at he <;> cases he
      nofun

theorem keepsRules_get (t : Target α) (p : Place) : KeepsRules (h.get t p) := by
  unfold get
  split
  · exact .of_isAbsence (h.isAbsence_absence p)
  · exact .of_isAbsence trivial
  · exact h.keepsRules_coerce t _ _

theorem keepsRules_getOr (t : Target α) (fallback : α) (p : Place) :
    KeepsRules (h.getOr t fallback p) := by
  unfold getOr
  split
  · exact .ok fallback
  · exact .ok fallback
  · exact h.keepsRules_coerce t _ _

theorem keepsRules_opt (t : Target α) (p : Place) : KeepsRules (h.opt t p) := by
  unfold opt
  split
  · exact .ok none
  · exact .ok none
  · exact (h.keepsRules_coerce t _ _).map some

theorem keepsRules_child (p : Place) (following : Segment) :
    KeepsRules (h.child p following) := by
  cases following with
  | key k => exact (h.keepsRules_get Target.object p).map Storage.object
  | index i => exact (h.keepsRules_get Target.array p).map Storage.array

/-- A walk that has started keeps the rules to its end. -/
theorem keepsRules_walk (step : Step) (rest : List Step) {c : Storage}
    (hc : Storage.ofRoot c.node step.segment = .ok c) : KeepsRules (h.walk c (step :: rest)) := by
  induction rest generalizing c step with
  | nil =>
      obtain ⟨p, hp⟩ := Storage.exists_place hc
      rw [walk, hp]
      show KeepsRules (if _ then _ else _)
      split <;> exact .ok _
  | cons next rest ih =>
      obtain ⟨p, hp⟩ := Storage.exists_place hc
      rw [walk, hp]
      show KeepsRules (if _ then _ else _)
      split
      · exact .ok _
      · exact (h.keepsRules_child p next.segment).bind fun s hs =>
          ih next (Storage.ofRoot_node_of_child hs)

/-! ## The reads -/

theorem keepsRules_resolve {path : Path} {first : Step} {rest : List Step}
    (hsteps : path.steps = first :: rest) {root : Node} (hs : root.Starts first.segment) :
    KeepsRules (h.resolve path root) := by
  obtain ⟨c, hroot, hc⟩ := Storage.ofRoot_of_starts hs
  rw [h.resolve_eq hsteps, hroot]
  exact h.keepsRules_walk first rest hc

theorem resolve_of_not_starts {path : Path} {first : Step} {rest : List Step}
    (hsteps : path.steps = first :: rest) {root : Node} (hs : ¬ root.Starts first.segment) :
    h.resolve path root = .error root.refusal := by
  rw [h.resolve_eq hsteps, Storage.ofRoot_of_not_starts hs]
  rfl

/-- One of the three reads along a path fails with the error. -/
def PathReadFails (t : Target α) (fallback : α) (path : Path) (root : Node)
    (e : DataError) : Prop :=
  h.getPath t path root = .error e ∨ h.getPathOr t fallback path root = .error e ∨
    h.optPath t path root = .error e

variable {h}

/-- Whatever is done where a path has led keeps the rules if it does so everywhere. -/
theorem keepsRules_along {path : Path} {first : Step} {rest : List Step}
    (hsteps : path.steps = first :: rest) {root : Node} (hs : root.Starts first.segment)
    {read : Destination → Except DataError β} (habsent : ∀ l, KeepsRules (read (.absent l)))
    (hplace : ∀ p, KeepsRules (read (.place p))) :
    KeepsRules (along path (h.resolve path root >>= read)) := by
  refine ((h.keepsRules_resolve hsteps hs).bind fun d _ => ?_).along path
  cases d with
  | absent location => exact habsent location
  | place p => exact hplace p

theorem PathReadFails.keepsRules {t : Target α} {fallback : α} {path : Path} {first : Step}
    {rest : List Step} (hsteps : path.steps = first :: rest) {root : Node}
    (hs : root.Starts first.segment) {e : DataError}
    (he : h.PathReadFails t fallback path root e) (reason : String) :
    e.rootCause ≠ .contract reason := by
  rcases he with he | he | he
  · refine keepsRules_along hsteps hs ?_ ?_ e he reason
    · exact fun _ => .of_isAbsence trivial
    · exact h.keepsRules_get t
  · refine keepsRules_along hsteps hs ?_ ?_ e he reason
    · exact fun _ => .ok fallback
    · exact h.keepsRules_getOr t fallback
  · refine keepsRules_along hsteps hs ?_ ?_ e he reason
    · exact fun _ => .ok none
    · exact h.keepsRules_opt t

/-- Where a path cannot start, all reads fail, with the refusal of the root. -/
theorem reads_of_not_starts (h : Heap) (t : Target α) (fallback : α) {path : Path}
    {first : Step} {rest : List Step} (hsteps : path.steps = first :: rest) {root : Node}
    (hs : ¬ root.Starts first.segment) :
    h.getPath t path root = .error (root.refusal.atPath path.text) ∧
      h.getPathOr t fallback path root = .error (root.refusal.atPath path.text) ∧
      h.optPath t path root = .error (root.refusal.atPath path.text) := by
  unfold getPath getPathOr optPath
  rw [h.resolve_of_not_starts hsteps hs]
  exact ⟨rfl, rfl, rfl⟩

theorem PathReadFails.eq_refusal {t : Target α} {fallback : α} {path : Path} {first : Step}
    {rest : List Step} (hsteps : path.steps = first :: rest) {root : Node}
    (hs : ¬ root.Starts first.segment) {e : DataError}
    (he : h.PathReadFails t fallback path root e) : e = root.refusal.atPath path.text := by
  obtain ⟨hget, hgetOr, hopt⟩ := h.reads_of_not_starts t fallback hsteps hs
  unfold PathReadFails at he
  rw [hget, hgetOr, hopt] at he
  simpa [eq_comm] using he

/-- No read of an accepted path speaks of a path without steps or of a step that meets a
container of the wrong kind. A read breaks a rule only where the path cannot start from the
root, and there every read does. The heap has no part in this: nothing is looked up. -/
theorem path_contract_only_at_root {limits : Limits} {s : String} {path : Path}
    (hpath : Path.read limits s = .ok path) :
    ∃ first rest, path.steps = first :: rest ∧
      ∀ (root : Node) {α : Type} (t : Target α) (fallback : α),
        (∀ (h : Heap) e, h.PathReadFails t fallback path root e →
          e.rootCause ≠ .pathWithoutSteps ∧
          ∀ step container, e.rootCause ≠
            .contract ("step " ++ step ++ " cannot address an " ++ container)) ∧
        (∀ (h : Heap) e reason, h.PathReadFails t fallback path root e →
          e.rootCause = .contract reason → ¬ root.Starts first.segment) ∧
        (¬ root.Starts first.segment →
          (∃ reason, root.refusal = .contract reason) ∧
          ∀ h : Heap, h.getPath t path root = .error (root.refusal.atPath path.text) ∧
            h.getPathOr t fallback path root = .error (root.refusal.atPath path.text) ∧
            h.optPath t path root = .error (root.refusal.atPath path.text)) := by
  obtain ⟨first, rest, hsteps⟩ := List.exists_cons_of_ne_nil (Path.steps_ne_nil_of_read hpath)
  refine ⟨first, rest, hsteps, fun root α t fallback => ⟨fun h e he => ?_, ?_, fun hs => ?_⟩⟩
  · by_cases hs : root.Starts first.segment
    · have hkeeps := he.keepsRules hsteps hs
      exact ⟨hkeeps _, fun _ _ => hkeeps _⟩
    · obtain ⟨reason, hreason, hwithout, hmismatch⟩ := root.exists_refusal_eq
      have hcause : e.rootCause = .contract reason := by
        rw [he.eq_refusal hsteps hs, hreason]
        rfl
      rw [hcause]
      exact ⟨fun h => hwithout (DataError.contract.inj h),
        fun step container h => hmismatch step container (DataError.contract.inj h)⟩
  · intro h e reason he hreason hs
    exact he.keepsRules hsteps hs reason hreason
  · obtain ⟨reason, hreason, -⟩ := root.exists_refusal_eq
    exact ⟨⟨reason, hreason⟩, fun h => h.reads_of_not_starts t fallback hsteps hs⟩

/-- An array where the path goes on with a key: a mismatch of types and not of steps. From
the array itself the path cannot start. -/
theorem path_contract_only_at_root_array :
    let h : Heap := ⟨#[[]], #[[("a", .array ⟨0⟩)]]⟩
    let path : Path := ⟨[⟨.key "a", false⟩, ⟨.key "b", false⟩]⟩
    Path.read .standard "a.b" = .ok path ∧
      (∃ e, h.PathReadFails .int 0 path (.object ⟨0⟩) e ∧
        ∀ reason, e.rootCause ≠ .contract reason) ∧
      h.getPath .int path (.array ⟨0⟩) = .error (.atPath .pathNeedsIndex "a.b") := by
  intro h path
  have hpath : Path.read .standard "a.b" = .ok path := by rfl
  obtain ⟨first, rest, hsteps, hreads⟩ := path_contract_only_at_root hpath
  cases hsteps
  refine ⟨hpath, ?_, ?_⟩
  · obtain ⟨-, hcontract, -⟩ := hreads (.object ⟨0⟩) Target.int 0
    have hfails : h.PathReadFails .int 0 path (.object ⟨0⟩)
        (.atPath (.typeMismatch (.key "a") "object" .array "[]") "a.b") := .inl rfl
    exact ⟨_, hfails, fun reason he => hcontract h _ reason hfails he trivial⟩
  · obtain ⟨-, -, hrefused⟩ := hreads (.array ⟨0⟩) Target.int 0
    exact ((hrefused id).2 h).1

end Heap
end DynamicData
