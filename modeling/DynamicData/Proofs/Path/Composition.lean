import DynamicData.Path.Resolve
import DynamicData.Proofs.Path.Exact

/-!
# Paths one after the other

The text of a path and the text of another, with a point between them if the other one
starts with a key, is the text of all their steps. Following these from a root is
following the first path to the container that the other starts from, and then the other
one from there.

The last step of the first path changes its part: on its own it ends at a place, and in
the whole it leads on to the container at this place. `Heap.walk_append` is where the two
meet: where the first path ends at a place, the whole goes on with `Heap.child`, and
where it ends at an absent step, so does the whole.
-/

namespace DynamicData

variable {α : Type}

/-- An outcome, with the root cause in place of its error. -/
def withoutContext (outcome : Except DataError α) : Except DataError α :=
  outcome.mapError DataError.rootCause

@[simp] theorem withoutContext_along (path : Path) (outcome : Except DataError α) :
    withoutContext (Heap.along path outcome) = withoutContext outcome := by
  cases outcome <;> rfl

theorem except_map_eq_ok {ε β : Type} {x : Except ε α} {f : α → β} {b : β} :
    x.map f = .ok b ↔ ∃ a, x = .ok a ∧ f a = b := by
  cases x <;> simp [Except.map]

theorem except_map_map {ε β γ : Type} (x : Except ε α) (f : α → β) (g : β → γ) :
    (x.map f).map g = x.map fun a => g (f a) := by
  cases x <;> rfl

/-! ## The steps -/

namespace Path

/-- The steps of two paths, one after the other. -/
instance : Append Path :=
  ⟨fun p q => ⟨p.steps ++ q.steps⟩⟩

@[simp] theorem steps_append (p q : Path) : (p ++ q).steps = p.steps ++ q.steps := rfl

theorem isObjectRooted_eq {q : Path} {next : Step} {rest : List Step}
    (hq : q.steps = next :: rest) : q.isObjectRooted = next.segment.isKey := by
  unfold isObjectRooted
  rw [hq]

/-- The text of a path and then that of `q`, with a point before a key. -/
def joined (s : String) (q : Path) (t : String) : String :=
  if q.isObjectRooted then s ++ "." ++ t else s ++ t

theorem Derives.exists_cons {words : List Char} {steps : List Step} (h : Derives words steps) :
    ∃ first rest, steps = first :: rest := by
  obtain ⟨_, _, step, more, _, rfl, _⟩ := derives_iff.mp h
  exact ⟨step, more, rfl⟩

/-- A path with its point, or without one before an index, can follow a step. -/
theorem Derives.following {t : String} {q : Path} (h : Derives t.toList q.steps) :
    Following (if q.isObjectRooted then '.' :: t.toList else t.toList) q.steps := by
  obtain ⟨steps⟩ := q
  obtain ⟨word, rest, step, more, hwords, rfl, hstep, htail⟩ := derives_iff.mp h
  rw [hwords]
  rcases hstep with hname | hindex
  · have hkey : isObjectRooted ⟨step :: more⟩ = true := by cases hname <;> rfl
    rw [if_pos hkey]
    exact .name hname htail
  · have hkey : isObjectRooted ⟨step :: more⟩ = false := by cases hindex <;> rfl
    rw [hkey]
    exact .index hindex htail

theorem derives_joined {s t : String} {p q : Path} (hp : Derives s.toList p.steps)
    (hq : Derives t.toList q.steps) : Derives (joined s q t).toList (p ++ q).steps := by
  have hwords : (joined s q t).toList =
      s.toList ++ (if q.isObjectRooted then '.' :: t.toList else t.toList) := by
    unfold joined
    split <;> simp
  obtain ⟨word, rest, step, more, hs, hsteps, hstep, htail⟩ := derives_iff.mp hp
  rw [derives_iff, hwords, hs, steps_append, hsteps, List.append_assoc, List.cons_append]
  exact ⟨word, _, step, _, rfl, rfl, hstep, htail.append hq.following⟩

end Path

/-! ## The walk -/

namespace Storage

/-- The node that refers to a storage. -/
def node : Storage → Node
  | .array a => .array a
  | .object o => .object o

/-- The container that a child leads to is one that the following step starts from. -/
theorem ofRoot_node_of_child {h : Heap} {p : Place} {following : Segment} {c : Storage}
    (hc : h.child p following = .ok c) : ofRoot c.node following = .ok c := by
  cases following with
  | key k =>
      obtain ⟨o, _, rfl⟩ := except_map_eq_ok.mp hc
      rfl
  | index i =>
      obtain ⟨a, _, rfl⟩ := except_map_eq_ok.mp hc
      rfl

end Storage

namespace Heap

/-- Goes on from where a walk ends: from a place to the container there, and from an absent
step nowhere. -/
def goOn (h : Heap) (next : Step) (rest : List Step) :
    Destination → Except DataError Destination
  | .absent location => .ok (.absent location)
  | .place p => do h.walk (← h.child p next.segment) (next :: rest)

theorem walk_cons (h : Heap) (c : Storage) (step next : Step) (rest : List Step) :
    h.walk c (step :: next :: rest) = h.walk c [step] >>= h.goOn next rest := by
  rw [walk, walk, bind_assoc]
  congr 1
  funext p
  split <;> rfl

/-- A walk along steps one after the other goes on from where the first of them end. -/
theorem walk_append (h : Heap) (c : Storage) (first : Step) (steps : List Step) (next : Step)
    (rest : List Step) : h.walk c (first :: (steps ++ next :: rest)) =
      h.walk c (first :: steps) >>= h.goOn next rest := by
  induction steps generalizing c first with
  | nil => exact walk_cons h c first next rest
  | cons second steps ih =>
      rw [List.cons_append, walk_cons, walk_cons h c first, bind_assoc]
      congr 1
      funext d
      cases d with
      | absent location => rfl
      | place p =>
          simp only [goOn, bind_assoc, ih]

theorem resolve_eq (h : Heap) {path : Path} {first : Step} {rest : List Step}
    (hsteps : path.steps = first :: rest) (root : Node) : h.resolve path root =
      Storage.ofRoot root first.segment >>= fun c => h.walk c (first :: rest) := by
  unfold resolve
  rw [hsteps]

theorem resolve_append (h : Heap) {p q : Path} {next : Step} {rest : List Step}
    (hp : p.steps ≠ []) (hq : q.steps = next :: rest) (root : Node) :
    h.resolve (p ++ q) root = h.resolve p root >>= h.goOn next rest := by
  obtain ⟨first, steps, hp⟩ := List.exists_cons_of_ne_nil hp
  unfold resolve
  rw [Path.steps_append, hp, hq]
  simp only [List.cons_append, walk_append, bind_assoc]

/-! ## The container in between -/

/-- The container at the end of a path, of the kind that the path `q` starts from. -/
def containerAlong (h : Heap) (p q : Path) (root : Node) : Except DataError Node :=
  if q.isObjectRooted then (h.getPath .object p root).map .object
  else (h.getPath .array p root).map .array

/-- The container that a destination leads on to. -/
def arrive (h : Heap) (following : Segment) : Destination → Except DataError Storage
  | .absent location => .error (.missing location)
  | .place p => h.child p following

theorem map_along {β : Type} (path : Path) (outcome : Except DataError α) (f : α → β) :
    (along path outcome).map f = along path (outcome.map f) := by
  cases outcome <;> rfl

theorem along_eq_ok {path : Path} {outcome : Except DataError α} {a : α} :
    along path outcome = .ok a ↔ outcome = .ok a := by
  cases outcome <;> simp [along, Except.mapError]

theorem containerAlong_eq (h : Heap) (p : Path) {q : Path} {next : Step} {rest : List Step}
    (hq : q.steps = next :: rest) (root : Node) : h.containerAlong p q root =
      along p ((h.resolve p root >>= h.arrive next.segment).map Storage.node) := by
  obtain ⟨segment, isOptional⟩ := next
  unfold containerAlong getPath
  rw [Path.isObjectRooted_eq hq, map_along, map_along]
  cases segment with
  | key k =>
      rw [if_pos (by rfl)]
      congr 1
      cases h.resolve p root with
      | error e => rfl
      | ok d =>
          cases d with
          | absent location => rfl
          | place pl => exact (except_map_map (h.get .object pl) Storage.object Storage.node).symm
  | index i =>
      rw [if_neg (by simp [Segment.isKey])]
      congr 1
      cases h.resolve p root with
      | error e => rfl
      | ok d =>
          cases d with
          | absent location => rfl
          | place pl => exact (except_map_map (h.get .array pl) Storage.array Storage.node).symm

/-- Where the first path leads to a container, the whole path leads to where the second
one leads from there. -/
theorem resolve_append_of_container {h : Heap} {p q : Path} {root c : Node}
    (hp : p.steps ≠ []) (hq : q.steps ≠ []) (hc : h.containerAlong p q root = .ok c) :
    h.resolve (p ++ q) root = h.resolve q c := by
  obtain ⟨next, rest, hq⟩ := List.exists_cons_of_ne_nil hq
  rw [containerAlong_eq h p hq] at hc
  obtain ⟨storage, hstorage, rfl⟩ := except_map_eq_ok.mp (along_eq_ok.mp hc)
  obtain ⟨d, hd, harrive⟩ := except_bind_eq_ok.mp hstorage
  cases d with
  | absent location => cases harrive
  | place pl =>
      change h.child pl next.segment = .ok storage at harrive
      rw [resolve_append h hp hq, hd]
      show (do h.walk (← h.child pl next.segment) (next :: rest)) = _
      unfold resolve
      rw [hq, harrive]
      dsimp only
      rw [Storage.ofRoot_node_of_child harrive]

/-- Where the first path leads to no container, the whole path leads nowhere, or to the
absent step that the first one ends at. -/
theorem getPath_append_of_error {h : Heap} {p q : Path} {root : Node} {e : DataError}
    (hp : p.steps ≠ []) (hq : q.steps ≠ []) (hc : h.containerAlong p q root = .error e)
    (t : Target α) : withoutContext (h.getPath t (p ++ q) root) = .error e.rootCause := by
  obtain ⟨next, rest, hq⟩ := List.exists_cons_of_ne_nil hq
  have hc : withoutContext (h.containerAlong p q root) = .error e.rootCause := by
    rw [hc]
    rfl
  rw [containerAlong_eq h p hq, withoutContext_along] at hc
  unfold getPath
  rw [withoutContext_along, resolve_append h hp hq]
  cases hres : h.resolve p root with
  | error e' =>
      rw [hres] at hc
      exact congrArg Except.error (Except.error.inj hc)
  | ok d =>
      rw [hres] at hc
      cases d with
      | absent location => exact congrArg Except.error (Except.error.inj hc)
      | place pl =>
          change withoutContext ((h.child pl next.segment).map _) = _ at hc
          show withoutContext ((h.child pl next.segment >>= _) >>= _) = _
          cases hchild : h.child pl next.segment with
          | ok storage =>
              rw [hchild] at hc
              cases hc
          | error e' =>
              rw [hchild] at hc
              exact congrArg Except.error (Except.error.inj hc)

end Heap

/-! ## The texts and the reads -/

namespace Path

theorem steps_ne_nil_of_read {limits : Limits} {s : String} {p : Path}
    (h : read limits s = .ok p) : p.steps ≠ [] := by
  obtain ⟨first, rest, hsteps⟩ := (read_eq_ok_iff.mp h).1.exists_cons
  rw [hsteps]
  exact List.cons_ne_nil first rest

theorem read_joined {limits₁ limits₂ : Limits} {s t : String} {p q : Path}
    (hp : read limits₁ s = .ok p) (hq : read limits₂ t = .ok q) {limits : Limits}
    (hle : p.steps.length + q.steps.length ≤ limits.maxPathSteps) :
    read limits (joined s q t) = .ok (p ++ q) := by
  refine read_eq_ok_iff.mpr ⟨derives_joined (read_eq_ok_iff.mp hp).1 (read_eq_ok_iff.mp hq).1, ?_⟩
  rw [steps_append, List.length_append]
  exact hle

end Path

namespace Heap

/-- The joined text of two paths has the steps of both. Every read of it is the read of the
second path from the container at the end of the first one, up to the context of an error;
and without such a container it fails for the reason why there is none. -/
theorem read_joined_compositional {limits₁ limits₂ : Limits} {s t : String} {p q : Path}
    (hp : Path.read limits₁ s = .ok p) (hq : Path.read limits₂ t = .ok q) :
    (∀ limits : Limits, p.steps.length + q.steps.length ≤ limits.maxPathSteps →
      Path.read limits (Path.joined s q t) = .ok (p ++ q)) ∧
    ∀ (h : Heap) (root : Node),
      (∀ c, h.containerAlong p q root = .ok c → ∀ {β : Type} (target : Target β) (fallback : β),
        withoutContext (h.getPath target (p ++ q) root) =
            withoutContext (h.getPath target q c) ∧
          withoutContext (h.getPathOr target fallback (p ++ q) root) =
            withoutContext (h.getPathOr target fallback q c) ∧
          withoutContext (h.optPath target (p ++ q) root) =
            withoutContext (h.optPath target q c)) ∧
      ∀ e, h.containerAlong p q root = .error e → ∀ {β : Type} (target : Target β),
        withoutContext (h.getPath target (p ++ q) root) = .error e.rootCause := by
  have hps := Path.steps_ne_nil_of_read hp
  have hqs := Path.steps_ne_nil_of_read hq
  refine ⟨fun _ hle => Path.read_joined hp hq hle, fun h root => ⟨?_, ?_⟩⟩
  · intro c hc β target fallback
    have hres := resolve_append_of_container hps hqs hc
    unfold getPath getPathOr optPath
    simp only [withoutContext_along, hres, and_self]
  · intro e hc β target
    exact getPath_append_of_error hps hqs hc target

/-- An optional index in the first path, and a key after it; from a root where the first
path leads nowhere, the whole path misses what the first one misses. -/
theorem read_joined_optional_index :
    let p : Path := ⟨[⟨.key "a", false⟩, ⟨.index 0, true⟩]⟩
    let q : Path := ⟨[⟨.key "b", false⟩]⟩
    let h : Heap := ⟨#[[.object ⟨1⟩]], #[[("a", .array ⟨0⟩)], [("b", .int 5)]]⟩
    Path.read .standard "a[0]?" = .ok p ∧ Path.read .standard "b" = .ok q ∧
      Path.joined "a[0]?" q "b" = "a[0]?.b" ∧ Path.read .standard "a[0]?.b" = .ok (p ++ q) ∧
      h.containerAlong p q (.object ⟨0⟩) = .ok (.object ⟨1⟩) ∧
      withoutContext (h.getPath .int (p ++ q) (.object ⟨0⟩)) = .ok 5 ∧
      withoutContext (h.getPath .int (p ++ q) (.object ⟨1⟩)) = .error (.missing (.key "a")) := by
  intro p q h
  have hp : Path.read .standard "a[0]?" = .ok p := by rfl
  have hq : Path.read .standard "b" = .ok q := by rfl
  have hjoined : Path.joined "a[0]?" q "b" = "a[0]?.b" := by rfl
  have hc : h.containerAlong p q (.object ⟨0⟩) = .ok (.object ⟨1⟩) := by rfl
  have habsent : h.containerAlong p q (.object ⟨1⟩) =
      .error (.atPath (.missing (.key "a")) "a[0]?") := by rfl
  obtain ⟨hread, hreads⟩ := read_joined_compositional hp hq
  refine ⟨hp, hq, hjoined, hjoined ▸ hread .standard (by decide), hc, ?_,
    (hreads h _).2 _ habsent Target.int⟩
  rw [((hreads h _).1 _ hc Target.int 0).1]
  rfl

end Heap
end DynamicData
