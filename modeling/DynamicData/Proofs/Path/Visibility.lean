import DynamicData.Proofs.Heap.History
import DynamicData.Proofs.Number.Decimal
import DynamicData.Proofs.Path.Composition

/-!
# Writes seen through a path

A path that leads to a container is followed through containers that all lie above it.
None of them is the container itself, since nothing lies below itself, so a write to it
changes no step of the walk: the path leads to the same container as before, and one step
further to what has been written.
-/

namespace DynamicData

open Relation

/-- The container that a place is in. -/
def Place.container : Place → Storage
  | .key o _ => .object o
  | .index a _ => .array a

theorem Storage.container_of_place {c : Storage} {s : Segment} {p : Place}
    (hp : c.place s = .ok p) : p.container = c := by
  cases c <;> cases s <;> cases hp <;> rfl

theorem Storage.storage?_node (s : Storage) : s.node.storage? = some s := by
  cases s <;> rfl

namespace Heap

variable {h h' : Heap}

/-! ## Places -/

/-- What stands at a place depends on nothing but the contents of its container. -/
theorem lookup_congr {p : Place} (ha : h.Agree h' p.container) :
    h'.lookup p = h.lookup p := by
  cases p with
  | key o k => exact congrArg (Entries.get? k) ha
  | index a i => exact congrArg (fun items : List Node => items[i]?) ha

theorem isNull_congr {p : Place} (ha : h.Agree h' p.container) : h'.isNull p = h.isNull p := by
  unfold isNull
  rw [lookup_congr ha]

theorem contains_of_lookup {p : Place} {s : Storage} (hp : h.lookup p = some s.node) :
    h.Contains p.container s := by
  refine ⟨s.node, ?_, s.storage?_node⟩
  cases p with
  | key o k => exact Entries.mem_values_of_get? hp
  | index a i => exact List.mem_of_getElem? hp

theorem get_object_eq_ok_iff {p : Place} {o : ObjectRef} :
    h.get .object p = .ok o ↔ h.lookup p = some (.object o) := by
  unfold get
  cases hn : h.lookup p with
  | none => simp
  | some n => cases n <;> simp [coerce, Target.object, Node.numeric?]

theorem get_array_eq_ok_iff {p : Place} {a : ArrayRef} :
    h.get .array p = .ok a ↔ h.lookup p = some (.array a) := by
  unfold get
  cases hn : h.lookup p with
  | none => simp
  | some n => cases n <;> simp [coerce, Target.array, Node.numeric?]

/-- The child at a place is the container that stands there, if the step can be taken from
it. -/
theorem child_eq_ok_iff {p : Place} {following : Segment} {s : Storage} :
    h.child p following = .ok s ↔
      h.lookup p = some s.node ∧ Storage.ofRoot s.node following = .ok s := by
  cases following with
  | key k =>
      unfold child
      simp only [except_map_eq_ok, get_object_eq_ok_iff]
      constructor
      · rintro ⟨o, ho, rfl⟩
        exact ⟨ho, rfl⟩
      · rintro ⟨hp, hs⟩
        cases s with
        | object o => exact ⟨o, hp, rfl⟩
        | array a => cases hs
  | index i =>
      unfold child
      simp only [except_map_eq_ok, get_array_eq_ok_iff]
      constructor
      · rintro ⟨a, ha, rfl⟩
        exact ⟨ha, rfl⟩
      · rintro ⟨hp, hs⟩
        cases s with
        | array a => exact ⟨a, hp, rfl⟩
        | object o => cases hs

theorem child_congr {p : Place} {following : Segment} {s : Storage}
    (ha : h.Agree h' p.container) (hc : h.child p following = .ok s) :
    h'.child p following = .ok s := by
  rw [child_eq_ok_iff, lookup_congr ha]
  exact child_eq_ok_iff.mp hc

/-! ## Walks -/

theorem walk_last_eq_place_iff {c : Storage} {last : Step} {p : Place} :
    h.walk c [last] = .ok (.place p) ↔
      c.place last.segment = .ok p ∧ (last.isOptional && h.isNull p) = false := by
  rw [walk, except_bind_eq_ok]
  constructor
  · rintro ⟨q, hq, hd⟩
    split at hd
    · cases hd
    · next hnull =>
        cases hd
        exact ⟨hq, Bool.eq_false_iff.mpr hnull⟩
  · rintro ⟨hp, hnull⟩
    refine ⟨p, hp, ?_⟩
    rw [hnull]
    rfl

theorem walk_cons_eq_place_iff {c : Storage} {step next : Step} {rest : List Step}
    {p : Place} : h.walk c (step :: next :: rest) = .ok (.place p) ↔
      ∃ q s, h.walk c [step] = .ok (.place q) ∧ h.child q next.segment = .ok s ∧
        h.walk s (next :: rest) = .ok (.place p) := by
  rw [walk_cons, except_bind_eq_ok]
  constructor
  · rintro ⟨d, hd, hgo⟩
    cases d with
    | absent location => cases hgo
    | place q =>
        obtain ⟨s, hs, hrest⟩ := except_bind_eq_ok.mp hgo
        exact ⟨q, s, hd, hs, hrest⟩
  · rintro ⟨q, s, hq, hs, hrest⟩
    exact ⟨.place q, hq, except_bind_eq_ok.mpr ⟨s, hs, hrest⟩⟩

/-- A walk goes down from container to container. -/
theorem reflTransGen_of_walk {c : Storage} {steps : List Step} {p : Place}
    (hwalk : h.walk c steps = .ok (.place p)) : ReflTransGen h.Contains c p.container := by
  induction steps generalizing c with
  | nil => cases hwalk
  | cons step rest ih =>
      cases rest with
      | nil =>
          rw [Storage.container_of_place (walk_last_eq_place_iff.mp hwalk).1]
      | cons next rest =>
          obtain ⟨q, s, hq, hs, hrest⟩ := walk_cons_eq_place_iff.mp hwalk
          have hcontains := contains_of_lookup (child_eq_ok_iff.mp hs).1
          rw [Storage.container_of_place (walk_last_eq_place_iff.mp hq).1] at hcontains
          exact (ih hrest).head hcontains

/-- A walk depends on nothing but the contents of the containers above its end. -/
theorem walk_congr {c : Storage} {steps : List Step} {p : Place}
    (hwalk : h.walk c steps = .ok (.place p))
    (ha : ∀ s, ReflTransGen h.Contains s p.container → h.Agree h' s) :
    h'.walk c steps = .ok (.place p) := by
  induction steps generalizing c with
  | nil => cases hwalk
  | cons step rest ih =>
      have hc := ha c (reflTransGen_of_walk hwalk)
      -- the first step ends at a place of `c`, where both heaps have the same
      have hfirst : ∀ q, h.walk c [step] = .ok (.place q) →
          h'.walk c [step] = .ok (.place q) ∧ h.Agree h' q.container := by
        intro q hq
        obtain ⟨hplace, hnull⟩ := walk_last_eq_place_iff.mp hq
        have hq : h.Agree h' q.container := by
          rw [Storage.container_of_place hplace]
          exact hc
        exact ⟨walk_last_eq_place_iff.mpr ⟨hplace, isNull_congr hq ▸ hnull⟩, hq⟩
      cases rest with
      | nil => exact (hfirst p hwalk).1
      | cons next rest =>
          obtain ⟨q, s, hq, hs, hrest⟩ := walk_cons_eq_place_iff.mp hwalk
          obtain ⟨hq, hagree⟩ := hfirst q hq
          exact walk_cons_eq_place_iff.mpr ⟨q, s, hq, child_congr hagree hs, ih hrest⟩

theorem resolve_congr {path : Path} {root : Node} {p : Place}
    (hres : h.resolve path root = .ok (.place p))
    (ha : ∀ s, ReflTransGen h.Contains s p.container → h.Agree h' s) :
    h'.resolve path root = .ok (.place p) := by
  unfold resolve at hres ⊢
  split at hres
  · cases hres
  · obtain ⟨c, hc, hwalk⟩ := except_bind_eq_ok.mp hres
    exact except_bind_eq_ok.mpr ⟨c, hc, walk_congr hwalk ha⟩

/-! ## The container at the end of a path -/

theorem containerAlong_eq_ok_iff {p q : Path} {next : Step} {rest : List Step}
    (hq : q.steps = next :: rest) {root : Node} {s : Storage} :
    h.containerAlong p q root = .ok s.node ↔
      ∃ pl, h.resolve p root = .ok (.place pl) ∧ h.child pl next.segment = .ok s := by
  rw [containerAlong_eq h p hq, along_eq_ok, except_map_eq_ok]
  constructor
  · rintro ⟨t, ht, hnode⟩
    obtain ⟨d, hd, hchild⟩ := except_bind_eq_ok.mp ht
    have hts : t = s := by
      have hstorage := congrArg Node.storage? hnode
      rw [t.storage?_node, s.storage?_node] at hstorage
      exact Option.some.inj hstorage
    cases d with
    | absent location => cases hchild
    | place pl => exact ⟨pl, hd, hts ▸ hchild⟩
  · rintro ⟨pl, hres, hchild⟩
    exact ⟨s, except_bind_eq_ok.mpr ⟨.place pl, hres, hchild⟩, rfl⟩

/-- What a path leads to is contained somewhere. -/
theorem exists_contains_of_containerAlong {p q : Path} {next : Step} {rest : List Step}
    (hq : q.steps = next :: rest) {root : Node} {s : Storage}
    (hc : h.containerAlong p q root = .ok s.node) : ∃ t, h.Contains t s := by
  obtain ⟨pl, -, hchild⟩ := (containerAlong_eq_ok_iff hq).mp hc
  exact ⟨_, contains_of_lookup (child_eq_ok_iff.mp hchild).1⟩

/-- A path to a container still leads there when nothing that was there before has changed
but the contents of this container. -/
theorem WellFormed.containerAlong_congr (hw : h.WellFormed) {p q : Path} {next : Step}
    {rest : List Step} (hq : q.steps = next :: rest) {root : Node} {s : Storage}
    (hc : h.containerAlong p q root = .ok s.node)
    (ha : ∀ t, h.Allocated t → t ≠ s → h.Agree h' t) :
    h'.containerAlong p q root = .ok s.node := by
  obtain ⟨pl, hres, hchild⟩ := (containerAlong_eq_ok_iff hq).mp hc
  have hcontains := contains_of_lookup (child_eq_ok_iff.mp hchild).1
  -- whatever lies above the place contains `s`, so it is not `s`
  have habove : ∀ t, ReflTransGen h.Contains t pl.container → h.Agree h' t := by
    intro t ht
    have hts : TransGen h.Contains t s := TransGen.tail' ht hcontains
    obtain ⟨u, htu, -⟩ := TransGen.head'_iff.mp hts
    refine ha t htu.allocated_left ?_
    rintro rfl
    exact hw.acyclic t hts
  exact (containerAlong_eq_ok_iff hq).mpr
    ⟨pl, resolve_congr hres habove, child_congr (habove _ .refl) hchild⟩

theorem get_value_eq {pl : Place} {n : Node} (hn : h.lookup pl = some n) :
    h.get .value pl = if n.isNull then .error (.null pl.location) else .ok n := by
  unfold get
  rw [hn]
  cases n <;> rfl

/-- One step past the end of a path stands what its container has there. -/
theorem getPath_step {p : Path} (hp : p.steps ≠ []) {segment : Segment} {root : Node}
    {s : Storage} {pl : Place} {n : Node}
    (hc : h.containerAlong p ⟨[⟨segment, false⟩]⟩ root = .ok s.node)
    (hpl : s.place segment = .ok pl) (hn : h.lookup pl = some n) :
    withoutContext (h.getPath .value (p ++ ⟨[⟨segment, false⟩]⟩) root) =
      if n.isNull then .error (.null pl.location) else .ok n := by
  obtain ⟨_, -, hchild⟩ := (containerAlong_eq_ok_iff rfl).mp hc
  have hres : h.resolve (p ++ ⟨[⟨segment, false⟩]⟩) root = .ok (.place pl) := by
    rw [resolve_append_of_container hp (List.cons_ne_nil _ _) hc]
    exact except_bind_eq_ok.mpr
      ⟨s, (child_eq_ok_iff.mp hchild).2, walk_last_eq_place_iff.mpr ⟨hpl, rfl⟩⟩
  unfold getPath
  rw [withoutContext_along, hres]
  show withoutContext (h.get .value pl) = _
  rw [get_value_eq hn]
  split <;> rfl

/-! ## Writing -/

/-- After a change to nothing but a container that a path leads to, the path still leads
there, and what the container has at a place is what the path leads to one step further. -/
theorem WellFormed.visible_of_write (hw : h.WellFormed) {p : Path} (hp : p.steps ≠ [])
    {segment : Segment} {root : Node} {s : Storage} {pl : Place} {n : Node}
    (hc : h.containerAlong p ⟨[⟨segment, false⟩]⟩ root = .ok s.node)
    (ha : ∀ t, h.Allocated t → t ≠ s → h.Agree h' t)
    (hpl : s.place segment = .ok pl) (hn : h'.lookup pl = some n) :
    h'.containerAlong p ⟨[⟨segment, false⟩]⟩ root = .ok s.node ∧
      withoutContext (h'.getPath .value (p ++ ⟨[⟨segment, false⟩]⟩) root) =
        if n.isNull then .error (.null pl.location) else .ok n := by
  have hc' := hw.containerAlong_congr rfl hc ha
  exact ⟨hc', getPath_step hp hc' hpl hn⟩

theorem containerAlong_key_eq_ok_iff {p : Path} {k : String} {root : Node} {o : ObjectRef} :
    h.containerAlong p ⟨[⟨.key k, false⟩]⟩ root = .ok (.object o) ↔
      h.getPath .object p root = .ok o := by
  show Except.map Node.object (h.getPath .object p root) = _ ↔ _
  rw [except_map_eq_ok]
  constructor
  · rintro ⟨q, hq, hnode⟩
    cases hnode
    exact hq
  · exact fun ho => ⟨o, ho, rfl⟩

theorem containerAlong_index_eq_ok_iff {p : Path} {i : Nat} {root : Node} {a : ArrayRef} :
    h.containerAlong p ⟨[⟨.index i, false⟩]⟩ root = .ok (.array a) ↔
      h.getPath .array p root = .ok a := by
  show Except.map Node.array (h.getPath .array p root) = _ ↔ _
  rw [except_map_eq_ok]
  constructor
  · rintro ⟨q, hq, hnode⟩
    cases hnode
    exact hq
  · exact fun ha => ⟨a, ha, rfl⟩

theorem lookup_setEntries_insert {o : ObjectRef} (ho : h.Allocated (.object o)) (k : String)
    (es : Entries Node) (n : Node) :
    (h.setEntries o (es.insert k n)).lookup (.key o k) = some n := by
  rw [lookup, entries_setEntries_self ho, Entries.get?_insert, if_pos rfl]

theorem lookup_setItems_set {a : ArrayRef} (ha : h.Allocated (.array a)) {i : Nat}
    {items : List Node} (hi : i < items.length) (n : Node) :
    (h.setItems a (items.set i n)).lookup (.index a i) = some n := by
  rw [lookup, items_setItems_self ha, List.getElem?_set_self hi]

end Heap

namespace Path

theorem read_key {limits : Limits} {k : String} (hk : parse k = .ok ⟨[⟨.key k, false⟩]⟩)
    (hle : 1 ≤ limits.maxPathSteps) : read limits k = .ok ⟨[⟨.key k, false⟩]⟩ :=
  read_eq_ok_iff.mpr ⟨parse_eq_ok_iff.mp hk, hle⟩

theorem joined_index (s t : String) (i : Nat) (isOptional : Bool) :
    joined s ⟨[⟨.index i, isOptional⟩]⟩ t = s ++ t := rfl

theorem read_index {limits : Limits} {i : Nat} (hi : i ≤ maxIndex)
    (hle : 1 ≤ limits.maxPathSteps) :
    read limits ("[" ++ toString i ++ "]") = .ok ⟨[⟨.index i, false⟩]⟩ := by
  have hfits : Numeral.value (Nat.toDigits 10 i) < 2 ^ 64 := by
    rw [Numeral.value_toDigits]
    exact Nat.lt_of_le_of_lt hi (by decide)
  have hindex := IndexStep.required Nat.toDigits_ne_nil
    (fun _ hc => Nat.isDigit_of_mem_toDigits (by decide) (by decide) hc) hfits
  have hderives := Derives.fromArray hindex .nil .nil
  rw [Numeral.value_toDigits, List.append_nil, List.append_nil] at hderives
  have hchars : ("[" ++ toString i ++ "]").toList = '[' :: (Nat.toDigits 10 i ++ [']']) := by
    simp
  exact read_eq_ok_iff.mpr ⟨hchars ▸ hderives, hle⟩

end Path

namespace Heap

/-- A write to an object that a path leads to leaves the path as it was, and is what the
path leads to one key further. The same holds of an array and an index. -/
theorem Reachable.read_after_write {h : Heap} (hr : h.Reachable) {limits : Limits}
    {s : String} {p : Path} (hp : Path.read limits s = .ok p) (root : Node) :
    (∀ (o : ObjectRef) (k : String) (v : Insertable) (h' : Heap),
      h.getPath .object p root = .ok o → Path.parse k = .ok ⟨[⟨.key k, false⟩]⟩ →
      h.KnowsValue v → h.put o k v = .ok h' →
        h'.getPath .object p root = .ok o ∧
        (∀ limits : Limits, p.steps.length + 1 ≤ limits.maxPathSteps →
          Path.read limits (s ++ "." ++ k) = .ok (p ++ ⟨[⟨.key k, false⟩]⟩)) ∧
        withoutContext (h'.getPath .value (p ++ ⟨[⟨.key k, false⟩]⟩) root) =
          if (h.nodeOf v).2.isNull then .error (.null (.key k)) else .ok (h.nodeOf v).2) ∧
    ∀ (a : ArrayRef) (i : Nat) (v : Insertable) (h' : Heap),
      h.getPath .array p root = .ok a → h.KnowsValue v → h.setAt a i v = .ok h' →
        h'.getPath .array p root = .ok a ∧
        (∀ limits : Limits, i ≤ Path.maxIndex → p.steps.length + 1 ≤ limits.maxPathSteps →
          Path.read limits (s ++ "[" ++ toString i ++ "]") =
            .ok (p ++ ⟨[⟨.index i, false⟩]⟩)) ∧
        withoutContext (h'.getPath .value (p ++ ⟨[⟨.index i, false⟩]⟩) root) =
          if (h.nodeOf v).2.isNull then .error (.null (.index i)) else .ok (h.nodeOf v).2 := by
  have hw := hr.wellFormed
  have hps := Path.steps_ne_nil_of_read hp
  constructor
  · intro o k v h' hget hk hv hput
    have ha := hw.nodeOf v hv
    obtain ⟨-, rfl⟩ := put_eq_ok hput
    have hc := containerAlong_key_eq_ok_iff (k := k).mpr hget
    obtain ⟨t, ht⟩ := exists_contains_of_containerAlong (s := .object o) rfl hc
    have ho := ha.grows.allocated _ (hw.allocated_right ht)
    obtain ⟨hc', hread⟩ := hw.visible_of_write hps (s := .object o) hc
      (fun t ht hts => ha.grows.agree_of_writes (writes_setEntries ho _) ht hts) rfl
      (lookup_setEntries_insert ho k _ _)
    refine ⟨containerAlong_key_eq_ok_iff.mp hc', fun limits hle => ?_, hread⟩
    exact Path.read_joined hp (Path.read_key hk (Nat.le_of_add_left_le hle)) hle
  · intro a i v h' hget hv hset
    have ha := hw.nodeOf v hv
    obtain ⟨-, hi, rfl⟩ := setAt_eq_ok hset
    have hc := containerAlong_index_eq_ok_iff (i := i).mpr hget
    obtain ⟨t, ht⟩ := exists_contains_of_containerAlong (s := .array a) rfl hc
    have har := ha.grows.allocated _ (hw.allocated_right ht)
    obtain ⟨hc', hread⟩ := hw.visible_of_write hps (s := .array a) hc
      (fun t ht hts => ha.grows.agree_of_writes (writes_setItems har _) ht hts) rfl
      (lookup_setItems_set har hi _)
    refine ⟨containerAlong_index_eq_ok_iff.mp hc', fun limits hmax hle => ?_, hread⟩
    have hread := Path.read_joined hp (Path.read_index hmax (Nat.le_of_add_left_le hle)) hle
    rw [Path.joined_index, ← String.append_assoc, ← String.append_assoc] at hread
    exact hread

/-- An object in an array, written through a path with an optional step, and the same array
with null written over the object. -/
theorem read_after_write_in_array :
    let h := ((empty.after (.newObject [])).after (.newArray [.node (.object ⟨0⟩)])).after
      (.newObject [("items", .array ⟨0⟩)])
    let p : Path := ⟨[⟨.key "items", false⟩, ⟨.index 0, true⟩]⟩
    let q : Path := ⟨[⟨.key "items", false⟩]⟩
    let root : Node := .object ⟨1⟩
    (∃ h', h.put ⟨0⟩ "tags" (.list [.bool true]) = .ok h' ∧ h'.getPath .object p root = .ok ⟨0⟩ ∧
      Path.read .standard "items[0]?.tags" = .ok (p ++ ⟨[⟨.key "tags", false⟩]⟩) ∧
      withoutContext (h'.getPath .value (p ++ ⟨[⟨.key "tags", false⟩]⟩) root) =
        .ok (.array ⟨1⟩)) ∧
    ∃ h', h.setAt ⟨0⟩ 0 .none = .ok h' ∧ h'.getPath .array q root = .ok ⟨0⟩ ∧
      Path.read .standard "items[0]" = .ok (q ++ ⟨[⟨.index 0, false⟩]⟩) ∧
      withoutContext (h'.getPath .value (q ++ ⟨[⟨.index 0, false⟩]⟩) root) =
        .error (.null (.index 0)) := by
  intro h p q root
  have hr : h.Reachable := .after (.after (.after .empty (by decide)) (by decide)) (by decide)
  have hp : Path.read .standard "items[0]?" = .ok p := by rfl
  have hq : Path.read .standard "items" = .ok q := by rfl
  constructor
  · obtain ⟨hget, htext, hread⟩ := (Reachable.read_after_write hr hp root).1 ⟨0⟩ "tags"
      (.list [.bool true]) _ (by rfl) (by rfl) (by decide) (by rfl)
    exact ⟨_, by rfl, hget, htext .standard (by decide), hread⟩
  · obtain ⟨hget, htext, hread⟩ := (Reachable.read_after_write hr hq root).2 ⟨0⟩ 0
      .none _ (by rfl) (by decide) (by rfl)
    exact ⟨_, by rfl, hget, htext .standard (by decide) (by decide), hread⟩

end Heap
end DynamicData
