import DynamicData.Proofs.Heap.History
import DynamicData.Proofs.Term.Carried
import DynamicData.Proofs.Term.Nesting

/-!
# The limit on nesting

What is loaded from JSON is no deeper than the limit, since the finished document is
measured. The reader of terms counts on the way down instead, and it passes over a list
without items where such a list has its own short form. What is loaded from a binary
payload can therefore be one deeper than the limit, with empty arrays at the bottom; its
objects and its arrays with items nest no deeper than the limit.
-/

namespace DynamicData

/-! ## Trees and the terms that carry them -/

namespace Tree

variable {ι : Type}

theorem depth_bare (t : Tree ι) : t.bare.depth = t.depth :=
  depth_image (fun _ => rfl) (fun _ => rfl) t

theorem term_bare (t : Tree ι) : t.bare.term = t.term := by
  induction t using induction with
  | array mark items ih =>
      rw [bare_array, term, term, termItems_eq_map, termItems_eq_map, List.map_map]
      exact congrArg Term.list (List.map_congr_left ih)
  | object mark entries ih =>
      rw [bare_object, term, term, termEntries_eq_map, termEntries_eq_map, List.map_map]
      exact congrArg Term.map (List.map_congr_left fun e he => by rw [Function.comp, ih e he])
  | _ => rfl

/-- The term of a tree counts all its containers but the empty arrays, and nothing lies
inside those. -/
theorem depth_le_nesting_term (t : Tree ι) : t.depth ≤ t.term.nesting + 1 := by
  induction t using induction with
  | array mark items ih =>
      rw [depth_array_le, term, termItems_eq_map]
      exact fun u hu =>
        (ih u hu).trans (Term.nesting_lt_of_mem_list (List.mem_map_of_mem hu))
  | object mark entries ih =>
      rw [depth_object_le, term, termEntries_eq_map]
      intro e he
      have hmem : (Term.ofText e.1, e.2.term) ∈
          entries.map fun e => (Term.ofText e.1, e.2.term) := List.mem_map_of_mem he
      exact (ih e he).trans (Term.nesting_lt_of_mem_map hmem).2
  | _ => exact Nat.zero_le _

end Tree

/-! ## Documents and the terms that they come from -/

namespace Term

theorem nesting_term_of_integer {i : Int} {d : Document} (hd : Tree.integer? i = some d) :
    d.term.nesting = 0 := by
  unfold Tree.integer? at hd
  split at hd
  · cases hd
    rfl
  · split at hd
    · cases hd
      rfl
    · cases hd

mutual

/-- A document nests no deeper than the term that it comes from. -/
theorem nesting_term_le_of_document : ∀ (t : Term) {d : Document}, t.document = .ok d →
    d.term.nesting ≤ t.nesting
  | .nil, _, hd => by
      cases hd
      exact Nat.zero_le _
  | .bool b, _, hd => by
      cases hd
      exact Nat.zero_le _
  | .integer i, d, hd => by
      unfold document at hd
      cases hi : (Tree.integer? i : Option Document) with
      | none =>
          rw [hi] at hd
          cases hd
      | some e =>
          rw [hi] at hd
          cases hd
          exact Nat.le_of_eq (nesting_term_of_integer hi)
  | .float x, _, hd => by
      cases hd
      exact Nat.zero_le _
  | .binary bytes, _, hd => by
      unfold document at hd
      split at hd
      · cases hd
        exact Nat.zero_le _
      · cases hd
  | .atom name, _, hd => by
      cases hd
      exact Nat.zero_le _
  | .list items, d, hd => by
      unfold document at hd
      obtain ⟨ds, hds, hd⟩ := except_bind_eq_ok.mp hd
      cases hd
      have hle := nesting_term_le_of_documentItems items hds
      rw [Tree.term, Tree.termItems_eq_map]
      -- there are as many documents as terms, so both lists have items or neither has
      cases items with
      | nil =>
          cases hds
          exact Nat.le_refl 0
      | cons t rest =>
          rw [nesting, Nat.add_comm, nesting_list_le, List.forall_mem_map]
          exact hle
  | .map pairs, d, hd => by
      unfold document at hd
      obtain ⟨ps, hps, hd⟩ := except_bind_eq_ok.mp hd
      cases hd
      rw [Tree.term, Tree.termEntries_eq_map, nesting, nesting, Nat.add_le_add_iff_left,
        nestingOfPairs_le, List.forall_mem_map]
      -- a key that comes again has taken the value of a later pair
      refine fun e he => ⟨Nat.zero_le _, ?_⟩
      obtain ⟨p, hp, hpe⟩ := Entries.mem_values_ofPairs (List.mem_map_of_mem he)
      rw [← hpe]
      exact nesting_term_le_of_documentPairs pairs hps p hp

theorem nesting_term_le_of_documentItems : ∀ (ts : List Term) {ds : List Document},
    documentItems ts = .ok ds → ∀ d ∈ ds, d.term.nesting ≤ nestingOfItems ts
  | [], _, hds => by
      cases hds
      exact fun _ hd => absurd hd List.not_mem_nil
  | t :: rest, ds, hds => by
      unfold documentItems at hds
      obtain ⟨d, hd, hds⟩ := except_bind_eq_ok.mp hds
      obtain ⟨ds', hds', hds⟩ := except_bind_eq_ok.mp hds
      cases hds
      rw [List.forall_mem_cons, nestingOfItems]
      have hhead := nesting_term_le_of_document t hd
      exact ⟨hhead.trans (Nat.le_max_left ..), fun e he =>
        (nesting_term_le_of_documentItems rest hds' e he).trans (Nat.le_max_right ..)⟩

theorem nesting_term_le_of_documentPairs : ∀ (ps : List (Term × Term))
    {es : List (String × Document)}, documentPairs ps = .ok es →
    ∀ e ∈ es, e.2.term.nesting ≤ nestingOfPairs ps
  | [], _, hes => by
      cases hes
      exact fun _ he => absurd he List.not_mem_nil
  | (k, t) :: rest, es, hes => by
      unfold documentPairs at hes
      obtain ⟨name, _, hes⟩ := except_bind_eq_ok.mp hes
      obtain ⟨d, hd, hes⟩ := except_bind_eq_ok.mp hes
      obtain ⟨es', hes', hes⟩ := except_bind_eq_ok.mp hes
      cases hes
      rw [List.forall_mem_cons, nestingOfPairs]
      have hhead := nesting_term_le_of_document t hd
      exact ⟨hhead.trans ((Nat.le_max_right ..).trans (Nat.le_max_left ..)), fun e he =>
        (nesting_term_le_of_documentPairs rest hes' e he).trans (Nat.le_max_right ..)⟩

end

end Term

/-! ## Documents read under limits -/

namespace Document

theorem depth_le_of_ofSource {limits : Limits} {s : Source} {d : Document}
    (hd : ofSource limits s = .ok d) : d.depth ≤ limits.maxNestingDepth := by
  obtain ⟨_, hd⟩ := ok_of_ofSource hd
  exact (ok_of_ofJson hd).2

theorem nesting_le_of_ofBinary {limits : Limits} {payload : Bytes} {d : Document}
    (hd : ofBinary limits payload = .ok d) : d.term.nesting ≤ limits.maxNestingDepth := by
  obtain ⟨t, hdecode, ht⟩ := ok_of_ofBinary hd
  exact (Term.nesting_term_le_of_document t ht).trans (Term.nesting_le_of_decode hdecode)

end Document

/-! ## Loaded containers -/

namespace Heap

/-- The tree of a node is no deeper than the limit. -/
def Within (h : Heap) (limits : Limits) (n : Node) : Prop :=
  (h.tree n).depth ≤ limits.maxNestingDepth

/-- The tree of a node is no deeper than the limit but for empty arrays at the bottom. -/
def AlmostWithin (h : Heap) (limits : Limits) (n : Node) : Prop :=
  (h.tree n).term.nesting ≤ limits.maxNestingDepth ∧
    (h.tree n).depth ≤ limits.maxNestingDepth + 1

theorem Built.within {h h' : Heap} {d : Document} {n : Node} (hb : h.Built d h' n)
    {limits : Limits} (hd : d.depth ≤ limits.maxNestingDepth) : h'.Within limits n := by
  unfold Within
  rwa [← Tree.depth_bare, hb.tree, Tree.depth_bare]

theorem Built.almostWithin {h h' : Heap} {d : Document} {n : Node} (hb : h.Built d h' n)
    {limits : Limits} (hd : d.term.nesting ≤ limits.maxNestingDepth) :
    h'.AlmostWithin limits n := by
  have hterm : (h'.tree n).term = d.term := by
    rw [← Tree.term_bare, hb.tree, Tree.term_bare]
  have hdepth := Tree.depth_le_nesting_term (h'.tree n)
  unfold AlmostWithin
  rw [hterm] at hdepth ⊢
  exact ⟨hd, hdepth.trans (Nat.add_le_add_right hd 1)⟩

/-- Whatever is accepted under limits respects the limit on nesting, in JSON as a whole and
in a binary payload up to its empty arrays. -/
theorem Reachable.nesting_of_loaded {h : Heap} (hr : h.Reachable) (limits : Limits) :
    (∀ payload r, h.objectOfJson limits payload = .ok r → r.1.Within limits (.object r.2)) ∧
    (∀ payload r, h.arrayOfJson limits payload = .ok r → r.1.Within limits (.array r.2)) ∧
    (∀ s r, h.objectOfSource limits s = .ok r → r.1.Within limits (.object r.2)) ∧
    (∀ s r, h.arrayOfSource limits s = .ok r → r.1.Within limits (.array r.2)) ∧
    (∀ payload r, h.objectOfBinary limits payload = .ok r →
      r.1.AlmostWithin limits (.object r.2)) ∧
    ∀ payload r, h.arrayOfBinary limits payload = .ok r →
      r.1.AlmostWithin limits (.array r.2) := by
  have hw := hr.wellFormed
  refine ⟨?_, ?_, ?_, ?_, ?_, ?_⟩
  · intro payload r h
    obtain ⟨d, hd, hb⟩ := hw.built_of_loadObject (fun _ => Document.keysDistinct_of_ofJson) h
    exact hb.within ((Document.ok_of_ofJson hd).2)
  · intro payload r h
    obtain ⟨d, hd, hb⟩ := hw.built_of_loadArray (fun _ => Document.keysDistinct_of_ofJson) h
    exact hb.within ((Document.ok_of_ofJson hd).2)
  · intro s r h
    obtain ⟨d, hd, hb⟩ := hw.built_of_loadObject (fun _ => Document.keysDistinct_of_ofSource) h
    exact hb.within (Document.depth_le_of_ofSource hd)
  · intro s r h
    obtain ⟨d, hd, hb⟩ := hw.built_of_loadArray (fun _ => Document.keysDistinct_of_ofSource) h
    exact hb.within (Document.depth_le_of_ofSource hd)
  · intro payload r h
    obtain ⟨d, hd, hb⟩ := hw.built_of_loadObject (fun _ => Document.keysDistinct_of_ofBinary) h
    exact hb.almostWithin (Document.nesting_le_of_ofBinary hd)
  · intro payload r h
    obtain ⟨d, hd, hb⟩ := hw.built_of_loadArray (fun _ => Document.keysDistinct_of_ofBinary) h
    exact hb.almostWithin (Document.nesting_le_of_ofBinary hd)

/-- An array of an object with an empty array, read into the empty heap under a limit of
two: the empty array lies at the third level. -/
theorem nesting_of_loaded_at_bound :
    let limits : Limits := ⟨2, 100, 1024⟩
    let payload : Bytes := [131, 108, 0, 0, 0, 1, 116, 0, 0, 0, 1, 109, 0, 0, 0, 1, 97, 106, 106]
    Heap.Reachable empty ∧ ∃ r, empty.arrayOfBinary limits payload = .ok r ∧
      r.1.AlmostWithin limits (.array r.2) ∧
      (r.1.tree (.array r.2)).depth = limits.maxNestingDepth + 1 := by
  intro limits payload
  refine ⟨.empty, _, rfl, ?_, rfl⟩
  exact (Reachable.nesting_of_loaded .empty limits).2.2.2.2.2 payload _ rfl

/-- The short form of an empty array is not counted, so a binary payload may nest deeper
than the limit. The long form of the same array is refused, and so is the same array in
JSON. -/
theorem not_within_limit_of_empty_array :
    let limits : Limits := ⟨1, 100, 1024⟩
    (∃ r, empty.arrayOfBinary limits [131, 108, 0, 0, 0, 1, 106, 106] = .ok r ∧
      ¬ r.1.Within limits (.array r.2)) ∧
    empty.arrayOfBinary limits [131, 108, 0, 0, 0, 1, 108, 0, 0, 0, 0, 106, 106] =
      .error (.binary "Term nesting exceeds maximum depth of 1") ∧
    empty.arrayOfJson limits (Text.encode "[[]]") =
      .error (.limitExceeded "nesting depth" 1 2) := by
  refine ⟨⟨_, rfl, ?_⟩, rfl, rfl⟩
  show ¬ 2 ≤ 1
  decide

end Heap
end DynamicData
