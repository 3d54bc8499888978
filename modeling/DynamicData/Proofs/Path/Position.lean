import DynamicData.Proofs.Heap.Copying
import DynamicData.Proofs.Path.Visibility

/-!
# Paths and positions

A path that leads to a value is a position with marks: the keys and indices of its steps lead
from node to node, and the optional marks do not matter, since none of these nodes is null.
So the three reads along the path convert the node at the position.
-/

namespace DynamicData

variable {α : Type}

namespace Path

/-- The keys and indices of a path. -/
def position (path : Path) : List Segment :=
  path.steps.map Step.segment

/-- The location that the messages of a path name: its last key or index. -/
def location? (path : Path) : Option Location :=
  path.steps.getLast?.map fun step => step.segment.location

end Path

namespace Heap

variable {h : Heap}

/-! ## One step -/

/-- A node inside a container stands at a place of it. -/
theorem exists_place_of_child? {c : Storage} {segment : Segment} {n : Node}
    (hn : h.child? c.node segment = some n) : ∃ p, c.place segment = .ok p ∧
      h.lookup p = some n ∧ p.location = segment.location := by
  cases c <;> cases segment <;> first | exact ⟨_, rfl, hn, rfl⟩ | cases hn

theorem child?_of_place {c : Storage} {segment : Segment} {p : Place}
    (hp : c.place segment = .ok p) : h.child? c.node segment = h.lookup p := by
  cases c <;> cases segment <;> cases hp <;> rfl

/-- A node that a key or an index leads on from is a container to start from. -/
theorem exists_storage_of_child? {n m : Node} {segment : Segment}
    (hm : h.child? n segment = some m) :
    ∃ c : Storage, n = c.node ∧ Storage.ofRoot n segment = .ok c := by
  cases n <;> cases segment <;>
    first | exact ⟨.array _, rfl, rfl⟩ | exact ⟨.object _, rfl, rfl⟩ | cases hm

theorem isNull_eq_of_lookup {p : Place} {n : Node} (hn : h.lookup p = some n) :
    h.isNull p = n.isNull := by
  unfold isNull
  rw [hn]

/-! ## All steps -/

/-- Where a node that is not null stands at the position of the steps, the walk leads to its
place. -/
theorem walk_of_nodeAt {c : Storage} {step : Step} {rest : List Step} {n : Node}
    (hn : h.nodeAt c.node ((step :: rest).map Step.segment) = some n) (hnull : n.isNull = false) :
    ∃ p, h.walk c (step :: rest) = .ok (.place p) ∧ h.lookup p = some n ∧
      (⟨step :: rest⟩ : Path).location? = some p.location := by
  induction rest generalizing c step with
  | nil =>
      obtain ⟨m, hm, hmn⟩ := Option.bind_eq_some_iff.mp hn
      cases hmn
      obtain ⟨p, hp, hlookup, hlocation⟩ := exists_place_of_child? hm
      refine ⟨p, walk_last_eq_place_iff.mpr ⟨hp, ?_⟩, hlookup, congrArg some hlocation.symm⟩
      rw [isNull_eq_of_lookup hlookup, hnull, Bool.and_false]
  | cons next rest ih =>
      obtain ⟨m, hm, hrest⟩ := Option.bind_eq_some_iff.mp hn
      obtain ⟨p, hp, hlookup, -⟩ := exists_place_of_child? hm
      -- a further step is taken from the node in between, so it is a container
      obtain ⟨_, hnext, -⟩ := Option.bind_eq_some_iff.mp hrest
      obtain ⟨s, rfl, hs⟩ := exists_storage_of_child? hnext
      obtain ⟨q, hq, hqn, hlocation⟩ := ih hrest
      have hpresent : h.isNull p = false := by
        rw [isNull_eq_of_lookup hlookup]
        cases s <;> rfl
      have hstep : h.walk c [step] = .ok (.place p) :=
        walk_last_eq_place_iff.mpr ⟨hp, by rw [hpresent, Bool.and_false]⟩
      have hchild : h.child p next.segment = .ok s := child_eq_ok_iff.mpr ⟨hlookup, hs⟩
      exact ⟨q, walk_cons_eq_place_iff.mpr ⟨p, s, hstep, hchild, hq⟩, hqn, hlocation⟩

/-- A walk that ends at a place has followed the position of its steps. -/
theorem nodeAt_of_walk {c : Storage} {steps : List Step} {p : Place} {n : Node}
    (hwalk : h.walk c steps = .ok (.place p)) (hn : h.lookup p = some n) :
    h.nodeAt c.node (steps.map Step.segment) = some n := by
  induction steps generalizing c with
  | nil => cases hwalk
  | cons step rest ih =>
      cases rest with
      | nil =>
          obtain ⟨hp, -⟩ := walk_last_eq_place_iff.mp hwalk
          exact Option.bind_eq_some_iff.mpr ⟨n, (child?_of_place hp).trans hn, rfl⟩
      | cons next rest =>
          obtain ⟨q, s, hq, hs, hrest⟩ := walk_cons_eq_place_iff.mp hwalk
          obtain ⟨hplace, -⟩ := walk_last_eq_place_iff.mp hq
          refine Option.bind_eq_some_iff.mpr ⟨s.node, ?_, ih hrest⟩
          exact (child?_of_place hplace).trans (child_eq_ok_iff.mp hs).1

/-! ## Reads along a path -/

variable {path : Path} {root n : Node}

theorem resolve_of_nodeAt (hsteps : path.steps ≠ []) (hn : h.nodeAt root path.position = some n)
    (hnull : n.isNull = false) : ∃ p, h.resolve path root = .ok (.place p) ∧
      h.lookup p = some n ∧ path.location? = some p.location := by
  obtain ⟨steps⟩ := path
  obtain ⟨first, rest, rfl⟩ := List.exists_cons_of_ne_nil hsteps
  obtain ⟨_, hfirst, -⟩ := Option.bind_eq_some_iff.mp hn
  obtain ⟨c, rfl, hc⟩ := exists_storage_of_child? hfirst
  obtain ⟨p, hwalk, hp⟩ := walk_of_nodeAt hn hnull
  refine ⟨p, ?_, hp⟩
  rw [resolve_eq h rfl, hc]
  exact hwalk

theorem node_of_ofRoot {first : Segment} {c : Storage} (hc : Storage.ofRoot root first = .ok c) :
    c.node = root := by
  cases root <;> cases first <;> cases hc <;> rfl

theorem nodeAt_of_resolve {p : Place} (hres : h.resolve path root = .ok (.place p))
    (hn : h.lookup p = some n) : path.steps ≠ [] ∧ h.nodeAt root path.position = some n := by
  obtain ⟨steps⟩ := path
  cases steps with
  | nil => cases hres
  | cons first rest =>
      rw [resolve_eq h rfl] at hres
      obtain ⟨c, hc, hwalk⟩ := except_bind_eq_ok.mp hres
      exact ⟨List.cons_ne_nil _ _, node_of_ofRoot hc ▸ nodeAt_of_walk hwalk hn⟩

theorem get_value_eq_ok_iff {p : Place} :
    h.get .value p = .ok n ↔ h.lookup p = some n ∧ n.isNull = false := by
  cases hlookup : h.lookup p with
  | none => simp [get, hlookup]
  | some m =>
      rw [get_value_eq hlookup]
      constructor
      · intro hget
        split at hget
        · cases hget
        · next hnull =>
            cases hget
            exact ⟨rfl, Bool.eq_false_iff.mpr hnull⟩
      · rintro ⟨hm, hnull⟩
        cases hm
        rw [if_neg (Bool.eq_false_iff.mp hnull)]

/-- What a path leads to stands at its position. -/
theorem nodeAt_of_getPath (hget : h.getPath .value path root = .ok n) :
    path.steps ≠ [] ∧ h.nodeAt root path.position = some n ∧ n.isNull = false := by
  obtain ⟨d, hd, hvalue⟩ := except_bind_eq_ok.mp (along_eq_ok.mp hget)
  cases d with
  | absent location => cases hvalue
  | place p =>
      obtain ⟨hlookup, hnull⟩ := get_value_eq_ok_iff.mp hvalue
      obtain ⟨hsteps, hn⟩ := nodeAt_of_resolve hd hlookup
      exact ⟨hsteps, hn, hnull⟩

end Heap
end DynamicData
