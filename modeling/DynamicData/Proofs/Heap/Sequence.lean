import DynamicData.Proofs.Heap.Frame

/-!
# An array is a list

The specification is a list of nodes, and each change cuts it in two and puts the parts
together again: nodes are appended, put between the parts, or stand in for the first node of
the second part, which may also be dropped. A removal by value drops the first node that is
equal to the value. Whatever a history does, the items of an array are the list that its
changes lead to. An array that is appended to itself gives what it held before.
-/

namespace DynamicData

/-! ## The specification -/

/-- A change of the items of an array. -/
inductive ItemChange
  | append (nodes : List Node)
  | insert (index : Nat) (n : Node)
  | set (index : Nat) (n : Node)
  | remove (index : Nat)
  | removeFirst (equal : Node → Bool)

/-- The items after a change. -/
def ItemChange.apply (xs : List Node) : ItemChange → List Node
  | .append nodes => xs ++ nodes
  | .insert index n => xs.take index ++ n :: xs.drop index
  | .set index n => xs.take index ++ n :: xs.drop (index + 1)
  | .remove index => xs.take index ++ xs.drop (index + 1)
  | .removeFirst equal => xs.eraseP equal

namespace Heap

variable {h h' : Heap}

/-- Whether an item is equal to a value that a caller supplies. -/
def equalTo (h : Heap) (v : Insertable) (item : Node) : Bool :=
  (h.nodeOf v).1.same item (h.nodeOf v).2

/-- The change of an array's items that an operation stands for. What another array, or the
same one, is appended for is what it holds before the operation. -/
def itemChange? (h : Heap) : Operation → Option ItemChange
  | .add _ v => some (.append [(h.nodeOf v).2])
  | .addAll _ vs => some (.append (h.nodesOf vs).2)
  | .addAllOf _ other => some (.append (h.items other))
  | .insertAt _ index v => some (.insert index (h.nodeOf v).2)
  | .setAt _ index v => some (.set index (h.nodeOf v).2)
  | .removeAt _ index => some (.remove index)
  | .removeValue _ v => some (.removeFirst (h.equalTo v))
  | _ => none

/-- What all questions about an array, and the changes that return something, have for an
answer when its items are `xs`. -/
structure Lists (h : Heap) (a : ArrayRef) (xs : List Node) : Prop where
  items : h.items a = xs
  length : h.length (.array a) = xs.length
  lookup : ∀ index : Nat, h.lookup (.index a index) = xs[index]?
  removed : ∀ index : Nat, (h.removeAt a index).map Prod.snd = match xs[index]? with
    | some n => .ok n
    | none => .error (.indexOutOfBounds index xs.length)
  found : ∀ v, h.KnowsValue v → (h.removeValue a v).2 = xs.any (h.equalTo v)

/-! ## The items of an array follow it -/

/-- Nodes are stored as they are. -/
theorem nodesOf_nodes (h : Heap) (nodes : List Node) :
    h.nodesOf (nodes.map .node) = (h, nodes) := by
  induction nodes with
  | nil => rfl
  | cons n rest ih =>
      rw [List.map_cons, nodesOf, nodeOf]
      dsimp only
      rw [ih]

theorem insertIdx_eq_take_drop {α : Type} {index : Nat} {xs : List α} (x : α)
    (hle : index ≤ xs.length) : xs.insertIdx index x = xs.take index ++ x :: xs.drop index := by
  induction index generalizing xs with
  | zero => rfl
  | succ index ih =>
      cases xs with
      | nil => cases hle
      | cons y ys =>
          rw [List.insertIdx_succ_cons, ih (Nat.le_of_succ_le_succ hle)]
          rfl

theorem WellFormed.items_nodeOf (hw : h.WellFormed) {v : Insertable} (hv : h.KnowsValue v)
    {a : ArrayRef} (ha : h.Allocated (.array a)) : (h.nodeOf v).1.items a = h.items a :=
  (hw.nodeOf v hv).grows.agree _ ha

/-- What is written to an array is there afterwards, whatever was made for it before. -/
theorem Grows.items_setItems (hg : h.Grows h') {a : ArrayRef} (ha : h.Allocated (.array a))
    (items : List Node) : (h'.setItems a items).items a = items :=
  items_setItems_self (hg.allocated _ ha) items

/-- What is written, after a value has become a node, is made of the items from before. -/
theorem WellFormed.items_rearranged (hw : h.WellFormed) {v : Insertable} (hv : h.KnowsValue v)
    {a : ArrayRef} (ha : h.Allocated (.array a)) (f : List Node → List Node) :
    ((h.nodeOf v).1.setItems a (f ((h.nodeOf v).1.items a))).items a = f (h.items a) := by
  rw [(hw.nodeOf v hv).grows.items_setItems ha, hw.items_nodeOf hv ha]

theorem WellFormed.removeValue_eq (hw : h.WellFormed) {v : Insertable} (hv : h.KnowsValue v)
    {a : ArrayRef} (ha : h.Allocated (.array a)) :
    (h.removeValue a v).1.items a = (h.items a).eraseP (h.equalTo v) ∧
      (h.removeValue a v).2 = (h.items a).any (h.equalTo v) := by
  have hitems := hw.items_nodeOf hv ha
  have hg := (hw.nodeOf v hv).grows
  have hany : ((h.items a).findIdx? (h.equalTo v)).isSome = (h.items a).any (h.equalTo v) :=
    List.findIdx?_isSome
  have hsearch : (h.items a).findIdx? (fun item => (h.nodeOf v).1.same item (h.nodeOf v).2) =
      (h.items a).findIdx? (h.equalTo v) := rfl
  rw [List.eraseP_eq_eraseIdx, ← hany]
  unfold Heap.removeValue
  dsimp only
  rw [hitems, hsearch]
  cases (h.items a).findIdx? (h.equalTo v) with
  | none => exact ⟨hitems, rfl⟩
  | some index => exact ⟨hg.items_setItems ha _, rfl⟩

theorem WellFormed.lists (hw : h.WellFormed) {a : ArrayRef} (ha : h.Allocated (.array a)) :
    h.Lists a (h.items a) where
  items := rfl
  length := rfl
  lookup := fun _ => rfl
  removed := by
    intro index
    unfold Heap.removeAt
    dsimp only
    cases (h.items a)[index]? <;> rfl
  found := fun v hv => (hw.removeValue_eq hv ha).2

/-- An accepted operation on an array changes its items as the specification says. -/
theorem simulates_items (a : ArrayRef) :
    Simulates (fun h => h.items a) ItemChange.apply itemChange? (.array a) where
  frame := id
  change := by
    intro h h' op hw hp ht hr
    cases op with
    | add b v =>
        cases ht
        obtain ⟨-, rfl⟩ := add_eq_ok (eq_ok_of_toOption hr)
        exact ⟨_, rfl, hw.items_rearranged hp.2 hp.1 (· ++ [(h.nodeOf v).2])⟩
    | addAll b vs =>
        cases ht
        obtain ⟨-, rfl⟩ := addAll_eq_ok (eq_ok_of_toOption hr)
        have hg := (hw.nodesOf vs hp.2).grows
        have hitems : (h.nodesOf vs).1.items a = h.items a := hg.agree _ hp.1
        refine ⟨_, rfl, (hg.items_setItems hp.1 _).trans ?_⟩
        rw [hitems]
        rfl
    | addAllOf b other =>
        cases ht
        obtain ⟨-, rfl⟩ := addAll_eq_ok (eq_ok_of_toOption hr)
        rw [nodesOf_nodes]
        exact ⟨_, rfl, (Grows.refl h).items_setItems hp.1 _⟩
    | insertAt b index v =>
        cases ht
        obtain ⟨-, hle, rfl⟩ := insertAt_eq_ok (eq_ok_of_toOption hr)
        rw [hw.items_nodeOf hp.2 hp.1] at hle
        refine ⟨_, rfl, (hw.items_rearranged hp.2 hp.1 (·.insertIdx index (h.nodeOf v).2)).trans ?_⟩
        exact insertIdx_eq_take_drop _ hle
    | setAt b index v =>
        cases ht
        obtain ⟨-, hlt, rfl⟩ := setAt_eq_ok (eq_ok_of_toOption hr)
        rw [hw.items_nodeOf hp.2 hp.1] at hlt
        refine ⟨_, rfl, (hw.items_rearranged hp.2 hp.1 (·.set index (h.nodeOf v).2)).trans ?_⟩
        exact List.set_eq_take_append_cons_drop.trans (if_pos hlt)
    | removeAt b index =>
        cases ht
        obtain ⟨r, hx, rfl⟩ := eq_ok_of_toOption_map hr
        obtain ⟨-, heq⟩ := removeAt_eq_ok hx
        rw [heq]
        refine ⟨_, rfl, ((Grows.refl h).items_setItems hp _).trans ?_⟩
        exact List.eraseIdx_eq_take_drop_succ _ _
    | removeValue b v =>
        cases ht
        cases hr
        exact ⟨_, rfl, (hw.removeValue_eq hp.2 hp.1).1⟩
    | _ => cases ht

/-! ## Histories -/

/-- After any history, the items of an array are the list that the accepted changes of it
lead to, whatever reference each came through, and what is read, returned and found is read,
returned and found in this list. A change is accepted unless it would put the array below
itself or names an index out of range. -/
theorem Reachable.array_list (hr : h.Reachable) {a : ArrayRef} (ha : h.Allocated (.array a))
    {ops : List Operation} (hp : h.PermitsAll ops) :
    (h.afterAll ops).Lists a
        ((effects itemChange? (.array a) h ops).foldl ItemChange.apply (h.items a)) ∧
      ∀ op, op.target? = some (.array a) → (h.afterAll ops).Permits op →
        (((h.afterAll ops).run op).isSome = true ↔ (h.afterAll ops).Accepts op) := by
  have hw := (hr.afterAll hp).wellFormed
  refine ⟨?_, fun op ht hpermits => hw.isSome_run_iff hpermits ht⟩
  rw [← (simulates_items a).afterAll hr.wellFormed ha hp]
  exact hw.lists (hr.wellFormed.allocated_afterAll hp ha)

/-- An array that is appended to itself, an item put in front and one replaced, an attempt to
put the array into itself, and the removal of the first object that is equal to another. -/
theorem lists_after_addAllOf :
    let h₁ := (empty.after (.newObject [("n", .int 7)])).after (.newObject [("n", .uint 7)])
    let h := h₁.after (.newArray [.node (.object ⟨0⟩), .bool true])
    let ops : List Operation :=
      [.addAllOf ⟨0⟩ ⟨0⟩, .insertAt ⟨0⟩ 0 (.text "x"), .add ⟨0⟩ (.list [.node (.array ⟨0⟩)]),
        .setAt ⟨0⟩ 4 .none, .removeValue ⟨0⟩ (.capability (.object ⟨1⟩)), .setAt ⟨0⟩ 9 .none]
    h.Reachable ∧ h.Allocated (.array ⟨0⟩) ∧ h.PermitsAll ops ∧
      (h.afterAll ops).Lists ⟨0⟩ [.text "x", .bool true, .object ⟨0⟩, .null] := by
  intro h₁ h ops
  have hr : h.Reachable :=
    .after (.after (.after .empty (by decide)) (by decide)) (by decide)
  have ha : h.Allocated (.array ⟨0⟩) := by decide
  have hp : h.PermitsAll ops := by decide
  have heffects : (effects itemChange? (.array ⟨0⟩) h ops).foldl ItemChange.apply
      (h.items ⟨0⟩) = [.text "x", .bool true, .object ⟨0⟩, .null] := by decide
  have hlists := (hr.array_list ha hp).1
  rw [heffects] at hlists
  exact ⟨hr, ha, hp, hlists⟩

end Heap
end DynamicData
