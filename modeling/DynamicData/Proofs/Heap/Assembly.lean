import DynamicData.Proofs.Heap.Admission
import DynamicData.Proofs.Heap.Updating
import DynamicData.Proofs.Merged

/-!
# Documents put together by hand

A program can make a document without any payload: it makes the parts of a container first,
and puts the values into an empty object one after the other. No value is refused, as nothing
that was there before refers to a new object, and an object is left as if it had been made of
all the pairs at once. So what is made of a document with repeated keys is the merged document.
-/

namespace DynamicData

namespace Heap

/-- Puts nodes under keys into an object, one after the other. -/
def putAll (h : Heap) (o : ObjectRef) (pairs : List (String × Node)) : Except DataError Heap :=
  pairs.foldlM (fun h p => h.put o p.1 (.node p.2)) h

mutual

/-- Makes a document, the parts of a container first. -/
def assemble (h : Heap) : Document → Except DataError (Heap × Node)
  | .null => .ok (h, .null)
  | .bool b => .ok (h, .bool b)
  | .int i => .ok (h, .int i)
  | .uint u => .ok (h, .uint u)
  | .float x => .ok (h, .float x)
  | .text s => .ok (h, .text s)
  | .array _ items => do
    let (h, nodes) ← assembleItems h items
    let (h, a) := h.newArray nodes
    return (h, .array a)
  | .object _ pairs => do
    let (h, nodes) ← assemblePairs h pairs
    let (h, o) := h.newObject []
    let h ← h.putAll o nodes
    return (h, .object o)

/-- Makes the items. -/
def assembleItems (h : Heap) : List Document → Except DataError (Heap × List Node)
  | [] => .ok (h, [])
  | d :: rest => do
    let (h, n) ← assemble h d
    let (h, nodes) ← assembleItems h rest
    return (h, n :: nodes)

/-- Makes the values, under their keys. -/
def assemblePairs (h : Heap) :
    List (String × Document) → Except DataError (Heap × List (String × Node))
  | [] => .ok (h, [])
  | (k, d) :: rest => do
    let (h, n) ← assemble h d
    let (h, nodes) ← assemblePairs h rest
    return (h, (k, n) :: nodes)

end

/-! ## Objects -/

variable {h : Heap} {o : ObjectRef}

theorem put_node (h : Heap) (o : ObjectRef) (key : String) (n : Node) :
    h.put o key (.node n) =
      if h.reaches n (.object o) then .error .objectCycle
      else .ok (h.setEntries o ((h.entries o).insert key n)) := rfl

theorem setEntries_setEntries (h : Heap) (o : ObjectRef) (es fs : Entries Node) :
    (h.setEntries o es).setEntries o fs = h.setEntries o fs := by
  simp [setEntries]

theorem setEntries_entries (ho : h.Allocated (.object o)) :
    h.setEntries o (h.entries o) = h := by
  have hlt : o.index < h.objects.size := ho
  simp [setEntries, entries, hlt, Array.setIfInBounds]

theorem setEntries_newObject (h : Heap) (es fs : Entries Node) :
    (h.newObject es).1.setEntries (h.newObject es).2 fs = (h.newObject fs).1 := by
  have hset : (h.objects.push es).setIfInBounds h.objects.size fs = h.objects.push fs := by
    rw [← Array.toList_inj]
    simp
  exact congrArg (fun objects => { h with objects }) hset

section
variable {es : Entries Node}

/-- What else an object holds does not matter for a value from which it is not reachable. -/
theorem WellFormed.put_setEntries (hw : h.WellFormed) (ho : h.Allocated (.object o))
    (hkeys : es.keys.Nodup)
    (hvalues : ∀ n ∈ es.values, n ∈ (h.entries o).values ∨
      h.Knows n ∧ ¬ h.Reaches n (.object o)) {n : Node} (hn : h.Knows n)
    (hno : ¬ h.Reaches n (.object o)) (key : String) :
    (h.setEntries o es).put o key (.node n) = .ok (h.setEntries o (es.insert key n)) := by
  have hwr := writes_setEntries ho es
  have hw' := hw.setEntries ho hkeys hvalues
  have hagree : ∀ t, h.Reaches n t → h.Agree (h.setEntries o es) t := by
    intro t ht
    refine hwr.other t ?_
    rintro rfl
    exact hno ht
  have hsearch : ¬ (h.setEntries o es).reaches n (.object o) = true := by
    rw [hw'.reaches_eq_true_iff (hwr.knows hn), reaches_congr hagree]
    exact hno
  rw [put_node, if_neg hsearch, entries_setEntries_self ho, setEntries_setEntries]

theorem WellFormed.putAll_setEntries (hw : h.WellFormed) (ho : h.Allocated (.object o))
    {pairs : List (String × Node)}
    (hpairs : ∀ p ∈ pairs, h.Knows p.2 ∧ ¬ h.Reaches p.2 (.object o))
    (hkeys : es.keys.Nodup)
    (hvalues : ∀ n ∈ es.values, n ∈ (h.entries o).values ∨
      h.Knows n ∧ ¬ h.Reaches n (.object o)) :
    (h.setEntries o es).putAll o pairs =
      .ok (h.setEntries o (pairs.foldl (fun es p => es.insert p.1 p.2) es)) := by
  induction pairs generalizing es with
  | nil => rfl
  | cons p rest ih =>
      rw [List.forall_mem_cons] at hpairs
      have hrest := ih hpairs.2 (Entries.nodup_insert p.1 p.2 hkeys) fun n hn => by
        rcases Entries.mem_values_insert hn with hold | rfl
        · exact hvalues n hold
        · exact .inr hpairs.1
      rw [putAll, List.foldlM_cons,
        hw.put_setEntries ho hkeys hvalues hpairs.1.1 hpairs.1.2]
      exact hrest

end

/-- Values from which the object is not reachable are all accepted, and come in as they would
come into a map. -/
theorem WellFormed.putAll (hw : h.WellFormed) (ho : h.Allocated (.object o))
    {pairs : List (String × Node)}
    (hpairs : ∀ p ∈ pairs, h.Knows p.2 ∧ ¬ h.Reaches p.2 (.object o)) :
    h.putAll o pairs =
      .ok (h.setEntries o (pairs.foldl (fun es p => es.insert p.1 p.2) (h.entries o))) := by
  have hput := hw.putAll_setEntries ho hpairs (hw.keys_nodup o) fun _ hn => .inl hn
  rwa [setEntries_entries ho] at hput

theorem WellFormed.putAll_newObject (hw : h.WellFormed) {pairs : List (String × Node)}
    (hpairs : ∀ p ∈ pairs, h.Knows p.2) :
    (h.newObject []).1.putAll (h.newObject []).2 pairs =
      .ok (h.newObject (Entries.ofPairs pairs)).1 := by
  have hg := Grows.newObject h []
  have hw' : (h.newObject []).1.WellFormed :=
    hw.newObject List.nodup_nil fun _ hn => absurd hn List.not_mem_nil
  have hfree : ∀ p ∈ pairs, (h.newObject []).1.Knows p.2 ∧
      ¬ (h.newObject []).1.Reaches p.2 (.object (h.newObject []).2) := by
    intro p hp
    refine ⟨hg.knows (hpairs p hp), ?_⟩
    rw [hg.reaches_iff hw (hpairs p hp)]
    exact hw.not_reaches_fresh (hpairs p hp) (Nat.lt_irrefl _)
  have hempty : (h.newObject []).1.entries (h.newObject []).2 = [] := by
    simp [Heap.newObject, Heap.entries]
  rw [hw'.putAll (allocated_newObject h []) hfree, hempty, setEntries_newObject]
  rfl

/-- An empty object into which values are put is afterwards the object of the merged pairs. -/
theorem WellFormed.tree_putAll (hw : h.WellFormed) (ho : h.Allocated (.object o))
    (hempty : h.entries o = []) {pairs : List (String × Node)}
    (hpairs : ∀ p ∈ pairs, h.Knows p.2 ∧ ¬ h.Reaches p.2 (.object o)) :
    ∃ h', h.putAll o pairs = .ok h' ∧ h'.tree (.object o) =
      .object (.object o) (Entries.ofPairs (pairs.map fun p => (p.1, h.tree p.2))) := by
  have hput := hw.putAll ho hpairs
  rw [hempty] at hput
  refine ⟨_, hput, ?_⟩
  have hvalues : ∀ n ∈ (Entries.ofPairs pairs).values,
      h.Knows n ∧ ¬ h.Reaches n (.object o) := by
    intro n hn
    obtain ⟨p, hp, rfl⟩ := Entries.mem_values_ofPairs hn
    exact hpairs p hp
  have hwr := writes_setEntries ho (Entries.ofPairs pairs)
  have hw' := hw.setEntries ho (Entries.nodup_ofPairs pairs) fun n hn => .inr (hvalues n hn)
  have htree : ∀ e ∈ Entries.ofPairs pairs,
      (e.1, (h.setEntries o (Entries.ofPairs pairs)).tree e.2) = (e.1, h.tree e.2) := by
    intro e he
    have hvalue := hvalues e.2 (List.mem_map_of_mem he)
    refine congrArg _ (hw.tree_congr hw' hvalue.1 fun t ht => ?_)
    have hne : t ≠ .object o := by
      rintro rfl
      exact hvalue.2 ht
    obtain ⟨s, hs, hst⟩ := ht
    have halloc := hw.allocated_of_reflTransGen (hvalue.1 s hs) hst
    exact ⟨(hwr.allocated t).mpr (.inl halloc), hwr.other t hne⟩
  have hself := hw'.tree_object ((hwr.allocated (.object o)).mpr (.inl ho))
  rw [entries_setEntries_self ho, List.map_congr_left htree, Entries.map_ofPairs] at hself
  exact hself

/-! ## Documents -/

/-- Entries that are built with repeated keys are also built once they are merged. -/
theorem BuiltEntries.ofPairs {h' : Heap} {pairs : List (String × Document)}
    {nodes : List (String × Node)} (hb : h.BuiltEntries pairs h' nodes) :
    h.BuiltEntries (Entries.ofPairs pairs) h' (Entries.ofPairs nodes) where
  wellFormed := hb.wellFormed
  grows := hb.grows
  knows := by
    intro n hn
    obtain ⟨p, hp, rfl⟩ := Entries.mem_values_ofPairs hn
    exact hb.knows p.2 (List.mem_map_of_mem hp)
  trees := by
    rw [Entries.map_ofPairs Tree.bare, Entries.map_ofPairs fun n => (h'.tree n).bare, hb.trees]

theorem assembleItems_built {items : List Document}
    (ih : ∀ d ∈ items, ∀ {h : Heap}, h.WellFormed →
      ∃ h' n, h.assemble d = .ok (h', n) ∧ h.Built d.merged h' n)
    {h : Heap} (hw : h.WellFormed) :
    ∃ h' nodes, h.assembleItems items = .ok (h', nodes) ∧
      h.BuiltItems (items.map Tree.merged) h' nodes := by
  induction items generalizing h with
  | nil => exact ⟨h, [], rfl, hw, .refl h, fun _ hn => absurd hn List.not_mem_nil, rfl⟩
  | cons d rest ihr =>
      obtain ⟨h₁, n, hd, hb⟩ := ih d List.mem_cons_self hw
      obtain ⟨h₂, nodes, hrest, hbs⟩ :=
        ihr (fun e he => ih e (List.mem_cons_of_mem d he)) hb.wellFormed
      refine ⟨h₂, n :: nodes, ?_, hb.items_cons hbs⟩
      rw [assembleItems]
      refine except_bind_eq_ok.mpr ⟨_, hd, except_bind_eq_ok.mpr ⟨_, hrest, rfl⟩⟩

theorem assemblePairs_built {pairs : List (String × Document)}
    (ih : ∀ p ∈ pairs, ∀ {h : Heap}, h.WellFormed →
      ∃ h' n, h.assemble p.2 = .ok (h', n) ∧ h.Built p.2.merged h' n)
    {h : Heap} (hw : h.WellFormed) :
    ∃ h' nodes, h.assemblePairs pairs = .ok (h', nodes) ∧
      h.BuiltEntries (pairs.map fun p => (p.1, p.2.merged)) h' nodes := by
  induction pairs generalizing h with
  | nil => exact ⟨h, [], rfl, hw, .refl h, fun _ hn => absurd hn List.not_mem_nil, rfl⟩
  | cons p rest ihr =>
      obtain ⟨h₁, n, hd, hb⟩ := ih p List.mem_cons_self hw
      obtain ⟨h₂, nodes, hrest, hbs⟩ :=
        ihr (fun q hq => ih q (List.mem_cons_of_mem p hq)) hb.wellFormed
      refine ⟨h₂, (p.1, n) :: nodes, ?_, hb.entries_cons p.1 hbs⟩
      rw [assemblePairs]
      refine except_bind_eq_ok.mpr ⟨_, hd, except_bind_eq_ok.mpr ⟨_, hrest, rfl⟩⟩

/-- Every document can be put together, and comes out merged. -/
theorem WellFormed.assemble_built (hw : h.WellFormed) (d : Document) :
    ∃ h' n, h.assemble d = .ok (h', n) ∧ h.Built d.merged h' n := by
  induction d using Tree.induction generalizing h with
  | array mark items ih =>
      obtain ⟨h', nodes, hitems, hb⟩ := assembleItems_built (fun d hd _ hw => ih d hd hw) hw
      refine ⟨_, _, ?_, Tree.merged_array mark items ▸ hb.newArray mark⟩
      rw [assemble, hitems]
      rfl
  | object mark pairs ih =>
      obtain ⟨h', nodes, hpairs, hb⟩ := assemblePairs_built (fun p hp _ hw => ih p hp hw) hw
      have hput := hb.wellFormed.putAll_newObject
        fun p hp => hb.knows p.2 (List.mem_map_of_mem hp)
      have hbuilt := hb.ofPairs.newObject (Entries.nodup_ofPairs _) mark
      refine ⟨_, _, ?_, Tree.merged_object mark pairs ▸ hbuilt⟩
      rw [assemble]
      refine except_bind_eq_ok.mpr ⟨_, hpairs, except_bind_eq_ok.mpr ⟨_, hput, rfl⟩⟩
  | _ => exact ⟨h, _, rfl, .scalar hw rfl (by simp [Tree.merged, Tree.bare, Tree.image])⟩

end Heap
end DynamicData
