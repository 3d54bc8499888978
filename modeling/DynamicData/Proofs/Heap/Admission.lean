import DynamicData.Proofs.Heap.Growth

/-!
# What a value reaches

Before a value is stored it becomes a node, which may take fresh arrays, and the container
that is to hold it is searched for below this node. Fresh arrays come between the node and
the references that the value is made of, but they lead nowhere else: what was there before
is below the node if and only if it is reachable, in the heap before, from one of these
references.
-/

namespace DynamicData.Heap

variable {h h' : Heap} {n : Node} {s : Storage}

/-- A storage is reachable from one of several nodes. -/
def AnyReaches (h : Heap) (nodes : List Node) (s : Storage) : Prop :=
  ∃ n ∈ nodes, h.Reaches n s

theorem not_reaches_scalar (hn : n.storage? = none) : ¬ h.Reaches n s := by
  rintro ⟨t, ht, -⟩
  rw [hn] at ht
  cases ht

/-- A container reaches itself and what its children reach. -/
theorem reaches_container_iff {t : Storage} (hn : n.storage? = some t) :
    h.Reaches n s ↔ t = s ∨ h.AnyReaches (h.children t) s := by
  rw [reaches_iff, hn]
  simp only [Option.some.injEq, exists_eq_left', AnyReaches]

@[simp] theorem anyReaches_nil : ¬ h.AnyReaches [] s := by
  rintro ⟨n, hn, -⟩
  cases hn

@[simp] theorem anyReaches_cons {nodes : List Node} :
    h.AnyReaches (n :: nodes) s ↔ h.Reaches n s ∨ h.AnyReaches nodes s :=
  List.exists_mem_cons_iff ..

@[simp] theorem anyReaches_append {left right : List Node} :
    h.AnyReaches (left ++ right) s ↔ h.AnyReaches left s ∨ h.AnyReaches right s := by
  simp only [AnyReaches, List.mem_append, or_and_right, exists_or]

/-! ## Growing heaps -/

/-- Added storage opens no new way to what was there. -/
theorem Grows.reaches_iff (hg : h.Grows h') (hw : h.WellFormed) (hn : h.Knows n) :
    h'.Reaches n s ↔ h.Reaches n s := by
  apply reaches_congr
  rintro t ⟨u, hu, hut⟩
  exact hg.agree t (hw.allocated_of_reflTransGen (hn u hu) hut)

theorem Grows.anyReaches_iff (hg : h.Grows h') (hw : h.WellFormed) {nodes : List Node}
    (hnodes : ∀ n ∈ nodes, h.Knows n) : h'.AnyReaches nodes s ↔ h.AnyReaches nodes s :=
  exists_congr fun n => and_congr_right fun hn => hg.reaches_iff hw (hnodes n hn)

/-- A new array reaches what its items reach, and itself. -/
theorem WellFormed.reaches_newArray_iff (hw : h.WellFormed) {nodes : List Node}
    (hnodes : ∀ n ∈ nodes, h.Knows n) (hs : h.Allocated s) :
    (h.newArray nodes).1.Reaches (.array (h.newArray nodes).2) s ↔ h.AnyReaches nodes s := by
  have hwr := writes_newArray h nodes
  have hne : .array (h.newArray nodes).2 ≠ s := by
    rintro rfl
    exact absurd hs (Nat.lt_irrefl _)
  rw [reaches_container_iff rfl, hwr.written, or_iff_right hne]
  exact (Grows.newArray h nodes).anyReaches_iff hw hnodes

/-! ## Values -/

/-- What was there before is below the nodes of values if and only if one of the references
in the values reaches it. -/
theorem valueCases_reaches : ValueCases
    (fun h v => h.WellFormed → h.KnowsValue v → ∀ s, h.Allocated s →
      ((h.nodeOf v).1.Reaches (h.nodeOf v).2 s ↔ h.AnyReaches v.references s))
    (fun h vs => h.WellFormed → h.KnowsValues vs → ∀ s, h.Allocated s →
      ((h.nodesOf vs).1.AnyReaches (h.nodesOf vs).2 s ↔
        h.AnyReaches (Insertable.referencesOfAll vs) s)) where
  scalar := by
    intro h v n hn href hnode _ _ s _
    rw [hnode, href]
    exact iff_of_false (not_reaches_scalar hn) anyReaches_nil
  reference := by
    intro h v n href hnode _ _ s _
    rw [hnode, href, anyReaches_cons, or_iff_left anyReaches_nil]
  some := id
  list := by
    intro h vs hall hw hv s hs
    have ha := hw.nodesOf vs hv
    exact (ha.wellFormed.reaches_newArray_iff ha.knows (ha.grows.allocated _ hs)).trans
      (hall hw hv s hs)
  nil := fun _ _ _ _ => iff_of_false anyReaches_nil anyReaches_nil
  cons := by
    intro h v vs hone hall hw hv s hs
    obtain ⟨hhead, htail⟩ := knowsValues_cons.mp hv
    have ha := hw.nodeOf v hhead
    have htail' := ha.grows.knowsValues htail
    have hr := ha.wellFormed.nodesOf vs htail'
    rw [Heap.nodesOf, Insertable.referencesOfAll, anyReaches_cons, anyReaches_append,
      hr.grows.reaches_iff ha.wellFormed ha.knows, hone hw hhead s hs,
      hall ha.wellFormed htail' s (ha.grows.allocated _ hs), ha.grows.anyReaches_iff hw htail]

/-- The search below the node of a value finds what the references in the value reach. -/
theorem WellFormed.search_nodeOf_iff (hw : h.WellFormed) {v : Insertable}
    (hv : h.KnowsValue v) (hs : h.Allocated s) :
    (h.nodeOf v).1.reaches (h.nodeOf v).2 s = true ↔ h.AnyReaches v.references s := by
  have ha := hw.nodeOf v hv
  rw [ha.wellFormed.reaches_eq_true_iff ha.knows, valueCases_reaches.value h v hw hv s hs]

theorem WellFormed.search_nodesOf_iff (hw : h.WellFormed) {vs : List Insertable}
    (hv : h.KnowsValues vs) (hs : h.Allocated s) :
    ((h.nodesOf vs).2.any fun n => (h.nodesOf vs).1.reaches n s) = true ↔
      h.AnyReaches (Insertable.referencesOfAll vs) s := by
  have ha := hw.nodesOf vs hv
  rw [List.any_eq_true, ← valueCases_reaches.values h vs hw hv s hs]
  exact exists_congr fun n => and_congr_right fun hn =>
    ha.wellFormed.reaches_eq_true_iff (ha.knows n hn) s

end DynamicData.Heap
