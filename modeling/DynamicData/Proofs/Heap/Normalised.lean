import DynamicData.Heap.Target
import DynamicData.Proofs.Heap.Equivalence
import DynamicData.Proofs.Heap.Territory
import DynamicData.Proofs.Normalised
import DynamicData.Proofs.Term.Integer

/-!
# Integers in a heap have one form

A node is normal if it is not an unsigned word that has a signed form. Every conversion of a
value and every reader of a payload makes normal nodes. So where all nodes in containers are
normal, and those that an operation is supplied with, all nodes in containers are normal
afterwards. Equal integers are then the same node.
-/

namespace DynamicData

/-- The node is not an unsigned word that has a signed form. -/
def Node.Normal (n : Node) : Prop :=
  ∀ u, n = .uint u → 2 ^ 63 ≤ u.toNat

theorem Node.normal_unsigned (u : UInt64) : (Node.unsigned u).Normal := by
  unfold Node.unsigned
  split
  · exact nofun
  · next hlarge =>
      rintro _ ⟨⟩
      exact Nat.not_lt.mp hlarge

namespace Heap

variable {h h' : Heap} {n : Node}

/-- The node stands in a container. -/
def Stores (h : Heap) (n : Node) : Prop :=
  ∃ s, n ∈ h.children s

/-- All nodes that stand in containers are normal. -/
def Normal (h : Heap) : Prop :=
  ∀ n, h.Stores n → n.Normal

theorem normal_empty : empty.Normal := by
  rintro n ⟨s, hn⟩
  rw [children_of_not_allocated (by cases s <;> exact Nat.not_lt_zero _)] at hn
  cases hn

/-! ## Writes -/

theorem Normal.write (hn : h.Normal) {s : Storage} {nodes : List Node}
    (hwr : h.Writes h' s nodes) (hnodes : ∀ n ∈ nodes, n ∈ h.children s ∨ n.Normal) :
    h'.Normal := by
  rintro n ⟨t, hmem⟩
  by_cases hts : t = s
  · subst hts
    rw [hwr.written] at hmem
    exact (hnodes n hmem).elim (fun hold => hn n ⟨t, hold⟩) id
  · rw [(hwr.other t hts).children_eq] at hmem
    exact hn n ⟨t, hmem⟩

theorem Normal.setItems (hn : h.Normal) (a : ArrayRef) {items : List Node}
    (hitems : ∀ n ∈ items, n ∈ h.items a ∨ n.Normal) : (h.setItems a items).Normal := by
  by_cases ha : h.Allocated (.array a)
  · exact hn.write (writes_setItems ha items) hitems
  · -- there is no such array, so nothing is written
    have hsame : h.setItems a items = h := by
      unfold Heap.setItems
      rw [Array.setIfInBounds_eq_of_size_le (Nat.le_of_not_lt ha)]
    rw [hsame]
    exact hn

theorem Normal.setEntries (hn : h.Normal) (o : ObjectRef) {entries : Entries Node}
    (hentries : ∀ n ∈ entries.values, n ∈ (h.entries o).values ∨ n.Normal) :
    (h.setEntries o entries).Normal := by
  by_cases ho : h.Allocated (.object o)
  · exact hn.write (writes_setEntries ho entries) hentries
  · have hsame : h.setEntries o entries = h := by
      unfold Heap.setEntries
      rw [Array.setIfInBounds_eq_of_size_le (Nat.le_of_not_lt ho)]
    rw [hsame]
    exact hn

theorem Normal.newArray (hn : h.Normal) {nodes : List Node} (hnodes : ∀ n ∈ nodes, n.Normal) :
    (h.newArray nodes).1.Normal :=
  hn.write (writes_newArray h nodes) fun n hmem => .inr (hnodes n hmem)

theorem Normal.newObject (hn : h.Normal) {entries : Entries Node}
    (hnodes : ∀ n ∈ entries.values, n.Normal) : (h.newObject entries).1.Normal :=
  hn.write (writes_newObject h entries) fun n hmem => .inr (hnodes n hmem)

/-! ## Trees -/

section
variable {ι : Type}

theorem Normal.buildItems {items : List (Tree ι)}
    (ih : ∀ t ∈ items, ∀ {h : Heap}, h.Normal → (h.build t).1.Normal ∧ (h.build t).2.Normal)
    {h : Heap} (hn : h.Normal) :
    (h.buildItems items).1.Normal ∧ ∀ n ∈ (h.buildItems items).2, n.Normal := by
  induction items generalizing h with
  | nil => exact ⟨hn, fun _ hmem => absurd hmem List.not_mem_nil⟩
  | cons t rest ihr =>
      obtain ⟨hheap, hnode⟩ := ih t List.mem_cons_self hn
      obtain ⟨hall, hnodes⟩ := ihr (fun u hu => ih u (List.mem_cons_of_mem t hu)) hheap
      exact ⟨hall, List.forall_mem_cons.mpr ⟨hnode, hnodes⟩⟩

theorem Normal.build {h : Heap} (hn : h.Normal) {t : Tree ι} (ht : t.Normalised) :
    (h.build t).1.Normal ∧ (h.build t).2.Normal := by
  induction ht generalizing h with
  | array mark parts ih =>
      obtain ⟨hheap, hnodes⟩ := hn.buildItems fun u hu _ hn => ih u hu hn
      exact ⟨hheap.newArray hnodes, nofun⟩
  | @object mark entries parts ih =>
      have hvalues : ∀ t ∈ entries.map Prod.snd, ∀ {h : Heap}, h.Normal →
          (h.build t).1.Normal ∧ (h.build t).2.Normal :=
        List.forall_mem_map.mpr fun e he _ hn => ih e he hn
      obtain ⟨hheap, hnodes⟩ := hn.buildItems hvalues
      rw [← buildEntries_fst] at hheap
      rw [← values_buildEntries] at hnodes
      exact ⟨hheap.newObject hnodes, nofun⟩
  | @uint u large =>
      refine ⟨hn, ?_⟩
      rintro _ ⟨⟩
      exact large
  | _ => exact ⟨hn, nofun⟩

end

theorem normalised_unfold_scalar (hscalar : n.storage? = none) (hnode : n.Normal) (fuel : Nat) :
    (h.unfold fuel n).Normalised := by
  cases n with
  | null => rw [Heap.unfold]; exact .null
  | bool b => rw [Heap.unfold]; exact .bool b
  | int i => rw [Heap.unfold]; exact .int i
  | uint u => rw [Heap.unfold]; exact .uint (hnode u rfl)
  | float x => rw [Heap.unfold]; exact .float x
  | text s => rw [Heap.unfold]; exact .text s
  | array r => cases hscalar
  | object r => cases hscalar

theorem Normal.normalised_unfold (hn : h.Normal) (hnode : n.Normal) (fuel : Nat) :
    (h.unfold fuel n).Normalised := by
  induction fuel generalizing n with
  | zero =>
      cases n with
      | array r => exact .null
      | object r => exact .null
      | _ => exact normalised_unfold_scalar rfl hnode 0
  | succ fuel ih =>
      cases n with
      | array r =>
          exact .array _ (List.forall_mem_map.mpr fun m hm => ih (hn m ⟨.array r, hm⟩))
      | object r =>
          refine .object _ (List.forall_mem_map.mpr fun e he => ih (hn e.2 ⟨.object r, ?_⟩))
          exact List.mem_map_of_mem he
      | _ => exact normalised_unfold_scalar rfl hnode _

/-- The tree of a normal node is normalised, at any depth. -/
theorem Normal.normalised_tree (hn : h.Normal) (hnode : n.Normal) : (h.tree n).Normalised :=
  hn.normalised_unfold hnode h.size

/-- A copy of a word makes no container, normal or not. -/
theorem Normal.deepCopy_fst (hn : h.Normal) (n : Node) : (h.deepCopy n).1.Normal := by
  unfold deepCopy
  by_cases hnode : n.Normal
  · exact (hn.build (hn.normalised_tree hnode)).1
  · simp only [Node.Normal, not_forall] at hnode
    obtain ⟨u, rfl, -⟩ := hnode
    rw [tree_uint]
    exact hn

/-! ## Values -/

/-- A value that is made of no nodes is converted to a normal one. -/
theorem normal_of_nodeOf : ∀ {v : Insertable} {n : Node}, v.references = [] →
    n.storage? = none → h.nodeOf v = (h, n) → n.Normal
  | .unsigned u, _, _, _, hnode => by
      cases hnode
      exact Node.normal_unsigned u
  | .some v, _, hnone, hscalar, hnode => normal_of_nodeOf (v := v) hnone hscalar hnode
  | .list vs, _, _, hscalar, hnode => by
      have harray : (h.nodeOf (.list vs)).2.storage? = none := by rw [hnode, hscalar]
      cases harray
  | .node n, _, hnone, _, _ => by cases hnone
  | .capability c, _, hnone, _, _ => by cases hnone
  | .bool b, _, _, _, hnode => by cases hnode; exact nofun
  | .signed i, _, _, _, hnode => by cases hnode; exact nofun
  | .single x, _, _, _, hnode => by cases hnode; exact nofun
  | .double x, _, _, _, hnode => by cases hnode; exact nofun
  | .text s, _, _, _, hnode => by cases hnode; exact nofun
  | .char c, _, _, _, hnode => by cases hnode; exact nofun
  | .dateTime t, _, _, _, hnode => by cases hnode; exact nofun
  | .none, _, _, _, hnode => by cases hnode; exact nofun

theorem valueCases_normal : ValueCases
    (fun h v => h.Normal → (∀ n ∈ v.references, n.Normal) →
      (h.nodeOf v).1.Normal ∧ (h.nodeOf v).2.Normal)
    (fun h vs => h.Normal → (∀ n ∈ Insertable.referencesOfAll vs, n.Normal) →
      (h.nodesOf vs).1.Normal ∧ ∀ n ∈ (h.nodesOf vs).2, n.Normal) where
  scalar := by
    intro h v n hscalar hnone hnode hn _
    rw [hnode]
    exact ⟨hn, normal_of_nodeOf hnone hscalar hnode⟩
  reference := by
    intro h v n href hnode hn hv
    rw [hnode]
    exact ⟨hn, hv n (href ▸ List.mem_cons_self)⟩
  some := id
  list := by
    intro h vs hall hn hv
    obtain ⟨hheap, hnodes⟩ := hall hn hv
    exact ⟨hheap.newArray hnodes, nofun⟩
  nil := fun hn _ => ⟨hn, fun _ hmem => absurd hmem List.not_mem_nil⟩
  cons := by
    intro h v vs hone hall hn hv
    obtain ⟨hhead, htail⟩ := List.forall_mem_append.mp hv
    obtain ⟨hheap, hnode⟩ := hone hn hhead
    obtain ⟨hrest, hnodes⟩ := hall hheap htail
    exact ⟨hrest, List.forall_mem_cons.mpr ⟨hnode, hnodes⟩⟩

/-- Values become normal nodes where the nodes that they are made of are normal. -/
theorem Normal.nodesOf (hn : h.Normal) {vs : List Insertable}
    (hv : ∀ n ∈ Insertable.referencesOfAll vs, n.Normal) :
    (h.nodesOf vs).1.Normal ∧ ∀ n ∈ (h.nodesOf vs).2, n.Normal :=
  valueCases_normal.values h vs hn hv

/-! ## Operations -/

theorem Normal.run (hn : h.Normal) {op : Operation} (hsupplies : ∀ n ∈ h.supplies op, n.Normal)
    (hr : h.run op = some h') : h'.Normal := by
  cases performs_of_run hr with
  | object keys supplied => exact hn.newObject fun n hmem => hsupplies n (supplied hmem)
  | document read => exact (hn.build read.normalised).1
  | copy n => exact hn.deepCopy_fst n
  | values supplied => exact (hn.nodesOf fun n hmem => hsupplies n (supplied hmem)).1
  | items target supplied stored =>
      obtain ⟨hheap, hnodes⟩ := hn.nodesOf fun n hmem => hsupplies n (supplied hmem)
      exact hheap.setItems _ fun n hmem => (stored n hmem).imp_right fun hnew => hnodes n hnew.1
  | entries target supplied keys stored =>
      obtain ⟨hheap, hnodes⟩ := hn.nodesOf fun n hmem => hsupplies n (supplied hmem)
      exact hheap.setEntries _ fun n hmem => (stored n hmem).imp_right fun hnew => hnodes n hnew.1

theorem Normal.after (hn : h.Normal) {op : Operation}
    (hsupplies : ∀ n ∈ h.supplies op, n.Normal) : (h.after op).Normal := by
  unfold Heap.after
  cases hr : h.run op with
  | none => exact hn
  | some h' => exact hn.run hsupplies hr

/-! ## Equality -/

/-- The normal node of a number is the one that its integer form is built as. -/
theorem exists_form_of_normal {i : Int} (hn : n.Normal) (hi : n.numeric? = some (.integer i)) :
    ∃ d : Document, Tree.integer? i = some d ∧ ∀ h : Heap, h.build d = (h, n) := by
  cases n with
  | int a =>
      cases hi
      exact ⟨.int a, Term.integer?_toInt a, fun _ => rfl⟩
  | uint u =>
      cases hi
      refine ⟨.uint u, ?_, fun _ => rfl⟩
      rw [Term.integer?_toNat, Tree.unsigned, if_neg (Nat.not_lt.mpr (hn u rfl))]
  | _ => cases hi

/-- A number of 64 bits has a normal node. -/
theorem exists_normal {i : Int} (hlow : -2 ^ 63 ≤ i) (hhigh : i < 2 ^ 64) :
    ∃ n : Node, n.Normal ∧ n.numeric? = some (.integer i) := by
  have hsome : (Tree.integer? i : Option Document) ≠ none := by
    rw [ne_eq, Term.integer?_eq_none_iff]
    omega
  obtain ⟨d, hd⟩ := Option.ne_none_iff_exists'.mp hsome
  obtain ⟨hcarries, -⟩ := Term.carries_of_integer? hd
  cases hcarries with
  | int a => exact ⟨.int a, nofun, rfl⟩
  | @uint u large =>
      refine ⟨.uint u, ?_, rfl⟩
      rintro _ ⟨⟩
      exact large
  | text form => cases form

theorem exists_integer_of_kind (h : Heap) (hkind : n.kind = .integer) :
    ∃ i, n.numeric? = some (.integer i) ∧ (h.tree n).integerValue? = some i := by
  cases n with
  | int a => exact ⟨a.toInt, rfl, by rw [tree_int]; rfl⟩
  | uint u => exact ⟨u.toNat, rfl, by rw [tree_uint]; rfl⟩
  | _ => cases hkind

/-- Normal integers are equal if and only if they are the same node. -/
theorem same_iff_eq_of_normal {m : Node} (hm : m.Normal) (hn : n.Normal)
    (hmk : m.kind = .integer) (hnk : n.kind = .integer) : h.same m n = true ↔ m = n := by
  obtain ⟨i, hmi, htm⟩ := exists_integer_of_kind h hmk
  obtain ⟨j, hnj, htn⟩ := exists_integer_of_kind h hnk
  rw [Heap.same, Tree.same_integer_iff htm htn]
  constructor
  · rintro rfl
    obtain ⟨d, hd, hbuild⟩ := exists_form_of_normal hm hmi
    obtain ⟨e, he, hbuild'⟩ := exists_form_of_normal hn hnj
    obtain rfl := Option.some.inj (hd.symm.trans he)
    exact congrArg Prod.snd ((hbuild h).symm.trans (hbuild' h))
  · rintro rfl
    rw [hmi] at hnj
    cases hnj
    rfl

end Heap
end DynamicData
