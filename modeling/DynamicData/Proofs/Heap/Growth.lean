import DynamicData.Heap.Insertable
import DynamicData.Proofs.Heap.Unfolding
import DynamicData.Proofs.Tree

/-!
# Fresh storage

Putting a tree or a caller's value into a heap only adds storage: what was there
keeps its contents, so every tree of the old heap is a tree of the new one
(`Grows.tree_eq`). The tree of what has been built is the tree that it was built
from, marks apart.
-/

namespace DynamicData

namespace Heap

/-! ## Growing heaps -/

/-- A tree depends on nothing but the contents of what it reaches. -/
theorem WellFormed.tree_congr {h h' : Heap} (hw : h.WellFormed) (hw' : h'.WellFormed)
    {n : Node} (hn : h.Knows n)
    (ha : ∀ s, h.Reaches n s → h'.Allocated s ∧ h.Agree h' s) : h'.tree n = h.tree n := by
  revert ha
  refine hw.induction (P := fun n => (∀ s, h.Reaches n s → h'.Allocated s ∧ h.Agree h' s) →
    h'.tree n = h.tree n) ?_ ?_ n hn
  · intro n hs _
    cases n with
    | array r => cases hs
    | object r => cases hs
    | _ => simp
  · intro n s hs hal ih ha
    obtain ⟨hal', hag⟩ := ha s ⟨s, hs, .refl⟩
    -- what a node inside `s` reaches, `n` reaches as well
    have below : ∀ m ∈ h.children s, h'.tree m = h.tree m := by
      intro m hm
      refine ih m hm fun t ht => ha t ?_
      exact reaches_iff.mpr ⟨s, hs, Or.inr ⟨m, hm, ht⟩⟩
    cases n with
    | array r =>
        cases hs
        have hitems : h'.items r = h.items r := hag
        have hmap : (h.items r).map h'.tree = (h.items r).map h.tree :=
          List.map_congr_left below
        rw [hw.tree_array hal, hw'.tree_array hal', hitems, hmap]
    | object r =>
        cases hs
        have hentries : h'.entries r = h.entries r := hag
        have hmap : (h.entries r).map (fun e => (e.1, h'.tree e.2)) =
            (h.entries r).map fun e => (e.1, h.tree e.2) := by
          apply List.map_congr_left
          intro e he
          rw [below e.2 (List.mem_map_of_mem he)]
        rw [hw.tree_object hal, hw'.tree_object hal', hentries, hmap]
    | _ => cases hs

/-- `h'` is `h` with storage added. -/
structure Grows (h h' : Heap) : Prop where
  allocated : ∀ s, h.Allocated s → h'.Allocated s
  agree : ∀ s, h.Allocated s → h.Agree h' s

namespace Grows

theorem refl (h : Heap) : h.Grows h where
  allocated := fun _ hs => hs
  agree := fun s _ => .refl h s

theorem trans {h₁ h₂ h₃ : Heap} (h₁₂ : h₁.Grows h₂) (h₂₃ : h₂.Grows h₃) : h₁.Grows h₃ where
  allocated := fun s hs => h₂₃.allocated s (h₁₂.allocated s hs)
  agree := fun s hs => (h₁₂.agree s hs).trans (h₂₃.agree s (h₁₂.allocated s hs))

/-- A write after the growth leaves all else as it was before. -/
theorem agree_of_writes {h h₁ h' : Heap} (hg : h.Grows h₁) {s : Storage} {nodes : List Node}
    (hwr : h₁.Writes h' s nodes) {t : Storage} (ht : h.Allocated t) (hts : t ≠ s) :
    h.Agree h' t :=
  (hg.agree t ht).trans (hwr.other t hts)

theorem knows {h h' : Heap} (hg : h.Grows h') {n : Node} (hn : h.Knows n) : h'.Knows n :=
  fun s hs => hg.allocated s (hn s hs)

theorem of_writes {h h' : Heap} {s : Storage} {nodes : List Node}
    (hwr : h.Writes h' s nodes) (hs : ¬ h.Allocated s) : h.Grows h' where
  allocated := fun t ht => (hwr.allocated t).mpr (Or.inl ht)
  agree := by
    intro t ht
    refine hwr.other t ?_
    rintro rfl
    exact hs ht

theorem newArray (h : Heap) (nodes : List Node) : h.Grows (h.newArray nodes).1 :=
  of_writes (writes_newArray h nodes) (Nat.lt_irrefl _)

theorem newObject (h : Heap) (entries : Entries Node) : h.Grows (h.newObject entries).1 :=
  of_writes (writes_newObject h entries) (Nat.lt_irrefl _)

/-- Every tree of a heap is a tree of the grown heap. -/
theorem tree_eq {h h' : Heap} (hg : h.Grows h') (hw : h.WellFormed) (hw' : h'.WellFormed)
    {n : Node} (hn : h.Knows n) : h'.tree n = h.tree n := by
  refine hw.tree_congr hw' hn ?_
  rintro s ⟨t, ht, hts⟩
  have hs := hw.allocated_of_reflTransGen (hn t ht) hts
  exact ⟨hg.allocated s hs, hg.agree s hs⟩

end Grows

theorem allocated_newArray (h : Heap) (nodes : List Node) :
    (h.newArray nodes).1.Allocated (.array (h.newArray nodes).2) :=
  ((writes_newArray h nodes).allocated _).mpr (Or.inr rfl)

theorem allocated_newObject (h : Heap) (entries : Entries Node) :
    (h.newObject entries).1.Allocated (.object (h.newObject entries).2) :=
  ((writes_newObject h entries).allocated _).mpr (Or.inr rfl)

/-- The tree of a new array is made of the trees that its items have already. -/
theorem WellFormed.tree_newArray {h : Heap} (hw : h.WellFormed) {nodes : List Node}
    (hnodes : ∀ n ∈ nodes, h.Knows n) :
    (h.newArray nodes).1.tree (.array (h.newArray nodes).2) =
      .array (.array (h.newArray nodes).2) (nodes.map h.tree) := by
  have hw' := hw.newArray hnodes
  have hitems : (h.newArray nodes).1.items (h.newArray nodes).2 = nodes :=
    (writes_newArray h nodes).written
  rw [hw'.tree_array (allocated_newArray h nodes), hitems]
  congr 1
  exact List.map_congr_left fun n hn => (Grows.newArray h nodes).tree_eq hw hw' (hnodes n hn)

/-- The tree of a new object is made of the trees that its values have already. -/
theorem WellFormed.tree_newObject {h : Heap} (hw : h.WellFormed) {entries : Entries Node}
    (hkeys : entries.keys.Nodup) (hnodes : ∀ n ∈ entries.values, h.Knows n) :
    (h.newObject entries).1.tree (.object (h.newObject entries).2) =
      .object (.object (h.newObject entries).2) (entries.map fun e => (e.1, h.tree e.2)) := by
  have hw' := hw.newObject hkeys hnodes
  have hentries : (h.newObject entries).1.entries (h.newObject entries).2 = entries := by
    simp [Heap.entries, Heap.newObject]
  rw [hw'.tree_object (allocated_newObject h entries), hentries]
  congr 1
  apply List.map_congr_left
  intro e he
  rw [(Grows.newObject h entries).tree_eq hw hw' (hnodes e.2 (List.mem_map_of_mem he))]

/-! ## Trees put into storage -/

variable {ι : Type}

/-- The heap `h'` and its node `n` are what is expected of building `t` in `h`. -/
structure Built (h : Heap) (t : Tree ι) (h' : Heap) (n : Node) : Prop where
  wellFormed : h'.WellFormed
  grows : h.Grows h'
  knows : h'.Knows n
  tree : (h'.tree n).bare = t.bare

/-- The same for a list of items. -/
structure BuiltItems (h : Heap) (items : List (Tree ι)) (h' : Heap) (nodes : List Node) :
    Prop where
  wellFormed : h'.WellFormed
  grows : h.Grows h'
  knows : ∀ n ∈ nodes, h'.Knows n
  trees : nodes.map (fun n => (h'.tree n).bare) = items.map Tree.bare

/-- The same for a list of entries. -/
structure BuiltEntries (h : Heap) (entries : List (String × Tree ι)) (h' : Heap)
    (nodes : Entries Node) : Prop where
  wellFormed : h'.WellFormed
  grows : h.Grows h'
  knows : ∀ n ∈ nodes.values, h'.Knows n
  trees : nodes.map (fun e => (e.1, (h'.tree e.2).bare)) = entries.map fun e => (e.1, e.2.bare)

theorem Built.scalar {h : Heap} (hw : h.WellFormed) {t : Tree ι} {n : Node}
    (hn : n.storage? = none) (ht : (h.tree n).bare = t.bare) : h.Built t h n where
  wellFormed := hw
  grows := .refl h
  knows := knows_scalar hn
  tree := ht

/-- An item that is built before the others is still there after them. -/
theorem Built.items_cons {h h₁ h₂ : Heap} {t : Tree ι} {n : Node} {items : List (Tree ι)}
    {nodes : List Node} (ht : h.Built t h₁ n) (hr : h₁.BuiltItems items h₂ nodes) :
    h.BuiltItems (t :: items) h₂ (n :: nodes) where
  wellFormed := hr.wellFormed
  grows := ht.grows.trans hr.grows
  knows := List.forall_mem_cons.mpr ⟨hr.grows.knows ht.knows, hr.knows⟩
  trees := by
    have hhead := hr.grows.tree_eq ht.wellFormed hr.wellFormed ht.knows
    rw [List.map_cons, List.map_cons, hhead, ht.tree, hr.trees]

theorem Built.entries_cons {h h₁ h₂ : Heap} {t : Tree ι} {n : Node}
    {entries : List (String × Tree ι)} {nodes : Entries Node} (k : String)
    (ht : h.Built t h₁ n) (hr : h₁.BuiltEntries entries h₂ nodes) :
    h.BuiltEntries ((k, t) :: entries) h₂ ((k, n) :: nodes) where
  wellFormed := hr.wellFormed
  grows := ht.grows.trans hr.grows
  knows := List.forall_mem_cons.mpr ⟨hr.grows.knows ht.knows, hr.knows⟩
  trees := by
    have hhead := hr.grows.tree_eq ht.wellFormed hr.wellFormed ht.knows
    rw [List.map_cons, List.map_cons, hhead, ht.tree, hr.trees]

theorem buildItems_built {items : List (Tree ι)}
    (ih : ∀ t ∈ items, ∀ {h : Heap}, h.WellFormed → h.Built t (h.build t).1 (h.build t).2)
    {h : Heap} (hw : h.WellFormed) :
    h.BuiltItems items (h.buildItems items).1 (h.buildItems items).2 := by
  induction items generalizing h with
  | nil => exact ⟨hw, .refl h, fun _ hn => absurd hn List.not_mem_nil, rfl⟩
  | cons t rest ihr =>
      have ht := ih t List.mem_cons_self hw
      exact ht.items_cons (ihr (fun u hu => ih u (List.mem_cons_of_mem t hu)) ht.wellFormed)

theorem buildEntries_built {entries : List (String × Tree ι)}
    (ih : ∀ e ∈ entries, ∀ {h : Heap}, h.WellFormed →
      h.Built e.2 (h.build e.2).1 (h.build e.2).2)
    {h : Heap} (hw : h.WellFormed) :
    h.BuiltEntries entries (h.buildEntries entries).1 (h.buildEntries entries).2 := by
  induction entries generalizing h with
  | nil => exact ⟨hw, .refl h, fun _ hn => absurd hn List.not_mem_nil, rfl⟩
  | cons e rest ihr =>
      have ht := ih e List.mem_cons_self hw
      exact ht.entries_cons e.1
        (ihr (fun f hf => ih f (List.mem_cons_of_mem e hf)) ht.wellFormed)

theorem BuiltItems.newArray {h h' : Heap} {items : List (Tree ι)} {nodes : List Node}
    (hb : h.BuiltItems items h' nodes) (mark : ι) :
    h.Built (.array mark items) (h'.newArray nodes).1 (.array (h'.newArray nodes).2) where
  wellFormed := hb.wellFormed.newArray hb.knows
  grows := hb.grows.trans (.newArray h' nodes)
  knows := knows_array.mpr (allocated_newArray h' nodes)
  tree := by
    rw [hb.wellFormed.tree_newArray hb.knows, Tree.bare_array, Tree.bare_array, List.map_map,
      ← hb.trees]
    rfl

theorem BuiltEntries.newObject {h h' : Heap} {entries : List (String × Tree ι)}
    {nodes : Entries Node} (hb : h.BuiltEntries entries h' nodes)
    (hkeys : (Entries.keys entries).Nodup) (mark : ι) :
    h.Built (.object mark entries) (h'.newObject nodes).1 (.object (h'.newObject nodes).2) := by
  have hnodes : nodes.keys.Nodup := by
    have hk := congrArg Entries.keys hb.trees
    rw [Entries.keys_map fun n => (h'.tree n).bare, Entries.keys_map Tree.bare] at hk
    rw [hk]
    exact hkeys
  refine ⟨hb.wellFormed.newObject hnodes hb.knows, hb.grows.trans (.newObject h' nodes),
    knows_object.mpr (allocated_newObject h' nodes), ?_⟩
  rw [hb.wellFormed.tree_newObject hnodes hb.knows, Tree.bare_object, Tree.bare_object,
    List.map_map, ← hb.trees]
  rfl

/-- Building a tree adds storage for it and nothing else. -/
theorem WellFormed.build {h : Heap} (hw : h.WellFormed) {t : Tree ι} (ht : t.KeysDistinct) :
    h.Built t (h.build t).1 (h.build t).2 := by
  induction t using Tree.induction generalizing h with
  | array mark items ih =>
      cases ht with
      | array _ parts =>
          exact (buildItems_built (fun t ht _ hw => ih t ht hw (parts t ht)) hw).newArray mark
  | object mark entries ih =>
      cases ht with
      | object _ nodup parts =>
          exact (buildEntries_built (fun e he _ hw => ih e he hw (parts e he)) hw).newObject
            nodup mark
  | null => exact .scalar hw rfl (by simp [Heap.build, Tree.bare, Tree.image])
  | bool b => exact .scalar hw rfl (by simp [Heap.build, Tree.bare, Tree.image])
  | int i => exact .scalar hw rfl (by simp [Heap.build, Tree.bare, Tree.image])
  | uint u => exact .scalar hw rfl (by simp [Heap.build, Tree.bare, Tree.image])
  | float x => exact .scalar hw rfl (by simp [Heap.build, Tree.bare, Tree.image])
  | text s => exact .scalar hw rfl (by simp [Heap.build, Tree.bare, Tree.image])

/-- The trees of a well-formed heap have distinct keys. -/
theorem WellFormed.keysDistinct_tree {h : Heap} (hw : h.WellFormed) {n : Node}
    (hn : h.Knows n) : (h.tree n).KeysDistinct := by
  refine hw.induction (P := fun n => (h.tree n).KeysDistinct) ?_ ?_ n hn
  · intro n hs
    cases n with
    | null => rw [tree_null]; exact .null
    | bool b => rw [tree_bool]; exact .bool b
    | int i => rw [tree_int]; exact .int i
    | uint u => rw [tree_uint]; exact .uint u
    | float x => rw [tree_float]; exact .float x
    | text s => rw [tree_text]; exact .text s
    | array r => cases hs
    | object r => cases hs
  · intro n s hs ha ih
    cases n with
    | array r =>
        cases hs
        rw [hw.tree_array ha]
        refine .array _ fun t ht => ?_
        obtain ⟨m, hm, rfl⟩ := List.mem_map.mp ht
        exact ih m hm
    | object r =>
        cases hs
        rw [hw.tree_object ha]
        refine .object _ ?_ fun e he => ?_
        · rw [Entries.keys_map]
          exact hw.keys_nodup r
        · obtain ⟨f, hf, rfl⟩ := List.mem_map.mp he
          exact ih f.2 (List.mem_map_of_mem hf)
    | _ => cases hs

theorem WellFormed.built_deepCopy {h : Heap} (hw : h.WellFormed) {n : Node} (hn : h.Knows n) :
    h.Built (h.tree n) (h.deepCopy n).1 (h.deepCopy n).2 :=
  hw.build (hw.keysDistinct_tree hn)

end Heap

/-! ## Values put into storage -/

mutual

/-- The nodes that a caller's value is made of. -/
def Insertable.references : Insertable → List Node
  | .node n => [n]
  | .capability c => [c.node]
  | .some v => v.references
  | .list vs => Insertable.referencesOfAll vs
  | _ => []

/-- The nodes that several values are made of. -/
def Insertable.referencesOfAll : List Insertable → List Node
  | [] => []
  | v :: rest => v.references ++ Insertable.referencesOfAll rest

end

theorem Insertable.referencesOfAll_singleton (v : Insertable) :
    Insertable.referencesOfAll [v] = v.references :=
  List.append_nil _

namespace Heap

/-- A caller's value that refers to nothing but storage that has been made. -/
def KnowsValue (h : Heap) (v : Insertable) : Prop :=
  ∀ n ∈ v.references, h.Knows n

/-- Several such values. -/
def KnowsValues (h : Heap) (vs : List Insertable) : Prop :=
  ∀ n ∈ Insertable.referencesOfAll vs, h.Knows n

instance (h : Heap) : DecidablePred h.KnowsValue :=
  fun v => List.decidableBAll h.Knows v.references

instance (h : Heap) : DecidablePred h.KnowsValues :=
  fun vs => List.decidableBAll h.Knows (Insertable.referencesOfAll vs)

theorem referencesOfAll_nodes (nodes : List Node) :
    Insertable.referencesOfAll (nodes.map .node) = nodes := by
  induction nodes with
  | nil => rfl
  | cons n rest ih =>
      rw [List.map_cons, Insertable.referencesOfAll, ih, Insertable.references]
      rfl

theorem knowsValues_nodes {h : Heap} {nodes : List Node} :
    h.KnowsValues (nodes.map .node) ↔ ∀ n ∈ nodes, h.Knows n := by
  rw [KnowsValues, referencesOfAll_nodes]

/-! ### One value after the other -/

/-- The cases of an induction along the values that are turned into nodes: `P` is about one
value in a heap and `Q` about several, each in the heap that the one before it left. A value
is a scalar, a reference, or made of other values. -/
structure ValueCases (P : Heap → Insertable → Prop) (Q : Heap → List Insertable → Prop) :
    Prop where
  scalar : ∀ {h v n}, n.storage? = none → v.references = [] → h.nodeOf v = (h, n) → P h v
  reference : ∀ {h v n}, v.references = [n] → h.nodeOf v = (h, n) → P h v
  some : ∀ {h v}, P h v → P h (.some v)
  list : ∀ {h vs}, Q h vs → P h (.list vs)
  nil : ∀ {h}, Q h []
  cons : ∀ {h v vs}, P h v → Q (h.nodeOf v).1 vs → Q h (v :: vs)

section

variable {P : Heap → Insertable → Prop} {Q : Heap → List Insertable → Prop}

mutual

theorem ValueCases.value (hc : ValueCases P Q) : ∀ (h : Heap) (v : Insertable), P h v
  | _, .node _ => hc.reference rfl rfl
  | _, .capability _ => hc.reference rfl rfl
  | h, .some v => hc.some (ValueCases.value hc h v)
  | h, .list vs => hc.list (ValueCases.values hc h vs)
  | h, .unsigned u => by
      refine hc.scalar (n := .unsigned u) ?_ rfl rfl
      unfold Node.unsigned
      split <;> rfl
  | h, .bool _ => hc.scalar rfl rfl rfl
  | h, .signed _ => hc.scalar rfl rfl rfl
  | h, .single _ => hc.scalar rfl rfl rfl
  | h, .double _ => hc.scalar rfl rfl rfl
  | h, .text _ => hc.scalar rfl rfl rfl
  | h, .char _ => hc.scalar rfl rfl rfl
  | h, .dateTime _ => hc.scalar rfl rfl rfl
  | h, .none => hc.scalar rfl rfl rfl

theorem ValueCases.values (hc : ValueCases P Q) : ∀ (h : Heap) (vs : List Insertable), Q h vs
  | _, [] => hc.nil
  | h, v :: rest => hc.cons (ValueCases.value hc h v) (ValueCases.values hc _ rest)

end

end

/-- The heap `h'` and its node `n` are what is expected of turning a value into a node. -/
structure Admitted (h h' : Heap) (n : Node) : Prop where
  wellFormed : h'.WellFormed
  grows : h.Grows h'
  knows : h'.Knows n

/-- The same for several values. -/
structure AdmittedAll (h h' : Heap) (nodes : List Node) : Prop where
  wellFormed : h'.WellFormed
  grows : h.Grows h'
  knows : ∀ n ∈ nodes, h'.Knows n

theorem knowsValues_cons {h : Heap} {v : Insertable} {vs : List Insertable} :
    h.KnowsValues (v :: vs) ↔ h.KnowsValue v ∧ h.KnowsValues vs :=
  List.forall_mem_append

theorem Grows.knowsValues {h h' : Heap} (hg : h.Grows h') {vs : List Insertable}
    (hv : h.KnowsValues vs) : h'.KnowsValues vs :=
  fun n hn => hg.knows (hv n hn)

/-- Turning values into nodes adds storage and nothing else. -/
theorem valueCases_admitted : ValueCases
    (fun h v => h.WellFormed → h.KnowsValue v → h.Admitted (h.nodeOf v).1 (h.nodeOf v).2)
    (fun h vs => h.WellFormed → h.KnowsValues vs →
      h.AdmittedAll (h.nodesOf vs).1 (h.nodesOf vs).2) where
  scalar := by
    intro h v n hn _ hnode hw _
    rw [hnode]
    exact ⟨hw, .refl h, knows_scalar hn⟩
  reference := by
    intro h v n href hnode hw hv
    rw [hnode]
    exact ⟨hw, .refl h, hv n (href ▸ List.mem_cons_self)⟩
  some := id
  list := by
    intro h vs hall hw hv
    have ha := hall hw hv
    exact ⟨ha.wellFormed.newArray ha.knows, ha.grows.trans (.newArray _ _),
      knows_array.mpr (allocated_newArray _ _)⟩
  nil := fun hw _ => ⟨hw, .refl _, fun _ hn => absurd hn List.not_mem_nil⟩
  cons := by
    intro h v vs hone hall hw hv
    obtain ⟨hhead, htail⟩ := knowsValues_cons.mp hv
    have ha := hone hw hhead
    have hr := hall ha.wellFormed (ha.grows.knowsValues htail)
    exact ⟨hr.wellFormed, ha.grows.trans hr.grows,
      List.forall_mem_cons.mpr ⟨hr.grows.knows ha.knows, hr.knows⟩⟩

theorem WellFormed.nodeOf {h : Heap} (v : Insertable) (hw : h.WellFormed)
    (hv : h.KnowsValue v) : h.Admitted (h.nodeOf v).1 (h.nodeOf v).2 :=
  valueCases_admitted.value h v hw hv

theorem WellFormed.nodesOf {h : Heap} (vs : List Insertable) (hw : h.WellFormed)
    (hv : h.KnowsValues vs) : h.AdmittedAll (h.nodesOf vs).1 (h.nodesOf vs).2 :=
  valueCases_admitted.values h vs hw hv

end Heap
end DynamicData
