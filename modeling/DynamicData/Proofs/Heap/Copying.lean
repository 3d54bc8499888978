import DynamicData.Heap.Place
import DynamicData.Path.Basic
import DynamicData.Proofs.Heap.Admission

/-!
# Copies stand alone

What is built from a tree takes storage of its own for every container in the tree, so
nothing that was there before is below it, and no two parts of it have storage in common.
Each container below the new node is therefore found at one position only: a list of keys
and indices that leads from the node to it. A tree has each container as often as positions
lead to it, so a copy of a node has separate storage for every occurrence of a container
that the node has in several places.
-/

namespace DynamicData.Heap

variable {h h' h'' : Heap} {n : Node}

/-! ## Positions -/

/-- The node that a key or an index leads to from a node. -/
def child? (h : Heap) : Node → Segment → Option Node
  | .object o, .key k => h.lookup (.key o k)
  | .array a, .index i => h.lookup (.index a i)
  | _, _ => none

/-- The node that keys and indices lead to from a node, one after the other. -/
def nodeAt (h : Heap) : Node → List Segment → Option Node
  | n, [] => some n
  | n, segment :: rest => (h.child? n segment).bind fun m => h.nodeAt m rest

/-- A storage is at a position below a node, or at the node itself. -/
def StandsAt (h : Heap) (n : Node) (position : List Segment) (s : Storage) : Prop :=
  ∃ m, h.nodeAt n position = some m ∧ m.storage? = some s

/-- The keys or indices of the nodes inside a storage, in the order of these nodes. -/
def segments (h : Heap) : Storage → List Segment
  | .array a => (List.range (h.items a).length).map .index
  | .object o => (h.entries o).keys.map .key

/-- A key or an index leads to the node that is in line with it. -/
theorem exists_slot_of_child? {segment : Segment} {m : Node}
    (hm : h.child? n segment = some m) : ∃ (s : Storage) (i : Nat),
      n.storage? = some s ∧ (h.segments s)[i]? = some segment ∧ (h.children s)[i]? = some m := by
  cases n <;> cases segment <;> try cases hm
  · next a i =>
      have hitem : (h.items a)[i]? = some m := hm
      obtain ⟨hi, -⟩ := List.getElem?_eq_some_iff.mp hitem
      exact ⟨.array a, i, rfl, by simp [segments, hi], hitem⟩
  · next o k =>
      obtain ⟨i, hk, hv⟩ := Entries.exists_getElem?_of_get? hm
      exact ⟨.object o, i, rfl, by simp [segments, hk], hv⟩

/-- Every node inside a container has a key or an index. -/
theorem WellFormed.exists_child? (hw : h.WellFormed) {s : Storage} (hs : n.storage? = some s)
    {m : Node} (hm : m ∈ h.children s) : ∃ segment, h.child? n segment = some m := by
  cases n <;> cases hs
  · next a =>
      obtain ⟨i, hi⟩ := List.mem_iff_getElem?.mp hm
      exact ⟨.index i, hi⟩
  · next o =>
      obtain ⟨⟨k, v⟩, he, rfl⟩ := List.mem_map.mp hm
      exact ⟨.key k, Entries.get?_of_mem (hw.keys_nodup o) he⟩

theorem standsAt_nil_iff {s t : Storage} (hn : n.storage? = some s) :
    h.StandsAt n [] t ↔ s = t := by
  simp [StandsAt, nodeAt, hn]

/-- A position below a container goes through one of the nodes inside it. -/
theorem StandsAt.exists_slot {segment : Segment} {rest : List Segment} {t : Storage}
    (ht : h.StandsAt n (segment :: rest) t) : ∃ (s : Storage) (i : Nat) (m : Node),
      n.storage? = some s ∧ (h.segments s)[i]? = some segment ∧ (h.children s)[i]? = some m ∧
        h.StandsAt m rest t := by
  obtain ⟨l, hl, hlt⟩ := ht
  obtain ⟨m, hm, hrest⟩ := Option.bind_eq_some_iff.mp hl
  obtain ⟨s, i, hs, hi, hmi⟩ := exists_slot_of_child? hm
  exact ⟨s, i, m, hs, hi, hmi, l, hrest, hlt⟩

/-- Positions lead to what is reachable. -/
theorem StandsAt.reaches {position : List Segment} {s : Storage}
    (hs : h.StandsAt n position s) : h.Reaches n s := by
  induction position generalizing n with
  | nil =>
      obtain ⟨m, hm, hs⟩ := hs
      cases hm
      exact ⟨s, hs, .refl⟩
  | cons segment rest ih =>
      obtain ⟨t, i, m, ht, -, hm, hrest⟩ := hs.exists_slot
      exact reaches_iff.mpr ⟨t, ht, .inr ⟨m, List.mem_of_getElem? hm, ih hrest⟩⟩

/-- Whatever is reachable is at some position. -/
theorem WellFormed.exists_standsAt (hw : h.WellFormed) {s : Storage} (hn : h.Knows n)
    (hs : h.Reaches n s) : ∃ position, h.StandsAt n position s := by
  refine hw.induction (P := fun n => h.Reaches n s → ∃ position, h.StandsAt n position s)
    ?_ ?_ n hn hs
  · exact fun n hscalar hs => absurd hs (not_reaches_scalar hscalar)
  · intro n t ht _ ih hs
    rcases (reaches_container_iff ht).mp hs with rfl | ⟨m, hm, hms⟩
    · exact ⟨[], n, rfl, ht⟩
    · obtain ⟨segment, hsegment⟩ := hw.exists_child? ht hm
      obtain ⟨rest, l, hl, hls⟩ := ih m hm hms
      exact ⟨segment :: rest, l, Option.bind_eq_some_iff.mpr ⟨m, hsegment, hl⟩, hls⟩

theorem child?_congr {s : Storage} (hs : n.storage? = some s) (ha : h.Agree h' s)
    (segment : Segment) : h'.child? n segment = h.child? n segment := by
  cases n <;> cases hs <;> cases segment <;> try rfl
  · exact congrArg (fun items : List Node => items[_]?) ha
  · exact congrArg (Entries.get? _) ha

/-- Positions below a node stay what they are when storage is added. -/
theorem Grows.nodeAt_eq (hg : h.Grows h') (hw : h.WellFormed) (hn : h.Knows n)
    (position : List Segment) : h'.nodeAt n position = h.nodeAt n position := by
  induction position generalizing n with
  | nil => rfl
  | cons segment rest ih =>
      have hchild : h'.child? n segment = h.child? n segment := by
        cases hs : n.storage? with
        | none => cases n <;> cases hs <;> rfl
        | some s => exact child?_congr hs (hg.agree s (hn s hs)) segment
      rw [nodeAt, nodeAt, hchild]
      refine Option.bind_congr fun m hm => ?_
      obtain ⟨s, i, -, -, hi⟩ := exists_slot_of_child? hm
      exact ih (hw.closed s m (List.mem_of_getElem? hi))

theorem Grows.standsAt_iff (hg : h.Grows h') (hw : h.WellFormed) (hn : h.Knows n)
    {position : List Segment} {s : Storage} :
    h'.StandsAt n position s ↔ h.StandsAt n position s := by
  unfold StandsAt
  rw [hg.nodeAt_eq hw hn]

/-! ## Nodes with storage of their own -/

/-- The storage below `n` in `h'` was not there in `h`, and each is at one position. -/
structure Detached (h h' : Heap) (n : Node) : Prop where
  fresh : ∀ s, h'.Reaches n s → ¬ h.Allocated s
  unique : ∀ s p q, h'.StandsAt n p s → h'.StandsAt n q s → p = q

/-- The same for several nodes, no two of which have storage in common. -/
structure DetachedAll (h h' : Heap) (nodes : List Node) : Prop where
  each : ∀ n ∈ nodes, h.Detached h' n
  apart : nodes.Pairwise fun m n => ∀ s, h'.Reaches m s → ¬ h'.Reaches n s

theorem Detached.of_scalar (hn : n.storage? = none) : h.Detached h' n where
  fresh := fun _ hs => absurd hs (not_reaches_scalar hn)
  unique := fun _ _ _ hp => absurd hp.reaches (not_reaches_scalar hn)

/-- A node with storage of its own keeps it while more storage is added. -/
theorem Detached.of_grows (hd : h.Detached h' n) (hg : h'.Grows h'') (hw : h'.WellFormed)
    (hn : h'.Knows n) : h.Detached h'' n where
  fresh := by
    intro s hs
    rw [hg.reaches_iff hw hn] at hs
    exact hd.fresh s hs
  unique := by
    intro s p q hp hq
    rw [hg.standsAt_iff hw hn] at hp hq
    exact hd.unique s p q hp hq

theorem Detached.of_later (hd : h'.Detached h'' n) (hg : h.Grows h') : h.Detached h'' n where
  fresh := fun s hs => mt (hg.allocated s) (hd.fresh s hs)
  unique := hd.unique

theorem DetachedAll.nil : h.DetachedAll h' [] :=
  ⟨fun _ hn => absurd hn List.not_mem_nil, .nil⟩

/-- What is built after a node has its storage apart from it. -/
theorem DetachedAll.cons {nodes : List Node} (hg : h.Grows h') (hw : h'.WellFormed)
    (hn : h'.Knows n) (hd : h.Detached h' n) (hg' : h'.Grows h'')
    (hrest : h'.DetachedAll h'' nodes) : h.DetachedAll h'' (n :: nodes) where
  each := List.forall_mem_cons.mpr
    ⟨hd.of_grows hg' hw hn, fun m hm => (hrest.each m hm).of_later hg⟩
  apart := by
    refine List.pairwise_cons.mpr ⟨fun m hm s hs hms => ?_, hrest.apart⟩
    -- what is below `n` was there when the others were built
    rw [hg'.reaches_iff hw hn] at hs
    obtain ⟨t, ht, hts⟩ := hs
    exact (hrest.each m hm).fresh s hms (hw.allocated_of_reflTransGen (hn t ht) hts)

/-- A storage below one of the nodes is below no other, and at one position only. -/
theorem DetachedAll.unique {nodes : List Node} (hd : h.DetachedAll h' nodes) {i j : Nat}
    {m m' : Node} (hi : nodes[i]? = some m) (hj : nodes[j]? = some m') {s : Storage}
    {p q : List Segment} (hp : h'.StandsAt m p s) (hq : h'.StandsAt m' q s) :
    i = j ∧ p = q := by
  obtain ⟨hil, rfl⟩ := List.getElem?_eq_some_iff.mp hi
  obtain ⟨hjl, rfl⟩ := List.getElem?_eq_some_iff.mp hj
  have hapart := List.pairwise_iff_getElem.mp hd.apart
  rcases Nat.lt_trichotomy i j with hij | rfl | hji
  · exact absurd hq.reaches (hapart i j hil hjl hij s hp.reaches)
  · exact ⟨rfl, (hd.each _ (List.getElem_mem hil)).unique s p q hp hq⟩
  · exact absurd hp.reaches (hapart j i hjl hil hji s hq.reaches)

/-- A fresh container of nodes that have storage of their own, and none in common, has
storage of its own. -/
theorem DetachedAll.container {nodes : List Node} {s : Storage} (hd : h.DetachedAll h' nodes)
    (hg : h.Grows h') (hw : h'.WellFormed) (hnodes : ∀ m ∈ nodes, h'.Knows m)
    (hwr : h'.Writes h'' s nodes) (hs : ¬ h'.Allocated s) (hn : n.storage? = some s) :
    h.Detached h'' n := by
  have hg' := Grows.of_writes hwr hs
  constructor
  · intro t ht
    rw [reaches_container_iff hn, hwr.written, hg'.anyReaches_iff hw hnodes] at ht
    rcases ht with rfl | ⟨m, hm, hmt⟩
    · exact mt (hg.allocated s) hs
    · exact (hd.each m hm).fresh t hmt
  · intro t p q hp hq
    -- the nodes inside are older than the container, and so is all that is below them
    have hbelow : ∀ {segment rest}, h''.StandsAt n (segment :: rest) t →
        ∃ (i : Nat) (m : Node), (h''.segments s)[i]? = some segment ∧ nodes[i]? = some m ∧
          h'.StandsAt m rest t := by
      intro segment rest ht
      obtain ⟨s', i, m, hs', hi, hm, hrest⟩ := ht.exists_slot
      cases hn.symm.trans hs'
      rw [hwr.written] at hm
      rw [hg'.standsAt_iff hw (hnodes m (List.mem_of_getElem? hm))] at hrest
      exact ⟨i, m, hi, hm, hrest⟩
    have hself : ∀ {segment rest}, h''.StandsAt n (segment :: rest) t → s ≠ t := by
      rintro segment rest hrest rfl
      obtain ⟨i, m, -, hm, hms⟩ := hbelow hrest
      exact hw.not_reaches_fresh (hnodes m (List.mem_of_getElem? hm)) hs hms.reaches
    cases p with
    | nil =>
        cases q with
        | nil => rfl
        | cons segment q => exact absurd ((standsAt_nil_iff hn).mp hp) (hself hq)
    | cons segment p =>
        cases q with
        | nil => exact absurd ((standsAt_nil_iff hn).mp hq) (hself hp)
        | cons segment' q =>
            obtain ⟨i, m, hsegment, hm, hmp⟩ := hbelow hp
            obtain ⟨j, m', hsegment', hm', hmq⟩ := hbelow hq
            obtain ⟨rfl, rfl⟩ := hd.unique hm hm' hmp hmq
            cases hsegment.symm.trans hsegment'
            rfl

/-! ## Trees put into storage -/

variable {ι : Type}

theorem buildEntries_fst (h : Heap) (entries : List (String × Tree ι)) :
    (h.buildEntries entries).1 = (h.buildItems (entries.map Prod.snd)).1 := by
  induction entries generalizing h with
  | nil => rfl
  | cons e rest ih => exact ih _

theorem values_buildEntries (h : Heap) (entries : List (String × Tree ι)) :
    (h.buildEntries entries).2.values = (h.buildItems (entries.map Prod.snd)).2 := by
  induction entries generalizing h with
  | nil => rfl
  | cons e rest ih => exact congrArg (List.cons _) (ih _)

theorem buildItems_detached {items : List (Tree ι)} (hkeys : ∀ t ∈ items, t.KeysDistinct)
    (ih : ∀ t ∈ items, ∀ {h : Heap}, h.WellFormed → h.Detached (h.build t).1 (h.build t).2)
    {h : Heap} (hw : h.WellFormed) :
    h.DetachedAll (h.buildItems items).1 (h.buildItems items).2 := by
  induction items generalizing h with
  | nil => exact .nil
  | cons t rest ihr =>
      have hrest : ∀ u ∈ rest, u.KeysDistinct := fun u hu => hkeys u (List.mem_cons_of_mem t hu)
      have ht := hw.build (hkeys t List.mem_cons_self)
      have hr := buildItems_built (fun u hu _ hw => hw.build (hrest u hu)) ht.wellFormed
      exact .cons ht.grows ht.wellFormed ht.knows (ih t List.mem_cons_self hw) hr.grows
        (ihr hrest (fun u hu => ih u (List.mem_cons_of_mem t hu)) ht.wellFormed)

/-- What is built from a tree has storage of its own. -/
theorem WellFormed.build_detached {h : Heap} (hw : h.WellFormed) {t : Tree ι}
    (ht : t.KeysDistinct) : h.Detached (h.build t).1 (h.build t).2 := by
  induction t using Tree.induction generalizing h with
  | array mark items ih =>
      cases ht with
      | array _ parts =>
          have hb := buildItems_built (fun u hu _ hw => hw.build (parts u hu)) hw
          have hd := buildItems_detached parts (fun u hu _ hw => ih u hu hw (parts u hu)) hw
          exact hd.container hb.grows hb.wellFormed hb.knows (writes_newArray _ _)
            (Nat.lt_irrefl _) rfl
  | object mark entries ih =>
      cases ht with
      | object _ nodup parts =>
          have hb := buildEntries_built (fun e he _ hw => hw.build (parts e he)) hw
          have hd := buildItems_detached (List.forall_mem_map.mpr parts)
            (List.forall_mem_map.mpr fun e he _ hw => ih e he hw (parts e he)) hw
          rw [← buildEntries_fst, ← values_buildEntries] at hd
          exact hd.container hb.grows hb.wellFormed hb.knows (writes_newObject _ _)
            (Nat.lt_irrefl _) rfl
  | _ => exact .of_scalar rfl

/-! ## Copies -/

/-- Every storage below a copy is new, and is at exactly one position below it. -/
theorem WellFormed.standsAt_deepCopy (hw : h.WellFormed) (hn : h.Knows n) {s : Storage}
    (hs : (h.deepCopy n).1.Reaches (h.deepCopy n).2 s) :
    ¬ h.Allocated s ∧ ∃! position, (h.deepCopy n).1.StandsAt (h.deepCopy n).2 position s := by
  have hb := hw.built_deepCopy hn
  have hd : h.Detached (h.deepCopy n).1 (h.deepCopy n).2 :=
    hw.build_detached (hw.keysDistinct_tree hn)
  obtain ⟨position, hposition⟩ := hb.wellFormed.exists_standsAt hb.knows hs
  exact ⟨hd.fresh s hs, position, hposition, fun q hq => hd.unique s q position hq hposition⟩

end DynamicData.Heap
