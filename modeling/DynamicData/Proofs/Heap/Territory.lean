import DynamicData.Proofs.Heap.Copying
import DynamicData.Proofs.Heap.History

/-!
# Territories

A territory is a set of storages that no reference leads out of, and that all storage which
is not made yet belongs to. An operation on a storage of the territory that is supplied with
nothing from outside changes nothing outside, and no reference leads out afterwards. One
lemma says so for a single write; every operation is a growth within the territory and at
most one write.
-/

namespace DynamicData

/-- A node that refers to nothing outside of `T`. -/
def Node.Within (T : Storage → Prop) (n : Node) : Prop :=
  ∀ s, n.storage? = some s → T s

theorem Node.within_scalar {T : Storage → Prop} {n : Node} (hn : n.storage? = none) :
    n.Within T := by
  intro s hs
  rw [hn] at hs
  cases hs

namespace Heap

variable {h h' h₁ h₂ h₃ : Heap} {T : Storage → Prop} {n : Node}

/-- No reference leads out of `T`, and whatever is not made yet belongs to it. -/
structure Territory (h : Heap) (T : Storage → Prop) : Prop where
  closed : ∀ s, T s → ∀ n ∈ h.children s, n.Within T
  unused : ∀ s, ¬ h.Allocated s → T s

/-- The changes from `h` to `h'` are confined to the territory `T`. -/
structure Confined (h : Heap) (T : Storage → Prop) (h' : Heap) : Prop where
  territory : h'.Territory T
  allocated : ∀ s, h.Allocated s → h'.Allocated s
  agree : ∀ s, ¬ T s → h.Agree h' s

theorem Territory.refl (ht : h.Territory T) : h.Confined T h :=
  ⟨ht, fun _ hs => hs, fun s _ => .refl h s⟩

theorem Confined.trans (h₁₂ : h₁.Confined T h₂) (h₂₃ : h₂.Confined T h₃) : h₁.Confined T h₃ where
  territory := h₂₃.territory
  allocated := fun s hs => h₂₃.allocated s (h₁₂.allocated s hs)
  agree := fun s hs => (h₁₂.agree s hs).trans (h₂₃.agree s hs)

theorem Territory.reflTransGen (ht : h.Territory T) {s t : Storage} (hs : T s)
    (hst : Relation.ReflTransGen h.Contains s t) : T t := by
  induction hst with
  | refl => exact hs
  | tail _ hc ih =>
      obtain ⟨n, hn, hnt⟩ := hc
      exact ht.closed _ ih n hn _ hnt

/-- A write in the territory of what was there before and of nodes of the territory. -/
theorem Territory.write (ht : h.Territory T) {s : Storage} {nodes : List Node}
    (hwr : h.Writes h' s nodes) (hs : T s)
    (hnodes : ∀ n ∈ nodes, n ∈ h.children s ∨ n.Within T) : h.Confined T h' where
  territory := by
    constructor
    · intro t ht' n hn
      by_cases hts : t = s
      · subst hts
        rw [hwr.written] at hn
        rcases hnodes n hn with hold | hwithin
        · exact ht.closed t hs n hold
        · exact hwithin
      · rw [(hwr.other t hts).children_eq] at hn
        exact ht.closed t ht' n hn
    · exact fun t hunused => ht.unused t fun hold => hunused ((hwr.allocated t).mpr (.inl hold))
  allocated := fun t hold => (hwr.allocated t).mpr (.inl hold)
  agree := by
    intro t hout
    refine hwr.other t ?_
    rintro rfl
    exact hout hs

/-! ## New containers -/

theorem Territory.newArray (ht : h.Territory T) {nodes : List Node}
    (hnodes : ∀ n ∈ nodes, n.Within T) : h.Confined T (h.newArray nodes).1 :=
  ht.write (writes_newArray h nodes) (ht.unused _ (Nat.lt_irrefl _))
    fun n hn => .inr (hnodes n hn)

theorem Territory.newObject (ht : h.Territory T) {entries : Entries Node}
    (hnodes : ∀ n ∈ entries.values, n.Within T) : h.Confined T (h.newObject entries).1 :=
  ht.write (writes_newObject h entries) (ht.unused _ (Nat.lt_irrefl _))
    fun n hn => .inr (hnodes n hn)

/-- The heap `h'` has a node `n` of the territory, to which all changes are confined. -/
structure Placed (h : Heap) (T : Storage → Prop) (h' : Heap) (n : Node) : Prop where
  confined : h.Confined T h'
  within : n.Within T

/-- The same for several nodes. -/
structure PlacedAll (h : Heap) (T : Storage → Prop) (h' : Heap) (nodes : List Node) : Prop where
  confined : h.Confined T h'
  within : ∀ n ∈ nodes, n.Within T

theorem Placed.cons {nodes : List Node} (hp : h.Placed T h₁ n)
    (hrest : h₁.PlacedAll T h₂ nodes) : h.PlacedAll T h₂ (n :: nodes) :=
  ⟨hp.confined.trans hrest.confined, List.forall_mem_cons.mpr ⟨hp.within, hrest.within⟩⟩

theorem PlacedAll.newArray {nodes : List Node} (hp : h.PlacedAll T h' nodes) :
    h.Placed T (h'.newArray nodes).1 (.array (h'.newArray nodes).2) where
  confined := hp.confined.trans (hp.confined.territory.newArray hp.within)
  within := by
    rintro s ⟨⟩
    exact hp.confined.territory.unused _ (Nat.lt_irrefl _)

theorem PlacedAll.newObject {entries : Entries Node} (hp : h.PlacedAll T h' entries.values) :
    h.Placed T (h'.newObject entries).1 (.object (h'.newObject entries).2) where
  confined := hp.confined.trans (hp.confined.territory.newObject hp.within)
  within := by
    rintro s ⟨⟩
    exact hp.confined.territory.unused _ (Nat.lt_irrefl _)

variable {ι : Type}

theorem Territory.buildItems {items : List (Tree ι)}
    (ih : ∀ t ∈ items, ∀ {h : Heap}, h.Territory T → h.Placed T (h.build t).1 (h.build t).2)
    {h : Heap} (ht : h.Territory T) :
    h.PlacedAll T (h.buildItems items).1 (h.buildItems items).2 := by
  induction items generalizing h with
  | nil => exact ⟨ht.refl, fun _ hn => absurd hn List.not_mem_nil⟩
  | cons t rest ihr =>
      have hp := ih t List.mem_cons_self ht
      exact hp.cons (ihr (fun u hu => ih u (List.mem_cons_of_mem t hu)) hp.confined.territory)

/-- What is built is new, and refers to nothing else. -/
theorem Territory.build {h : Heap} (ht : h.Territory T) (t : Tree ι) :
    h.Placed T (h.build t).1 (h.build t).2 := by
  induction t using Tree.induction generalizing h with
  | array mark items ih => exact (ht.buildItems fun u hu _ ht => ih u hu ht).newArray
  | object mark entries ih =>
      have hvalues : ∀ t ∈ entries.map Prod.snd, ∀ {h : Heap}, h.Territory T →
          h.Placed T (h.build t).1 (h.build t).2 :=
        List.forall_mem_map.mpr fun e he _ ht => ih e he ht
      have hp := ht.buildItems hvalues
      rw [← buildEntries_fst, ← values_buildEntries] at hp
      exact hp.newObject
  | _ => exact ⟨ht.refl, Node.within_scalar rfl⟩

theorem valueCases_placed (T : Storage → Prop) : ValueCases
    (fun h v => h.Territory T → (∀ n ∈ v.references, n.Within T) →
      h.Placed T (h.nodeOf v).1 (h.nodeOf v).2)
    (fun h vs => h.Territory T → (∀ n ∈ Insertable.referencesOfAll vs, n.Within T) →
      h.PlacedAll T (h.nodesOf vs).1 (h.nodesOf vs).2) where
  scalar := by
    intro h v n hn _ hnode ht _
    rw [hnode]
    exact ⟨ht.refl, Node.within_scalar hn⟩
  reference := by
    intro h v n href hnode ht hv
    rw [hnode]
    exact ⟨ht.refl, hv n (href ▸ List.mem_cons_self)⟩
  some := id
  list := fun hall ht hv => (hall ht hv).newArray
  nil := fun ht _ => ⟨ht.refl, fun _ hn => absurd hn List.not_mem_nil⟩
  cons := by
    intro h v vs hone hall ht hv
    obtain ⟨hhead, htail⟩ := List.forall_mem_append.mp hv
    have hp := hone ht hhead
    exact hp.cons (hall hp.confined.territory htail)

/-- Values become nodes within the territory that their references are in. -/
theorem Territory.nodesOf (ht : h.Territory T) {vs : List Insertable}
    (hv : ∀ n ∈ Insertable.referencesOfAll vs, n.Within T) :
    h.PlacedAll T (h.nodesOf vs).1 (h.nodesOf vs).2 :=
  (valueCases_placed T).values h vs ht hv

/-! ## Operations -/

/-- A write to an array, after a growth, of its items and of nodes of the territory. -/
theorem Confined.setItems (hc : h.Confined T h') {a : ArrayRef} (har : h.Allocated (.array a))
    (hs : T (.array a)) {items : List Node} (hitems : ∀ n ∈ items, n ∈ h'.items a ∨ n.Within T) :
    h.Confined T (h'.setItems a items) :=
  hc.trans (hc.territory.write (writes_setItems (hc.allocated _ har) items) hs hitems)

theorem Confined.setEntries (hc : h.Confined T h') {o : ObjectRef}
    (ho : h.Allocated (.object o)) (hs : T (.object o)) {entries : Entries Node}
    (hentries : ∀ n ∈ entries.values, n ∈ (h'.entries o).values ∨ n.Within T) :
    h.Confined T (h'.setEntries o entries) :=
  hc.trans (hc.territory.write (writes_setEntries (hc.allocated _ ho) entries) hs hentries)

/-- Once the value has become a node, an item is removed or nothing happens. -/
theorem Confined.removeValue {g : Heap} {v : Insertable} (hc : g.Confined T (h.nodeOf v).1)
    {a : ArrayRef} (har : g.Allocated (.array a)) (hs : T (.array a)) :
    g.Confined T (h.removeValue a v).1 := by
  rcases removeValue_fst h a v with heq | ⟨i, heq⟩ <;> rw [heq]
  · exact hc
  · exact hc.setItems har hs fun m hm => .inl (List.mem_of_mem_eraseIdx hm)

theorem Territory.run (ht : h.Territory T) {op : Operation} (hp : h.Permits op)
    (htarget : ∀ s, op.target? = some s → T s) (hsupplies : ∀ n ∈ h.supplies op, n.Within T)
    (hr : h.run op = some h') : h.Confined T h' := by
  cases performs_of_run hr with
  | object keys supplied =>
      exact ht.newObject fun n hn => hsupplies n (supplied hn)
  | document read => exact (ht.build _).confined
  | copy n => exact (ht.build (h.tree n)).confined
  | values supplied => exact (ht.nodesOf fun n hn => hsupplies n (supplied hn)).confined
  | items target supplied stored =>
      have hplaced := ht.nodesOf fun n hn => hsupplies n (supplied hn)
      exact hplaced.confined.setItems (hp.allocated_target target) (htarget _ target)
        fun n hn => (stored n hn).imp_right fun hnew => hplaced.within n hnew.1
  | entries target supplied keys stored =>
      have hplaced := ht.nodesOf fun n hn => hsupplies n (supplied hn)
      exact hplaced.confined.setEntries (hp.allocated_target target) (htarget _ target)
        fun n hn => (stored n hn).imp_right fun hnew => hplaced.within n hnew.1

theorem Territory.after (ht : h.Territory T) {op : Operation} (hp : h.Permits op)
    (htarget : ∀ s, op.target? = some s → T s) (hsupplies : ∀ n ∈ h.supplies op, n.Within T) :
    h.Confined T (h.after op) := by
  unfold Heap.after
  cases hr : h.run op with
  | none => exact ht.refl
  | some h' => exact ht.run hp htarget hsupplies hr

end Heap
end DynamicData
