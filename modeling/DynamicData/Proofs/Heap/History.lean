import DynamicData.Proofs.Heap.Updating

/-!
# Histories

A program starts from a heap without containers and carries out operations one
after the other, each on references that it has been given. An operation that is
refused leaves the heap as it was. Every heap that a history leads to is well
formed, so containment in it is acyclic and all recursions over it come to an end.
-/

namespace DynamicData

/-- What a program can do to a heap. -/
inductive Operation
  | newObject (pairs : List (String × Node))
  | newArray (values : List Insertable)
  | nodeOfJson (payload : Bytes)
  | nodeOfBinary (limits : Limits) (payload : Bytes)
  | objectOfJson (limits : Limits) (payload : Bytes)
  | arrayOfJson (limits : Limits) (payload : Bytes)
  | objectOfSource (limits : Limits) (s : Source)
  | arrayOfSource (limits : Limits) (s : Source)
  | objectOfBinary (limits : Limits) (payload : Bytes)
  | arrayOfBinary (limits : Limits) (payload : Bytes)
  | deepCopy (n : Node)
  | put (o : ObjectRef) (key : String) (v : Insertable)
  | putNull (o : ObjectRef) (key : String)
  | removeKey (o : ObjectRef) (key : String)
  | rename (o : ObjectRef) (old new : String)
  | add (a : ArrayRef) (v : Insertable)
  | addAll (a : ArrayRef) (vs : List Insertable)
  | addAllOf (a other : ArrayRef)
  | insertAt (a : ArrayRef) (index : Nat) (v : Insertable)
  | setAt (a : ArrayRef) (index : Nat) (v : Insertable)
  | removeAt (a : ArrayRef) (index : Nat)
  | removeValue (a : ArrayRef) (v : Insertable)

/-- The container that an operation changes, if there is one. -/
def Operation.target? : Operation → Option Storage
  | .put o _ _ | .putNull o _ | .removeKey o _ | .rename o _ _ => some (.object o)
  | .add a _ | .addAll a _ | .addAllOf a _ | .insertAt a _ _ | .setAt a _ _ => some (.array a)
  | .removeAt a _ | .removeValue a _ => some (.array a)
  | _ => none

namespace Heap

/-- The heap after an operation, unless it is refused. -/
def run (h : Heap) : Operation → Option Heap
  | .newObject pairs => some (h.newObject (Entries.ofPairs pairs)).1
  | .newArray values => some (h.nodeOf (.list values)).1
  | .nodeOfJson payload => (Json.parse payload).toOption.map fun d => (h.build d).1
  | .nodeOfBinary limits payload =>
    (Document.ofBinary limits payload).toOption.map fun d => (h.build d).1
  | .objectOfJson limits payload => (h.objectOfJson limits payload).toOption.map Prod.fst
  | .arrayOfJson limits payload => (h.arrayOfJson limits payload).toOption.map Prod.fst
  | .objectOfSource limits s => (h.objectOfSource limits s).toOption.map Prod.fst
  | .arrayOfSource limits s => (h.arrayOfSource limits s).toOption.map Prod.fst
  | .objectOfBinary limits payload => (h.objectOfBinary limits payload).toOption.map Prod.fst
  | .arrayOfBinary limits payload => (h.arrayOfBinary limits payload).toOption.map Prod.fst
  | .deepCopy n => some (h.deepCopy n).1
  | .put o key v => (h.put o key v).toOption
  | .putNull o key => some (h.putNull o key)
  | .removeKey o key => some (h.removeKey o key).1
  | .rename o old new => some (h.rename o old new)
  | .add a v => (h.add a v).toOption
  | .addAll a vs => (h.addAll a vs).toOption
  | .addAllOf a other => (h.addAllOf a other).toOption
  | .insertAt a index v => (h.insertAt a index v).toOption
  | .setAt a index v => (h.setAt a index v).toOption
  | .removeAt a index => (h.removeAt a index).toOption.map Prod.fst
  | .removeValue a v => some (h.removeValue a v).1

/-- The heap after an operation, which is the old one if it is refused. -/
def after (h : Heap) (op : Operation) : Heap :=
  (h.run op).getD h

/-- The references that an operation is given are to storage that has been made. -/
def Permits (h : Heap) : Operation → Prop
  | .newObject pairs => ∀ p ∈ pairs, h.Knows p.2
  | .newArray values => h.KnowsValues values
  | .nodeOfJson _ | .nodeOfBinary .. => True
  | .objectOfJson .. | .arrayOfJson .. | .objectOfSource .. | .arrayOfSource .. => True
  | .objectOfBinary .. | .arrayOfBinary .. => True
  | .deepCopy n => h.Knows n
  | .put o _ v => h.Allocated (.object o) ∧ h.KnowsValue v
  | .putNull o _ | .removeKey o _ | .rename o _ _ => h.Allocated (.object o)
  | .add a v | .insertAt a _ v | .setAt a _ v | .removeValue a v =>
    h.Allocated (.array a) ∧ h.KnowsValue v
  | .addAll a vs => h.Allocated (.array a) ∧ h.KnowsValues vs
  | .addAllOf a other => h.Allocated (.array a) ∧ h.Allocated (.array other)
  | .removeAt a _ => h.Allocated (.array a)

instance (h : Heap) : DecidablePred h.Permits
  | .newObject pairs => inferInstanceAs (Decidable (∀ p ∈ pairs, h.Knows p.2))
  | .newArray values => inferInstanceAs (Decidable (h.KnowsValues values))
  | .nodeOfJson _ | .nodeOfBinary .. => isTrue trivial
  | .objectOfJson .. | .arrayOfJson .. | .objectOfSource .. | .arrayOfSource .. => isTrue trivial
  | .objectOfBinary .. | .arrayOfBinary .. => isTrue trivial
  | .deepCopy n => inferInstanceAs (Decidable (h.Knows n))
  | .put o _ v => inferInstanceAs (Decidable (h.Allocated (.object o) ∧ h.KnowsValue v))
  | .putNull o _ | .removeKey o _ | .rename o _ _ =>
    inferInstanceAs (Decidable (h.Allocated (.object o)))
  | .add a v | .insertAt a _ v | .setAt a _ v | .removeValue a v =>
    inferInstanceAs (Decidable (h.Allocated (.array a) ∧ h.KnowsValue v))
  | .addAll a vs => inferInstanceAs (Decidable (h.Allocated (.array a) ∧ h.KnowsValues vs))
  | .addAllOf a other =>
    inferInstanceAs (Decidable (h.Allocated (.array a) ∧ h.Allocated (.array other)))
  | .removeAt a _ => inferInstanceAs (Decidable (h.Allocated (.array a)))

/-- The nodes that an operation is supplied with, to be stored as they are. -/
def supplies (h : Heap) : Operation → List Node
  | .newObject pairs => pairs.map Prod.snd
  | .newArray values => Insertable.referencesOfAll values
  | .put _ _ v | .add _ v | .insertAt _ _ v | .setAt _ _ v | .removeValue _ v => v.references
  | .addAll _ vs => Insertable.referencesOfAll vs
  | .addAllOf _ other => h.items other
  | _ => []

/-- The heaps that a program can bring about. -/
inductive Reachable : Heap → Prop
  | empty : Reachable empty
  | after {h : Heap} (hr : Reachable h) {op : Operation} (hp : h.Permits op) :
    Reachable (h.after op)

/-! ## Results of operations -/

theorem eq_ok_of_toOption {ε α : Type} {x : Except ε α} {a : α}
    (hx : x.toOption = some a) : x = .ok a := by
  cases x with
  | error e => cases hx
  | ok b =>
      cases hx
      rfl

theorem eq_ok_of_toOption_map {ε α β : Type} {x : Except ε α} {f : α → β} {b : β}
    (hx : x.toOption.map f = some b) : ∃ a, x = .ok a ∧ f a = b := by
  obtain ⟨a, ha, hf⟩ := Option.map_eq_some_iff.mp hx
  exact ⟨a, eq_ok_of_toOption ha, hf⟩

/-- An object that is loaded comes from a document that is one. -/
theorem ok_of_loadObject {h : Heap} {x : Except DataError Document} {e : String → DataError}
    {r : Heap × ObjectRef}
    (hx : (do return h.loadObject (← (← x).entries.mapError e)) = .ok r) :
    ∃ entries, x = .ok (.object () entries) ∧ r = h.loadObject entries := by
  obtain ⟨d, rfl, hd⟩ := except_bind_eq_ok.mp hx
  obtain ⟨entries, he, hr⟩ := except_bind_eq_ok.mp hd
  cases d with
  | object mark entries' =>
      cases he
      cases hr
      exact ⟨entries, rfl, rfl⟩
  | _ => cases he

/-- An array that is loaded comes from a document that is one. -/
theorem ok_of_loadArray {h : Heap} {x : Except DataError Document} {e : String → DataError}
    {r : Heap × ArrayRef}
    (hx : (do return h.loadArray (← (← x).items.mapError e)) = .ok r) :
    ∃ items, x = .ok (.array () items) ∧ r = h.loadArray items := by
  obtain ⟨d, rfl, hd⟩ := except_bind_eq_ok.mp hx
  obtain ⟨items, hi, hr⟩ := except_bind_eq_ok.mp hd
  cases d with
  | array mark items' =>
      cases hi
      cases hr
      exact ⟨items, rfl, rfl⟩
  | _ => cases hi

theorem WellFormed.built_of_loadObject {h : Heap} (hw : h.WellFormed)
    {x : Except DataError Document} {e : String → DataError} {r : Heap × ObjectRef}
    (hx : ∀ d, x = .ok d → d.KeysDistinct)
    (hr : (do return h.loadObject (← (← x).entries.mapError e)) = .ok r) :
    ∃ d, x = .ok d ∧ h.Built d r.1 (.object r.2) := by
  obtain ⟨entries, hd, rfl⟩ := ok_of_loadObject hr
  exact ⟨_, hd, hw.loadObject (hx _ hd)⟩

theorem WellFormed.built_of_loadArray {h : Heap} (hw : h.WellFormed)
    {x : Except DataError Document} {e : String → DataError} {r : Heap × ArrayRef}
    (hx : ∀ d, x = .ok d → d.KeysDistinct)
    (hr : (do return h.loadArray (← (← x).items.mapError e)) = .ok r) :
    ∃ d, x = .ok d ∧ h.Built d r.1 (.array r.2) := by
  obtain ⟨items, hd, rfl⟩ := ok_of_loadArray hr
  exact ⟨_, hd, hw.loadArray (hx _ hd)⟩

/-! ## One step

Operations differ in what they check and in where they put a node. What they do to the heap is
always one of a few things, so what an operation keeps is shown once for each of these. -/

/-- What an operation that is not refused does to the heap. New storage comes first, from what
the operation is given, and then there is at most one write, to its target. What is written
was there before or is a node that does not lead back to the target. -/
inductive Performs (h : Heap) : Operation → Heap → Prop
  | object {op : Operation} {entries : Entries Node} (keys : entries.keys.Nodup)
      (supplied : entries.values ⊆ h.supplies op) : Performs h op (h.newObject entries).1
  | document {op : Operation} {d : Document} (read : d.Parsed) : Performs h op (h.build d).1
  | copy (n : Node) : Performs h (.deepCopy n) (h.deepCopy n).1
  | values {op : Operation} {vs : List Insertable}
      (supplied : Insertable.referencesOfAll vs ⊆ h.supplies op) :
      Performs h op (h.nodesOf vs).1
  | items {op : Operation} {a : ArrayRef} {vs : List Insertable} {items : List Node}
      (target : op.target? = some (.array a))
      (supplied : Insertable.referencesOfAll vs ⊆ h.supplies op)
      (stored : ∀ n ∈ items, n ∈ (h.nodesOf vs).1.items a ∨
        n ∈ (h.nodesOf vs).2 ∧ ¬ (h.nodesOf vs).1.reaches n (.array a) = true) :
      Performs h op ((h.nodesOf vs).1.setItems a items)
  | entries {op : Operation} {o : ObjectRef} {vs : List Insertable} {entries : Entries Node}
      (target : op.target? = some (.object o))
      (supplied : Insertable.referencesOfAll vs ⊆ h.supplies op)
      (keys : ((h.nodesOf vs).1.entries o).keys.Nodup → entries.keys.Nodup)
      (stored : ∀ n ∈ entries.values, n ∈ ((h.nodesOf vs).1.entries o).values ∨
        n ∈ (h.nodesOf vs).2 ∧ ¬ (h.nodesOf vs).1.reaches n (.object o) = true) :
      Performs h op ((h.nodesOf vs).1.setEntries o entries)

section
variable {h h' : Heap} {op : Operation} {v : Insertable}

theorem Performs.loadedObject {x : Except DataError Document} {e : String → DataError}
    (hx : ∀ d, x = .ok d → d.Parsed)
    (hr : (do return h.loadObject (← (← x).entries.mapError e)).toOption.map Prod.fst =
      some h') : h.Performs op h' := by
  obtain ⟨r, hload, rfl⟩ := eq_ok_of_toOption_map hr
  obtain ⟨entries, hd, rfl⟩ := ok_of_loadObject hload
  exact .document (hx _ hd)

theorem Performs.loadedArray {x : Except DataError Document} {e : String → DataError}
    (hx : ∀ d, x = .ok d → d.Parsed)
    (hr : (do return h.loadArray (← (← x).items.mapError e)).toOption.map Prod.fst =
      some h') : h.Performs op h' := by
  obtain ⟨r, hload, rfl⟩ := eq_ok_of_toOption_map hr
  obtain ⟨items, hd, rfl⟩ := ok_of_loadArray hload
  exact .document (hx _ hd)

theorem subset_of_references {nodes : List Node} (hv : v.references ⊆ nodes) :
    Insertable.referencesOfAll [v] ⊆ nodes := by
  rwa [Insertable.referencesOfAll_singleton]

theorem Performs.value (supplied : v.references ⊆ h.supplies op) :
    h.Performs op (h.nodeOf v).1 :=
  .values (subset_of_references supplied)

/-- One value is stored in an array, beside items that the array had. -/
theorem Performs.item {a : ArrayRef} (target : op.target? = some (.array a))
    (supplied : v.references ⊆ h.supplies op)
    (hno : ¬ (h.nodeOf v).1.reaches (h.nodeOf v).2 (.array a) = true) {items : List Node}
    (hitems : ∀ m ∈ items, m ∈ (h.nodeOf v).1.items a ∨ m = (h.nodeOf v).2) :
    h.Performs op ((h.nodeOf v).1.setItems a items) := by
  refine .items target (subset_of_references supplied) fun m hm => (hitems m hm).imp_right ?_
  rintro rfl
  exact ⟨List.mem_singleton_self _, hno⟩

/-- One value is stored in an object, beside values that the object had. -/
theorem Performs.entry {o : ObjectRef} (target : op.target? = some (.object o))
    (supplied : v.references ⊆ h.supplies op)
    (hno : ¬ (h.nodeOf v).1.reaches (h.nodeOf v).2 (.object o) = true) (key : String) :
    h.Performs op ((h.nodeOf v).1.setEntries o
      (((h.nodeOf v).1.entries o).insert key (h.nodeOf v).2)) := by
  refine .entries target (subset_of_references supplied) (Entries.nodup_insert key _) fun m hm =>
    (Entries.mem_values_insert hm).imp_right ?_
  rintro rfl
  exact ⟨List.mem_singleton_self _, hno⟩

theorem performs_of_run (hr : h.run op = some h') : h.Performs op h' := by
  cases op with
  | newObject pairs =>
      cases hr
      refine .object (Entries.nodup_ofPairs pairs) fun n hn => ?_
      obtain ⟨p, hmem, rfl⟩ := Entries.mem_values_ofPairs hn
      exact List.mem_map_of_mem hmem
  | newArray values =>
      cases hr
      exact .value (List.Subset.refl _)
  | nodeOfJson payload =>
      obtain ⟨d, hd, rfl⟩ := eq_ok_of_toOption_map hr
      exact .document (.json hd)
  | nodeOfBinary limits payload =>
      obtain ⟨d, hd, rfl⟩ := eq_ok_of_toOption_map hr
      exact .document (.binary hd)
  | objectOfJson limits payload =>
      exact .loadedObject (fun _ => Document.parsed_of_ofJson) hr
  | arrayOfJson limits payload =>
      exact .loadedArray (fun _ => Document.parsed_of_ofJson) hr
  | objectOfSource limits s =>
      exact .loadedObject (fun _ => Document.parsed_of_ofSource) hr
  | arrayOfSource limits s =>
      exact .loadedArray (fun _ => Document.parsed_of_ofSource) hr
  | objectOfBinary limits payload =>
      exact .loadedObject (fun _ => Document.Parsed.binary) hr
  | arrayOfBinary limits payload =>
      exact .loadedArray (fun _ => Document.Parsed.binary) hr
  | deepCopy n =>
      cases hr
      exact .copy n
  | put o key v =>
      obtain ⟨hno, rfl⟩ := put_eq_ok (eq_ok_of_toOption hr)
      exact .entry rfl (List.Subset.refl _) hno key
  | putNull o key =>
      cases hr
      -- null is what becomes of a value that is not there
      have hno : ¬ (h.nodeOf .none).1.reaches (h.nodeOf .none).2 (.object o) = true := by
        show ¬ (h.tree .null).holds (.object o) = true
        rw [tree_null]
        exact Bool.false_ne_true
      exact .entry rfl (List.nil_subset _) hno key
  | removeKey o key =>
      cases hr
      exact @Performs.entries h _ o [] _ rfl (List.nil_subset _) (Entries.nodup_erase key)
        fun _ hn => .inl (Entries.mem_values_erase hn)
  | rename o old new =>
      cases hr
      exact @Performs.entries h _ o [] _ rfl (List.nil_subset _) (Entries.nodup_rename old new)
        fun _ hn => .inl (Entries.mem_values_rename hn)
  | add a v =>
      obtain ⟨hno, rfl⟩ := add_eq_ok (eq_ok_of_toOption hr)
      exact .item rfl (List.Subset.refl _) hno fun m hm =>
        (List.mem_append.mp hm).imp_right List.mem_singleton.mp
  | addAll a vs =>
      obtain ⟨hno, rfl⟩ := addAll_eq_ok (eq_ok_of_toOption hr)
      exact .items rfl (List.Subset.refl _) fun m hm =>
        (List.mem_append.mp hm).imp_right fun hnew => ⟨hnew, hno m hnew⟩
  | addAllOf a other =>
      obtain ⟨hno, rfl⟩ := addAll_eq_ok (eq_ok_of_toOption hr)
      have hsupplied : Insertable.referencesOfAll ((h.items other).map .node) ⊆ h.items other := by
        rw [referencesOfAll_nodes]
        exact List.Subset.refl _
      exact .items rfl hsupplied fun m hm =>
        (List.mem_append.mp hm).imp_right fun hnew => ⟨hnew, hno m hnew⟩
  | insertAt a index v =>
      obtain ⟨hno, hle, rfl⟩ := insertAt_eq_ok (eq_ok_of_toOption hr)
      exact .item rfl (List.Subset.refl _) hno fun m hm => ((List.mem_insertIdx hle).mp hm).symm
  | setAt a index v =>
      obtain ⟨hno, -, rfl⟩ := setAt_eq_ok (eq_ok_of_toOption hr)
      exact .item rfl (List.Subset.refl _) hno fun m hm => List.mem_or_eq_of_mem_set hm
  | removeAt a index =>
      obtain ⟨r, hx, rfl⟩ := eq_ok_of_toOption_map hr
      obtain ⟨-, heq⟩ := removeAt_eq_ok hx
      rw [heq]
      exact @Performs.items h _ a [] _ rfl (List.nil_subset _)
        fun _ hn => .inl (List.mem_of_mem_eraseIdx hn)
  | removeValue a v =>
      cases hr
      rcases removeValue_fst h a v with heq | ⟨index, heq⟩ <;> rw [heq]
      · exact .value (List.Subset.refl _)
      · exact .items rfl (subset_of_references (List.Subset.refl _))
          fun _ hn => .inl (List.mem_of_mem_eraseIdx hn)

theorem Permits.allocated_target (hp : h.Permits op) {s : Storage}
    (ht : op.target? = some s) : h.Allocated s := by
  cases op with
  | put | add | addAll | addAllOf | insertAt | setAt | removeValue =>
      cases ht
      exact hp.1
  | putNull | removeKey | rename | removeAt =>
      cases ht
      exact hp
  | _ => cases ht

theorem WellFormed.knows_supplies (hw : h.WellFormed) (hp : h.Permits op) :
    ∀ n ∈ h.supplies op, h.Knows n := by
  cases op with
  | newObject pairs => exact List.forall_mem_map.mpr hp
  | newArray values => exact hp
  | put | add | addAll | insertAt | setAt | removeValue => exact hp.2
  | addAllOf a other => exact hw.closed (.array other)
  | _ => exact fun _ hn => absurd hn List.not_mem_nil

/-- A search that came back empty means that nothing leads back. -/
theorem AdmittedAll.storable {nodes : List Node} (ha : h.AdmittedAll h' nodes) {n : Node}
    (hn : n ∈ nodes) {s : Storage} (hno : ¬ h'.reaches n s = true) :
    h'.Knows n ∧ ¬ h'.Reaches n s := by
  rw [ha.wellFormed.reaches_eq_true_iff (ha.knows n hn)] at hno
  exact ⟨ha.knows n hn, hno⟩

theorem WellFormed.run (hw : h.WellFormed) (hp : h.Permits op) (hr : h.run op = some h') :
    h'.WellFormed := by
  have hknows := hw.knows_supplies hp
  cases performs_of_run hr with
  | object keys supplied => exact hw.newObject keys fun n hn => hknows n (supplied hn)
  | document read => exact (hw.build read.keysDistinct).wellFormed
  | copy n => exact (hw.built_deepCopy hp).wellFormed
  | values supplied => exact (hw.nodesOf _ fun n hn => hknows n (supplied hn)).wellFormed
  | items target supplied stored =>
      have ha := hw.nodesOf _ fun n hn => hknows n (supplied hn)
      have hal := ha.grows.allocated _ (hp.allocated_target target)
      exact ha.wellFormed.setItems hal fun n hn =>
        (stored n hn).imp_right fun hnew => ha.storable hnew.1 hnew.2
  | entries target supplied keys stored =>
      have ha := hw.nodesOf _ fun n hn => hknows n (supplied hn)
      have hal := ha.grows.allocated _ (hp.allocated_target target)
      exact ha.wellFormed.setEntries hal (keys (ha.wellFormed.keys_nodup _)) fun n hn =>
        (stored n hn).imp_right fun hnew => ha.storable hnew.1 hnew.2

end

theorem WellFormed.after {h : Heap} (hw : h.WellFormed) {op : Operation}
    (hp : h.Permits op) : (h.after op).WellFormed := by
  unfold Heap.after
  cases hr : h.run op with
  | none => exact hw
  | some h' => exact hw.run hp hr

/-! ## Whole histories -/

theorem Reachable.wellFormed {h : Heap} (hr : h.Reachable) : h.WellFormed := by
  induction hr with
  | empty => exact wellFormed_empty
  | after _ hp ih => exact ih.after hp

/-- After any history no container lies below itself. Going down from container to
container therefore ends, and the tree of a node, from which depth, equality,
hashes, copies and texts are all computed, satisfies the recursion over what the
node contains. -/
theorem Reachable.containment_wellFounded {h : Heap} (hr : h.Reachable) :
    h.Acyclic ∧ (WellFounded fun t s => h.Contains s t) ∧
      (∀ n s, h.Knows n → (h.reaches n s = true ↔ h.Reaches n s)) ∧
      (∀ r, h.Allocated (.array r) →
        h.tree (.array r) = .array (.array r) ((h.items r).map h.tree)) ∧
      ∀ r, h.Allocated (.object r) →
        h.tree (.object r) =
          .object (.object r) ((h.entries r).map fun e => (e.1, h.tree e.2)) := by
  have hw := hr.wellFormed
  refine ⟨hw.acyclic, hw.wellFounded, ?_, ?_, ?_⟩
  · exact fun n s hn => hw.reaches_eq_true_iff hn s
  · exact fun r ha => hw.tree_array ha
  · exact fun r ha => hw.tree_object ha

/-- An array that holds an object, and an attempt to put the array into the object. -/
theorem acyclic_after_refused_put :
    let h := (empty.after (.newObject [])).after (.newArray [.node (.object ⟨0⟩)])
    let op := Operation.put ⟨0⟩ "parent" (.node (.array ⟨0⟩))
    h.put ⟨0⟩ "parent" (.node (.array ⟨0⟩)) = .error .objectCycle ∧ (h.after op).size = 2 ∧
      (h.after op).Reachable ∧ (h.after op).Acyclic := by
  intro h op
  have hobject : h.Allocated (.object ⟨0⟩) := Nat.zero_lt_one
  have harray : h.Allocated (.array ⟨0⟩) := Nat.zero_lt_one
  have hempty : (empty.after (.newObject [])).Reachable :=
    .after .empty fun _ hp => absurd hp List.not_mem_nil
  have hr : (h.after op).Reachable := by
    refine .after (.after hempty ?_) ⟨hobject, ?_⟩
    · intro n hn
      rw [List.mem_singleton.mp hn]
      exact knows_object.mpr hobject
    · intro n hn
      rw [List.mem_singleton.mp hn]
      exact knows_array.mpr harray
  exact ⟨rfl, rfl, hr, (Reachable.containment_wellFounded hr).1⟩
end Heap
end DynamicData
