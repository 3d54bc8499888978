import DynamicData.Proofs.Heap.Admission
import DynamicData.Proofs.Heap.History

/-!
# Refused changes

A change to a container may be refused. `InPlace` has each change that can be, statement by
statement, on a heap that is changed in place: storage that was taken and values that were
written before a refusal stay. What the change does to the heap is what `Heap.put` and the
others say, and where it is refused, everything that was there before is as it was: a value
is searched before anything is written, and a batch of values is written at once.
-/

namespace DynamicData

/-! ## Changes in place -/

namespace InPlace

/-- Statements that change a heap and may fail, which does not undo the changes. -/
abbrev Action :=
  EStateM DataError Heap

/-- The node of a value for the container `s`, which must not be reachable from it. -/
def nodeFor (cycle : DataError) (s : Storage) (v : Insertable) : Action Node := do
  let n ← modifyGet fun h => (h.nodeOf v).swap
  if (← get).reaches n s then throw cycle
  return n

def put (o : ObjectRef) (key : String) (v : Insertable) : Action Unit := do
  let n ← nodeFor .objectCycle (.object o) v
  modify fun h => h.setEntries o ((h.entries o).insert key n)

def add (a : ArrayRef) (v : Insertable) : Action Unit := do
  let n ← nodeFor .arrayCycle (.array a) v
  modify fun h => h.setItems a (h.items a ++ [n])

/-- The values are admitted one after the other, up to the first that is refused. They
are at hand from the start, as they are for `Heap.addAll`, so that what comes between two
admissions is the storage of the first and nothing else. -/
def addAll (a : ArrayRef) (vs : List Insertable) : Action Unit := do
  let nodes ← vs.mapM (nodeFor .arrayCycle (.array a))
  modify fun h => h.setItems a (h.items a ++ nodes)

def addAllOf (a other : ArrayRef) : Action Unit := do
  addAll a (((← get).items other).map .node)

def insertAt (a : ArrayRef) (index : Nat) (v : Insertable) : Action Unit := do
  let n ← nodeFor .arrayCycle (.array a) v
  let items := (← get).items a
  if items.length < index then throw (.indexOutOfBounds index items.length)
  modify fun h => h.setItems a (items.insertIdx index n)

def setAt (a : ArrayRef) (index : Nat) (v : Insertable) : Action Unit := do
  let n ← nodeFor .arrayCycle (.array a) v
  let items := (← get).items a
  if index < items.length then modify fun h => h.setItems a (items.set index n)
  else throw (.indexOutOfBounds index items.length)

def removeAt (a : ArrayRef) (index : Nat) : Action Node := do
  let items := (← get).items a
  match items[index]? with
  | some n =>
    modify fun h => h.setItems a (items.eraseIdx index)
    return n
  | none => throw (.indexOutOfBounds index items.length)

variable {α β : Type} {x : Action α} {f : α → Action β} {h h₁ : Heap}

theorem run_bind_ok {a : α} (hx : x.run h = .ok a h₁) : (x >>= f).run h = (f a).run h₁ := by
  simp only [EStateM.run, bind, EStateM.bind] at hx ⊢
  rw [hx]

theorem run_bind_error {e : DataError} (hx : x.run h = .error e h₁) :
    (x >>= f).run h = .error e h₁ := by
  simp only [EStateM.run, bind, EStateM.bind] at hx ⊢
  rw [hx]

theorem run_bind_get {f : Heap → Action β} : (get >>= f).run h = (f h).run h :=
  rfl

/-! ### Admission -/

variable {cycle : DataError} {s : Storage}

theorem nodeFor_run (v : Insertable) : (nodeFor cycle s v).run h =
    if (h.nodeOf v).1.reaches (h.nodeOf v).2 s then .error cycle (h.nodeOf v).1
    else .ok (h.nodeOf v).2 (h.nodeOf v).1 := by
  have htake : (modifyGet fun h => (h.nodeOf v).swap : Action Node).run h =
      .ok (h.nodeOf v).2 (h.nodeOf v).1 := rfl
  unfold nodeFor
  rw [run_bind_ok htake, run_bind_get]
  split <;> rfl

theorem nodeFor_run_of_reaches (hw : h.WellFormed) {v : Insertable} (hv : h.KnowsValue v)
    (hs : h.Allocated s) (hreach : h.AnyReaches v.references s) :
    (nodeFor cycle s v).run h = .error cycle (h.nodeOf v).1 := by
  rw [nodeFor_run, if_pos ((hw.search_nodeOf_iff hv hs).mpr hreach)]

theorem nodeFor_run_of_not_reaches (hw : h.WellFormed) {v : Insertable} (hv : h.KnowsValue v)
    (hs : h.Allocated s) (hno : ¬ h.AnyReaches v.references s) :
    (nodeFor cycle s v).run h = .ok (h.nodeOf v).2 (h.nodeOf v).1 := by
  rw [nodeFor_run, if_neg (mt (hw.search_nodeOf_iff hv hs).mp hno)]

theorem mapM_nodeFor_run_of_reaches {h : Heap} (hw : h.WellFormed) {vs : List Insertable}
    (hv : h.KnowsValues vs) (hs : h.Allocated s)
    (hreach : h.AnyReaches (Insertable.referencesOfAll vs) s) :
    ∃ h', (vs.mapM (nodeFor cycle s)).run h = .error cycle h' ∧ h.Grows h' := by
  induction vs generalizing h with
  | nil => exact absurd hreach Heap.anyReaches_nil
  | cons v rest ih =>
      obtain ⟨hhead, htail⟩ := Heap.knowsValues_cons.mp hv
      have ha := hw.nodeOf v hhead
      rw [List.mapM_cons]
      by_cases hfirst : h.AnyReaches v.references s
      · exact ⟨_, run_bind_error (nodeFor_run_of_reaches hw hhead hs hfirst), ha.grows⟩
      · have hrest : h.AnyReaches (Insertable.referencesOfAll rest) s :=
          (Heap.anyReaches_append.mp hreach).resolve_left hfirst
        obtain ⟨h', herror, hgrows⟩ := ih ha.wellFormed
          (ha.grows.knowsValues htail) (ha.grows.allocated _ hs)
          ((ha.grows.anyReaches_iff hw htail).mpr hrest)
        refine ⟨h', ?_, ha.grows.trans hgrows⟩
        rw [run_bind_ok (nodeFor_run_of_not_reaches hw hhead hs hfirst)]
        exact run_bind_error herror

theorem mapM_nodeFor_run_of_not_reaches {h : Heap} (hw : h.WellFormed) {vs : List Insertable}
    (hv : h.KnowsValues vs) (hs : h.Allocated s)
    (hno : ¬ h.AnyReaches (Insertable.referencesOfAll vs) s) :
    (vs.mapM (nodeFor cycle s)).run h = .ok (h.nodesOf vs).2 (h.nodesOf vs).1 := by
  induction vs generalizing h with
  | nil => rfl
  | cons v rest ih =>
      obtain ⟨hhead, htail⟩ := Heap.knowsValues_cons.mp hv
      have ha := hw.nodeOf v hhead
      obtain ⟨hfirst, hrest⟩ := not_or.mp (mt Heap.anyReaches_append.mpr hno)
      rw [List.mapM_cons, run_bind_ok (nodeFor_run_of_not_reaches hw hhead hs hfirst),
        run_bind_ok (ih ha.wellFormed (ha.grows.knowsValues htail)
          (ha.grows.allocated _ hs) (mt (ha.grows.anyReaches_iff hw htail).mp hrest))]
      rfl

/-! ### Removal -/

theorem removeAt_run (h : Heap) (a : ArrayRef) (index : Nat) :
    (removeAt a index).run h = match (h.items a)[index]? with
      | some n => .ok n (h.setItems a ((h.items a).eraseIdx index))
      | none => .error (.indexOutOfBounds index (h.items a).length) h := by
  rw [removeAt, run_bind_get]
  dsimp only
  split <;> rfl

end InPlace

namespace Heap

/-! ## Outcomes -/

/-- What becomes of a change to the container `s` that is supplied with nodes: it breaks the
contract if and only if `s` is reachable from one of them, it is outside the bounds if and
only if it does not break the contract and `outside` holds of the index and the length, and
it is accepted in all other cases. Carried out in place it leads to the same heap or the same
error, and where it fails, nothing that was there before has changed. -/
structure Outcome {α : Type} (h : Heap) (s : Storage) (supplied : List Node)
    (outside : Nat → Nat → Prop) (x : Except DataError Heap)
    (y : EStateM.Result DataError Heap α) : Prop where
  contract : (∃ reason, x = .error (.contract reason)) ↔ h.AnyReaches supplied s
  bounds : ∀ i n, x = .error (.indexOutOfBounds i n) ↔
    ¬ h.AnyReaches supplied s ∧ outside i n
  accepted : (∃ h', x = .ok h') ↔ ¬ h.AnyReaches supplied s ∧ ∀ i n, ¬ outside i n
  inPlace : ∀ h', x = .ok h' → ∃ a, y = .ok a h'
  unchanged : ∀ e, x = .error e → ∃ h', y = .error e h' ∧ h.Grows h'

namespace Outcome

variable {α : Type} {h h₁ : Heap} {s : Storage} {supplied : List Node}
  {outside : Nat → Nat → Prop} {x : Except DataError Heap}
  {y : EStateM.Result DataError Heap α}

theorem of_reaches {reason : String} (hreach : h.AnyReaches supplied s) (hg : h.Grows h₁)
    (hx : x = .error (.contract reason)) (hy : y = .error (.contract reason) h₁) :
    h.Outcome s supplied outside x y := by
  subst hx hy
  refine ⟨iff_of_true ⟨reason, rfl⟩ hreach, fun i n => ?_, ?_, nofun, ?_⟩
  · exact iff_of_false nofun fun hno => hno.1 hreach
  · exact iff_of_false nofun fun hno => hno.1 hreach
  · rintro e ⟨⟩
    exact ⟨h₁, rfl, hg⟩

theorem of_outside {index length : Nat} {c : Prop} (hno : ¬ h.AnyReaches supplied s) (hc : c)
    (hg : h.Grows h₁) (hx : x = .error (.indexOutOfBounds index length))
    (hy : y = .error (.indexOutOfBounds index length) h₁) :
    h.Outcome s supplied (fun i n => i = index ∧ n = length ∧ c) x y := by
  subst hx hy
  refine ⟨iff_of_false nofun hno, fun i n => ?_, ?_, nofun, ?_⟩
  · rw [and_iff_right hno, and_iff_left hc]
    simp [eq_comm]
  · exact iff_of_false nofun fun hin => hin.2 index length ⟨rfl, rfl, hc⟩
  · rintro e ⟨⟩
    exact ⟨h₁, rfl, hg⟩

theorem of_inside {h' : Heap} {a : α} (hno : ¬ h.AnyReaches supplied s)
    (hin : ∀ i n, ¬ outside i n) (hx : x = .ok h') (hy : y = .ok a h') :
    h.Outcome s supplied outside x y := by
  subst hx hy
  refine ⟨iff_of_false nofun hno, fun i n => ?_, iff_of_true ⟨h', rfl⟩ ⟨hno, hin⟩, ?_, nofun⟩
  · exact iff_of_false nofun fun hout => hin i n hout.2
  · rintro h' ⟨⟩
    exact ⟨a, rfl⟩

/-- An index is compared with a length after the search has found nothing. -/
theorem of_bounded {index length : Nat} {c : Prop} [Decidable c] {h' : Heap} {a : α}
    (hno : ¬ h.AnyReaches supplied s) (hg : h.Grows h₁)
    (hx : x = if c then .error (.indexOutOfBounds index length) else .ok h')
    (hy : y = if c then .error (.indexOutOfBounds index length) h₁ else .ok a h') :
    h.Outcome s supplied (fun i n => i = index ∧ n = length ∧ c) x y := by
  by_cases hc : c
  · rw [if_pos hc] at hx hy
    exact .of_outside hno hc hg hx hy
  · rw [if_neg hc] at hx hy
    exact .of_inside hno (fun _ _ hout => hc hout.2.2) hx hy

end Outcome

variable {h : Heap}

/-- A change that is supplied with one value is settled by the search below the node of this
value and by what comes after it. -/
theorem WellFormed.outcome_of_value {α : Type} (hw : h.WellFormed) {s : Storage}
    (hs : h.Allocated s) {v : Insertable} (hv : h.KnowsValue v) {reason : String}
    {outside : Nat → Nat → Prop} {x : Except DataError Heap} {f : Node → InPlace.Action α}
    (hrest : ¬ h.AnyReaches v.references s → h.Outcome s v.references outside x
      ((f (h.nodeOf v).2).run (h.nodeOf v).1)) :
    h.Outcome s v.references outside
      (if (h.nodeOf v).1.reaches (h.nodeOf v).2 s then .error (.contract reason) else x)
      ((InPlace.nodeFor (.contract reason) s v >>= f).run h) := by
  have hsearch := hw.search_nodeOf_iff hv hs
  by_cases hreach : h.AnyReaches v.references s
  · exact .of_reaches hreach (hw.nodeOf v hv).grows (if_pos (hsearch.mpr hreach))
      (InPlace.run_bind_error (InPlace.nodeFor_run_of_reaches hw hv hs hreach))
  · rw [if_neg (mt hsearch.mp hreach),
      InPlace.run_bind_ok (InPlace.nodeFor_run_of_not_reaches hw hv hs hreach)]
    exact hrest hreach

theorem WellFormed.put_outcome (hw : h.WellFormed) {o : ObjectRef}
    (ho : h.Allocated (.object o)) (key : String) {v : Insertable} (hv : h.KnowsValue v) :
    h.Outcome (.object o) v.references (fun _ _ => False) (h.put o key v)
      ((InPlace.put o key v).run h) :=
  hw.outcome_of_value ho hv fun hno => .of_inside hno (fun _ _ => not_false) rfl rfl

theorem WellFormed.add_outcome (hw : h.WellFormed) {a : ArrayRef}
    (har : h.Allocated (.array a)) {v : Insertable} (hv : h.KnowsValue v) :
    h.Outcome (.array a) v.references (fun _ _ => False) (h.add a v)
      ((InPlace.add a v).run h) :=
  hw.outcome_of_value har hv fun hno => .of_inside hno (fun _ _ => not_false) rfl rfl

theorem WellFormed.addAll_outcome (hw : h.WellFormed) {a : ArrayRef}
    (har : h.Allocated (.array a)) {vs : List Insertable} (hv : h.KnowsValues vs) :
    h.Outcome (.array a) (Insertable.referencesOfAll vs) (fun _ _ => False) (h.addAll a vs)
      ((InPlace.addAll a vs).run h) := by
  have hsearch := hw.search_nodesOf_iff hv har
  by_cases hreach : h.AnyReaches (Insertable.referencesOfAll vs) (.array a)
  · obtain ⟨h₁, herror, hgrows⟩ := InPlace.mapM_nodeFor_run_of_reaches hw hv har hreach
    exact .of_reaches hreach hgrows (if_pos (hsearch.mpr hreach)) (InPlace.run_bind_error herror)
  · exact .of_inside hreach (fun _ _ => not_false) (if_neg (mt hsearch.mp hreach))
      (InPlace.run_bind_ok (InPlace.mapM_nodeFor_run_of_not_reaches hw hv har hreach))

/-- The items of an array, this one or another, are a batch like any other. -/
theorem WellFormed.addAllOf_outcome (hw : h.WellFormed) {a : ArrayRef}
    (har : h.Allocated (.array a)) (other : ArrayRef) :
    h.Outcome (.array a) (h.items other) (fun _ _ => False) (h.addAllOf a other)
      ((InPlace.addAllOf a other).run h) := by
  have hknows := knowsValues_nodes.mpr (hw.closed (.array other))
  have houtcome := hw.addAll_outcome har hknows
  rw [referencesOfAll_nodes] at houtcome
  exact houtcome

theorem WellFormed.insertAt_outcome (hw : h.WellFormed) {a : ArrayRef}
    (har : h.Allocated (.array a)) (index : Nat) {v : Insertable} (hv : h.KnowsValue v) :
    h.Outcome (.array a) v.references
      (fun i n => i = index ∧ n = (h.items a).length ∧ (h.items a).length < index)
      (h.insertAt a index v) ((InPlace.insertAt a index v).run h) := by
  have ha := hw.nodeOf v hv
  have hitems : (h.nodeOf v).1.items a = h.items a := ha.grows.agree _ har
  refine hw.outcome_of_value har hv fun hno => ?_
  rw [← hitems]
  refine .of_bounded (a := ()) hno ha.grows rfl ?_
  rw [InPlace.run_bind_get]
  dsimp only
  split <;> rfl

theorem WellFormed.setAt_outcome (hw : h.WellFormed) {a : ArrayRef}
    (har : h.Allocated (.array a)) (index : Nat) {v : Insertable} (hv : h.KnowsValue v) :
    h.Outcome (.array a) v.references
      (fun i n => i = index ∧ n = (h.items a).length ∧ (h.items a).length ≤ index)
      (h.setAt a index v) ((InPlace.setAt a index v).run h) := by
  have ha := hw.nodeOf v hv
  have hitems : (h.nodeOf v).1.items a = h.items a := ha.grows.agree _ har
  refine hw.outcome_of_value har hv fun hno => ?_
  simp only [← hitems, ← Nat.not_lt]
  refine .of_bounded (a := ()) hno ha.grows (ite_not ..).symm ?_
  rw [InPlace.run_bind_get, ite_not]
  split <;> rfl

theorem removeAt_outcome (h : Heap) (a : ArrayRef) (index : Nat) :
    h.Outcome (.array a) []
      (fun i n => i = index ∧ n = (h.items a).length ∧ (h.items a).length ≤ index)
      ((h.removeAt a index).map Prod.fst) ((InPlace.removeAt a index).run h) := by
  have hrun := InPlace.removeAt_run h a index
  unfold Heap.removeAt
  dsimp only
  cases hitem : (h.items a)[index]? with
  | none =>
      rw [hitem] at hrun
      exact .of_outside anyReaches_nil (List.getElem?_eq_none_iff.mp hitem) (.refl h) rfl hrun
  | some n =>
      rw [hitem] at hrun
      obtain ⟨hlt, -⟩ := List.getElem?_eq_some_iff.mp hitem
      refine .of_inside anyReaches_nil ?_ rfl hrun
      exact fun _ _ hout => absurd hlt (Nat.not_lt.mpr hout.2.2)

theorem length_nodesOf (h : Heap) (vs : List Insertable) :
    (h.nodesOf vs).2.length = vs.length := by
  induction vs generalizing h with
  | nil => rfl
  | cons v rest ih => exact congrArg (· + 1) (ih _)

/-- An accepted batch is appended as a whole. -/
theorem WellFormed.items_of_addAll {h' : Heap} (hw : h.WellFormed) {a : ArrayRef}
    (har : h.Allocated (.array a)) {vs : List Insertable} (hv : h.KnowsValues vs)
    (hp : h.addAll a vs = .ok h') :
    ∃ nodes, nodes.length = vs.length ∧ h'.items a = h.items a ++ nodes := by
  have ha := hw.nodesOf vs hv
  have hitems : (h.nodesOf vs).1.items a = h.items a := ha.grows.agree _ har
  obtain ⟨-, rfl⟩ := addAll_eq_ok hp
  refine ⟨(h.nodesOf vs).2, length_nodesOf h vs, ?_⟩
  rw [items_setItems_self (ha.grows.allocated _ har), hitems]

/-- A change is refused if and only if the container that is changed could be reached from
what it is supplied with, its index is checked after that, and a change that fails leaves
every container as it was. -/
theorem Reachable.change_outcome {h : Heap} (hr : h.Reachable) :
    (∀ o key v, h.Allocated (.object o) → h.KnowsValue v →
      h.Outcome (.object o) v.references (fun _ _ => False)
        (h.put o key v) ((InPlace.put o key v).run h)) ∧
    ∀ a, h.Allocated (.array a) →
      (∀ v, h.KnowsValue v → h.Outcome (.array a) v.references (fun _ _ => False)
        (h.add a v) ((InPlace.add a v).run h)) ∧
      (∀ vs, h.KnowsValues vs →
        h.Outcome (.array a) (Insertable.referencesOfAll vs) (fun _ _ => False)
          (h.addAll a vs) ((InPlace.addAll a vs).run h) ∧
        ∀ h', h.addAll a vs = .ok h' →
          ∃ nodes, nodes.length = vs.length ∧ h'.items a = h.items a ++ nodes) ∧
      (∀ other, h.Allocated (.array other) →
        h.Outcome (.array a) (h.items other) (fun _ _ => False)
          (h.addAllOf a other) ((InPlace.addAllOf a other).run h)) ∧
      (∀ index v, h.KnowsValue v → h.Outcome (.array a) v.references
        (fun i n => i = index ∧ n = (h.items a).length ∧ (h.items a).length < index)
        (h.insertAt a index v) ((InPlace.insertAt a index v).run h)) ∧
      (∀ index v, h.KnowsValue v → h.Outcome (.array a) v.references
        (fun i n => i = index ∧ n = (h.items a).length ∧ (h.items a).length ≤ index)
        (h.setAt a index v) ((InPlace.setAt a index v).run h)) ∧
      ∀ index, h.Outcome (.array a) []
        (fun i n => i = index ∧ n = (h.items a).length ∧ (h.items a).length ≤ index)
        ((h.removeAt a index).map Prod.fst) ((InPlace.removeAt a index).run h) := by
  have hw := hr.wellFormed
  refine ⟨fun o key v ho hv => hw.put_outcome ho key hv, fun a har => ⟨?_, ?_, ?_, ?_, ?_, ?_⟩⟩
  · exact fun v hv => hw.add_outcome har hv
  · exact fun vs hv => ⟨hw.addAll_outcome har hv, fun h' => hw.items_of_addAll har hv⟩
  · exact fun other _ => hw.addAllOf_outcome har other
  · exact fun index v hv => hw.insertAt_outcome har index hv
  · exact fun index v hv => hw.setAt_outcome har index hv
  · exact fun index => removeAt_outcome h a index

/-- An object that has an array, and a batch for the array with the object in it, behind a
value that would have been accepted. The object alone is accepted by another array. -/
theorem outcome_of_batch :
    let h := ((empty.after (.newArray [])).after (.newObject [("items", .array ⟨0⟩)])).after
      (.newArray [])
    let batch : List Insertable :=
      [.bool true, .list [.none, .some (.capability (.object ⟨0⟩))]]
    h.AnyReaches (Insertable.referencesOfAll batch) (.array ⟨0⟩) ∧
      h.addAll ⟨0⟩ batch = .error .arrayCycle ∧
      (∃ h', (InPlace.addAll ⟨0⟩ batch).run h = .error .arrayCycle h' ∧ h.Grows h') ∧
      ¬ h.AnyReaches (Insertable.referencesOfAll batch) (.array ⟨1⟩) ∧
      ∃ h', h.addAll ⟨1⟩ batch = .ok h' ∧ h'.items ⟨1⟩ = [.bool true, .array ⟨2⟩] := by
  intro h batch
  have hr : h.Reachable := .after (.after (.after .empty (by decide)) (by decide)) (by decide)
  have hv : h.KnowsValues batch := by decide
  obtain ⟨-, hadd, -⟩ := (Reachable.change_outcome hr).2 ⟨0⟩ (by decide)
  obtain ⟨-, hother, -⟩ := (Reachable.change_outcome hr).2 ⟨1⟩ (by decide)
  have herror : h.addAll ⟨0⟩ batch = .error .arrayCycle := by rfl
  have hok : ∃ h', h.addAll ⟨1⟩ batch = .ok h' ∧ h'.items ⟨1⟩ = [.bool true, .array ⟨2⟩] :=
    ⟨_, by rfl, by rfl⟩
  refine ⟨(hadd batch hv).1.contract.mp ⟨_, herror⟩, herror,
    (hadd batch hv).1.unchanged _ herror, ?_, hok⟩
  exact ((hother batch hv).1.accepted.mp (hok.imp fun _ hh => hh.1)).1

end Heap
end DynamicData
