import DynamicData.Proofs.Heap.Refusal
import DynamicData.Proofs.Heap.Territory

/-!
# What a history makes of one container

An operation adds storage and writes to no container but its target, and to that one only if
it is accepted. So a container is what the accepted operations on it have made of it, one
after the other, whichever reference they came through and whatever else happened in
between. `effects` lists them for a history, and `Simulates.afterAll` is the induction along
it.
-/

namespace DynamicData.Heap

variable {h h₁ h' : Heap}

/-! ## One operation -/

/-- `h'` is `h` with storage added, and changed in no container but `target?`. -/
structure ChangesOnly (h : Heap) (target? : Option Storage) (h' : Heap) : Prop where
  allocated : ∀ s, h.Allocated s → h'.Allocated s
  agree : ∀ s, h.Allocated s → target? ≠ some s → h.Agree h' s

theorem Grows.changesOnly (hg : h.Grows h') (target? : Option Storage) :
    h.ChangesOnly target? h' :=
  ⟨hg.allocated, fun s hs _ => hg.agree s hs⟩

theorem Grows.setItems (hg : h.Grows h₁) {a : ArrayRef} (ha : h.Allocated (.array a))
    (items : List Node) : h.ChangesOnly (some (.array a)) (h₁.setItems a items) := by
  have hwr := writes_setItems (hg.allocated _ ha) items
  refine ⟨fun s hs => (hwr.allocated s).mpr (.inl (hg.allocated s hs)), fun s hs hne => ?_⟩
  exact hg.agree_of_writes hwr hs fun heq => hne (congrArg some heq.symm)

theorem Grows.setEntries (hg : h.Grows h₁) {o : ObjectRef} (ho : h.Allocated (.object o))
    (entries : Entries Node) : h.ChangesOnly (some (.object o)) (h₁.setEntries o entries) := by
  have hwr := writes_setEntries (hg.allocated _ ho) entries
  refine ⟨fun s hs => (hwr.allocated s).mpr (.inl (hg.allocated s hs)), fun s hs hne => ?_⟩
  exact hg.agree_of_writes hwr hs fun heq => hne (congrArg some heq.symm)

theorem WellFormed.changesOnly_run (hw : h.WellFormed) {op : Operation} (hp : h.Permits op)
    (hr : h.run op = some h') : h.ChangesOnly op.target? h' := by
  have hknows := hw.knows_supplies hp
  cases performs_of_run hr with
  | object keys supplied => exact (Grows.newObject h _).changesOnly _
  | document read => exact (hw.build read.keysDistinct).grows.changesOnly _
  | copy n => exact (hw.built_deepCopy hp).grows.changesOnly _
  | values supplied =>
      exact (hw.nodesOf _ fun n hn => hknows n (supplied hn)).grows.changesOnly _
  | items target supplied stored =>
      have hg := (hw.nodesOf _ fun n hn => hknows n (supplied hn)).grows
      rw [target]
      exact hg.setItems (hp.allocated_target target) _
  | entries target supplied keys stored =>
      have hg := (hw.nodesOf _ fun n hn => hknows n (supplied hn)).grows
      rw [target]
      exact hg.setEntries (hp.allocated_target target) _

theorem WellFormed.changesOnly_after (hw : h.WellFormed) {op : Operation} (hp : h.Permits op) :
    h.ChangesOnly op.target? (h.after op) := by
  unfold Heap.after
  cases hr : h.run op with
  | none => exact (Grows.refl h).changesOnly _
  | some h' => exact hw.changesOnly_run hp hr

/-- A change to a container is accepted if the container is not reachable from what it is
supplied with and the index it names, if any, is in range. -/
def Accepts (h : Heap) : Operation → Prop
  | .put o _ v => ¬ h.AnyReaches v.references (.object o)
  | .add a v => ¬ h.AnyReaches v.references (.array a)
  | .addAll a vs => ¬ h.AnyReaches (Insertable.referencesOfAll vs) (.array a)
  | .addAllOf a other => ¬ h.AnyReaches (h.items other) (.array a)
  | .insertAt a index v =>
    ¬ h.AnyReaches v.references (.array a) ∧ index ≤ (h.items a).length
  | .setAt a index v => ¬ h.AnyReaches v.references (.array a) ∧ index < (h.items a).length
  | .removeAt a index => index < (h.items a).length
  | _ => True

theorem isSome_toOption_iff {ε α : Type} {x : Except ε α} :
    x.toOption.isSome = true ↔ ∃ a, x = .ok a := by
  cases x <;> simp [Except.toOption]

section
variable {α : Type} {s : Storage} {supplied : List Node} {x : Except DataError Heap}
  {y : EStateM.Result DataError Heap α}

theorem Outcome.isSome_iff (ho : h.Outcome s supplied (fun _ _ => False) x y) :
    x.toOption.isSome = true ↔ ¬ h.AnyReaches supplied s := by
  rw [isSome_toOption_iff, ho.accepted]
  exact and_iff_left fun _ _ => not_false

theorem Outcome.isSome_bounded_iff {index length : Nat} {c : Prop}
    (ho : h.Outcome s supplied (fun i n => i = index ∧ n = length ∧ c) x y) :
    x.toOption.isSome = true ↔ ¬ h.AnyReaches supplied s ∧ ¬ c := by
  rw [isSome_toOption_iff, ho.accepted]
  refine and_congr_right fun _ => ⟨fun hno hc => hno index length ⟨rfl, rfl, hc⟩, ?_⟩
  exact fun hc i n hout => hc hout.2.2

end

/-- A change that is accepted is carried out and all others are refused. -/
theorem WellFormed.isSome_run_iff (hw : h.WellFormed) {op : Operation} (hp : h.Permits op)
    {s : Storage} (ht : op.target? = some s) : (h.run op).isSome = true ↔ h.Accepts op := by
  cases op with
  | put o key v => exact (hw.put_outcome hp.1 key hp.2).isSome_iff
  | add a v => exact (hw.add_outcome hp.1 hp.2).isSome_iff
  | addAll a vs => exact (hw.addAll_outcome hp.1 hp.2).isSome_iff
  | addAllOf a other => exact (hw.addAllOf_outcome hp.1 other).isSome_iff
  | insertAt a index v =>
      rw [Accepts, ← Nat.not_lt]
      exact (hw.insertAt_outcome hp.1 index hp.2).isSome_bounded_iff
  | setAt a index v =>
      rw [Accepts, ← Nat.not_le]
      exact (hw.setAt_outcome hp.1 index hp.2).isSome_bounded_iff
  | removeAt a index =>
      have hmap : h.run (.removeAt a index) = ((h.removeAt a index).map Prod.fst).toOption := by
        rw [Heap.run]
        cases h.removeAt a index <;> rfl
      rw [hmap, (removeAt_outcome h a index).isSome_bounded_iff, Accepts, Nat.not_le]
      exact and_iff_right anyReaches_nil
  | putNull o key => exact iff_of_true rfl trivial
  | removeKey o key => exact iff_of_true rfl trivial
  | rename o old new => exact iff_of_true rfl trivial
  | removeValue a v => exact iff_of_true rfl trivial
  | _ => cases ht

/-! ## Histories -/

/-- The heap after several operations, each refused or carried out. -/
def afterAll (h : Heap) (ops : List Operation) : Heap :=
  ops.foldl after h

/-- Each operation is given references to storage that has been made by then. -/
def PermitsAll : Heap → List Operation → Prop
  | _, [] => True
  | h, op :: rest => h.Permits op ∧ (h.after op).PermitsAll rest

instance : (h : Heap) → (ops : List Operation) → Decidable (h.PermitsAll ops)
  | _, [] => isTrue trivial
  | h, op :: rest =>
    have := instDecidablePermitsAll (h.after op) rest
    inferInstanceAs (Decidable (h.Permits op ∧ (h.after op).PermitsAll rest))

theorem Reachable.afterAll (hr : h.Reachable) {ops : List Operation} (hp : h.PermitsAll ops) :
    (h.afterAll ops).Reachable := by
  induction ops generalizing h with
  | nil => exact hr
  | cons op rest ih => exact ih (hr.after hp.1) hp.2

theorem WellFormed.allocated_afterAll (hw : h.WellFormed) {ops : List Operation}
    (hp : h.PermitsAll ops) {s : Storage} (hs : h.Allocated s) :
    (h.afterAll ops).Allocated s := by
  induction ops generalizing h with
  | nil => exact hs
  | cons op rest ih =>
      exact ih (hw.after hp.1) hp.2 ((hw.changesOnly_after hp.1).allocated s hs)

section
variable {γ : Type}

/-- The effect that an operation has on the container `s`, if it is a change of it that is
accepted. -/
def effect? (change? : Heap → Operation → Option γ) (s : Storage) (h : Heap)
    (op : Operation) : Option γ :=
  if op.target? = some s ∧ (h.run op).isSome = true then change? h op else none

/-- The effects on the container `s` of all operations of a history, in order. -/
def effects (change? : Heap → Operation → Option γ) (s : Storage) :
    Heap → List Operation → List γ
  | _, [] => []
  | h, op :: rest =>
    match effect? change? s h op with
    | some c => c :: effects change? s (h.after op) rest
    | none => effects change? s (h.after op) rest

variable {α : Type} {view : Heap → α} {apply : α → γ → α}
  {change? : Heap → Operation → Option γ} {s : Storage}

/-- An accepted operation on `s` has its effect on the view, and what leaves `s` as it was
leaves the view as it was. -/
structure Simulates (view : Heap → α) (apply : α → γ → α)
    (change? : Heap → Operation → Option γ) (s : Storage) : Prop where
  change : ∀ {h h' : Heap} {op : Operation}, h.WellFormed → h.Permits op →
    op.target? = some s → h.run op = some h' →
      ∃ c, change? h op = some c ∧ view h' = apply (view h) c
  frame : ∀ {h h' : Heap}, h.Agree h' s → view h' = view h

theorem Simulates.after (hsim : Simulates view apply change? s) (hw : h.WellFormed)
    (hs : h.Allocated s) {op : Operation} (hp : h.Permits op) :
    view (h.after op) = match effect? change? s h op with
      | some c => apply (view h) c
      | none => view h := by
  unfold effect?
  cases hrun : h.run op with
  | none =>
      rw [if_neg (by simp)]
      exact congrArg view (by rw [Heap.after, hrun]; rfl)
  | some h' =>
      have hafter : h.after op = h' := by rw [Heap.after, hrun]; rfl
      rw [hafter]
      by_cases ht : op.target? = some s
      · obtain ⟨c, hc, hview⟩ := hsim.change hw hp ht hrun
        rw [if_pos ⟨ht, rfl⟩, hc]
        exact hview
      · rw [if_neg fun hboth => ht hboth.1]
        exact hsim.frame ((hw.changesOnly_run hp hrun).agree s hs ht)

/-- After any history the view is what the effects on the container have made of it. The
induction is along the history, with the heap that each operation leaves to the next. -/
theorem Simulates.afterAll (hsim : Simulates view apply change? s) (hw : h.WellFormed)
    (hs : h.Allocated s) {ops : List Operation} (hp : h.PermitsAll ops) :
    view (h.afterAll ops) = (effects change? s h ops).foldl apply (view h) := by
  induction ops generalizing h with
  | nil => rfl
  | cons op rest ih =>
      have hstep := hsim.after hw hs hp.1
      have hrest := ih (hw.after hp.1) ((hw.changesOnly_after hp.1).allocated s hs) hp.2
      rw [effects]
      cases he : effect? change? s h op with
      | none =>
          rw [he] at hstep
          exact hrest.trans (by rw [hstep])
      | some c =>
          rw [he] at hstep
          exact hrest.trans (by rw [hstep, List.foldl_cons])

end

end DynamicData.Heap
