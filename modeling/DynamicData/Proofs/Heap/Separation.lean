import DynamicData.Proofs.Heap.Territory

/-!
# Copies stay apart

After a copy a program has handles of two sides: to what was there before, and to the copy.
A side gains handles by reading them out of containers that it has handles to, and by taking
new storage. As long as it stores only what it has handles to itself, what the two sides can
get at stays apart, in whichever order they take their steps: what one side can get at, with
the storage that is still unused, is a territory, and the step of a side is confined to its
territory. So no step of one side changes the tree of a node of the other.
-/

namespace DynamicData

open Relation

/-- The two sides of a program that has made a copy. -/
inductive Side
  | older
  | copy
  deriving DecidableEq

def Side.other : Side → Side
  | .older => .copy
  | .copy => .older

theorem Side.other_ne (side : Side) : side.other ≠ side := by
  cases side <;> decide

theorem Side.eq_or_eq_other (side i : Side) : i = side ∨ i = side.other := by
  cases side <;> cases i <;> decide

/-- A heap, and the storage that each side has handles to. -/
structure World where
  heap : Heap
  held : Side → Storage → Prop

namespace World

variable {w w' : World} {side : Side} {s : Storage}

/-- What a side can get at. -/
def Reaches (w : World) (side : Side) (s : Storage) : Prop :=
  ∃ t, w.held side t ∧ ReflTransGen w.heap.Contains t s

/-- The world with another heap, in which a side has gained handles. -/
def gain (w : World) (side : Side) (h : Heap) (gained : Storage → Prop) : World where
  heap := h
  held i s := w.held i s ∨ i = side ∧ gained s

/-- What a side can do. -/
inductive Step (side : Side) : World → World → Prop
  /-- a handle is read out of a container -/
  | read {w : World} {s t : Storage} (hs : w.held side s) (hst : w.heap.Contains s t) :
    Step side w (w.gain side w.heap (· = t))
  /-- an operation changes what the side has a handle to and stores nothing else; new storage
  is the side's -/
  | operate {w : World} {op : Operation} (hp : w.heap.Permits op)
    (htarget : ∀ s, op.target? = some s → w.held side s)
    (hsupplies : ∀ n ∈ w.heap.supplies op, n.Within (w.held side)) :
    Step side w (w.gain side (w.heap.after op) fun s =>
      ¬ w.heap.Allocated s ∧ (w.heap.after op).Allocated s)
  /-- a value that is only compared with items may be of either side -/
  | compare {w : World} {a : ArrayRef} {v : Insertable} (hp : w.heap.Permits (.removeValue a v))
    (htarget : w.held side (.array a)) :
    Step side w ⟨w.heap.after (.removeValue a v), w.held⟩

/-- Nothing can be got at from both sides. -/
structure Separate (w : World) : Prop where
  wellFormed : w.heap.WellFormed
  allocated : ∀ side s, w.held side s → w.heap.Allocated s
  apart : ∀ side s, w.Reaches side s → ¬ w.Reaches side.other s

/-- What a side can get at, now or after it has taken new storage. -/
def Domain (w : World) (side : Side) (s : Storage) : Prop :=
  w.Reaches side s ∨ ¬ w.heap.Allocated s

theorem Separate.allocated_of_reaches (hs : w.Separate) (h : w.Reaches side s) :
    w.heap.Allocated s := by
  obtain ⟨t, ht, hts⟩ := h
  exact hs.wellFormed.allocated_of_reflTransGen (hs.allocated side t ht) hts

theorem territory_domain (w : World) (side : Side) : w.heap.Territory (w.Domain side) where
  closed := by
    rintro s (⟨t, ht, hts⟩ | hs) n hn u hu
    · exact .inl ⟨t, ht, hts.tail ⟨n, hn, hu⟩⟩
    · rw [Heap.children_of_not_allocated hs] at hn
      exact absurd hn List.not_mem_nil
  unused := fun _ hs => .inr hs

theorem Separate.not_domain (hs : w.Separate) (h : w.Reaches side.other s) :
    ¬ w.Domain side s := by
  rintro (hown | hunused)
  · exact hs.apart side s hown h
  · exact hunused (hs.allocated_of_reaches h)

/-! ## What the other side has -/

/-- A side has the handles that it had, and what it can get at holds what it held. -/
structure Undisturbed (side : Side) (w w' : World) : Prop where
  held : ∀ s, w'.held side s ↔ w.held side s
  agree : ∀ s, w.Reaches side s → w.heap.Agree w'.heap s

theorem Undisturbed.reaches_iff (hu : Undisturbed side w w') :
    w'.Reaches side s ↔ w.Reaches side s := by
  refine exists_congr fun t => ?_
  rw [hu.held t]
  exact and_congr_right fun ht =>
    Heap.reflTransGen_congr fun u htu => hu.agree u ⟨t, ht, htu⟩

theorem Undisturbed.refl (side : Side) (w : World) : Undisturbed side w w :=
  ⟨fun _ => .rfl, fun s _ => .refl w.heap s⟩

theorem Undisturbed.trans {w₁ w₂ w₃ : World} (h₁₂ : Undisturbed side w₁ w₂)
    (h₂₃ : Undisturbed side w₂ w₃) : Undisturbed side w₁ w₃ where
  held := fun s => (h₂₃.held s).trans (h₁₂.held s)
  agree := fun s hs => (h₁₂.agree s hs).trans (h₂₃.agree s (h₁₂.reaches_iff.mpr hs))

/-- The trees of an undisturbed side are the trees that they were. -/
theorem Undisturbed.tree_eq (hu : Undisturbed side w w') (hs : w.Separate) (hs' : w'.Separate)
    {n : Node} (hn : n.Within (w.held side)) : w'.heap.tree n = w.heap.tree n := by
  refine hs.wellFormed.tree_congr hs'.wellFormed (fun s h => hs.allocated side s (hn s h)) ?_
  rintro s ⟨t, ht, hts⟩
  have hreach : w.Reaches side s := ⟨t, hn t ht, hts⟩
  exact ⟨hs'.allocated_of_reaches (hu.reaches_iff.mpr hreach), hu.agree s hreach⟩

/-! ## One step -/

/-- A change that is confined to the domain of a side leaves the sides apart, if only this
side gains handles, to storage of its domain. -/
theorem Separate.change (hs : w.Separate) (hw : w'.heap.WellFormed)
    (hc : w.heap.Confined (w.Domain side) w'.heap)
    (hother : ∀ s, w'.held side.other s ↔ w.held side.other s)
    (hown : ∀ s, w'.held side s → w.Domain side s ∧ w'.heap.Allocated s) :
    w'.Separate ∧ Undisturbed side.other w w' := by
  have hu : Undisturbed side.other w w' := ⟨hother, fun s h => hc.agree s (hs.not_domain h)⟩
  have hapart : ∀ s, w'.Reaches side s → ¬ w'.Reaches side.other s := by
    rintro s ⟨t, ht, hts⟩ h
    exact hs.not_domain (hu.reaches_iff.mp h)
      (hc.territory.reflTransGen (hown t ht).1 hts)
  refine ⟨⟨hw, fun i s hi => ?_, fun i s hi => ?_⟩, hu⟩
  · rcases Side.eq_or_eq_other side i with rfl | rfl
    · exact (hown s hi).2
    · exact hc.allocated s (hs.allocated _ s ((hother s).mp hi))
  · rcases Side.eq_or_eq_other side i with rfl | rfl
    · exact hapart s hi
    · cases side <;> exact fun h => hapart s h hi

/-- Storage that no side has a handle to may be added. -/
theorem Separate.grow (hs : w.Separate) (hg : w.heap.Grows w'.heap) (hw : w'.heap.WellFormed)
    (hheld : w'.held = w.held) : w'.Separate ∧ ∀ side, Undisturbed side w w' := by
  have hu : ∀ side, Undisturbed side w w' := fun side =>
    ⟨fun s => by rw [hheld], fun s h => hg.agree s (hs.allocated_of_reaches h)⟩
  refine ⟨⟨hw, fun i s hi => ?_, fun i s hi => ?_⟩, hu⟩
  · exact hg.allocated s (hs.allocated i s (hheld ▸ hi))
  · rw [(hu i).reaches_iff] at hi
    rw [(hu i.other).reaches_iff]
    exact hs.apart i s hi

theorem held_other_gain {h : Heap} {gained : Storage → Prop} :
    (w.gain side h gained).held side.other s ↔ w.held side.other s :=
  or_iff_left fun hi => side.other_ne hi.1

theorem Separate.step (hs : w.Separate) (hstep : Step side w w') :
    w'.Separate ∧ Undisturbed side.other w w' := by
  have ht := w.territory_domain side
  have hdomain : ∀ s, w.held side s → w.Domain side s := fun s h => .inl ⟨s, h, .refl⟩
  cases hstep with
  | read hheld hst =>
      refine hs.change hs.wellFormed ht.refl (fun _ => held_other_gain) fun u hu => ?_
      rcases hu with hu | ⟨-, rfl⟩
      · exact ⟨hdomain u hu, hs.allocated side u hu⟩
      · exact ⟨.inl ⟨_, hheld, .single hst⟩, hs.wellFormed.allocated_right hst⟩
  | operate hp htarget hsupplies =>
      have hc := ht.after hp (fun s h => hdomain s (htarget s h))
        fun n hn s h => hdomain s (hsupplies n hn s h)
      refine hs.change (hs.wellFormed.after hp) hc (fun _ => held_other_gain) fun u hu => ?_
      rcases hu with hu | ⟨-, hunused, hnew⟩
      · exact ⟨hdomain u hu, hc.allocated u (hs.allocated side u hu)⟩
      · exact ⟨.inr hunused, hnew⟩
  | @compare a v hp htarget =>
      -- the value takes storage first, to which neither side gets a handle
      have ha := hs.wellFormed.nodeOf v hp.2
      let w₁ : World := ⟨(w.heap.nodeOf v).1, w.held⟩
      let w₂ : World := ⟨w.heap.after (.removeValue a v), w.held⟩
      have hgrown : w₁.Separate ∧ ∀ side, Undisturbed side w w₁ :=
        hs.grow ha.grows ha.wellFormed rfl
      obtain ⟨hs₁, hu₁⟩ := hgrown
      have hc : w₁.heap.Confined (w₁.Domain side) w₂.heap :=
        (w₁.territory_domain side).refl.removeValue (ha.grows.allocated _ hp.1)
          (.inl ⟨_, htarget, .refl⟩)
      have hchanged : w₂.Separate ∧ Undisturbed side.other w₁ w₂ :=
        hs₁.change (hs.wellFormed.after hp) hc (fun _ => .rfl)
          fun u hu => ⟨.inl ⟨u, hu, .refl⟩, hc.allocated u (hs₁.allocated side u hu)⟩
      exact hchanged.imp_right (hu₁ side.other).trans

/-! ## Runs -/

/-- Steps of one side, as many as there are, leave the other side undisturbed. -/
theorem Separate.run (hs : w.Separate) (hrun : ReflTransGen (Step side) w w') :
    w'.Separate ∧ Undisturbed side.other w w' := by
  induction hrun with
  | refl => exact ⟨hs, .refl _ w⟩
  | tail _ hstep ih =>
      obtain ⟨hs₁, hu₁⟩ := ih
      obtain ⟨hs₂, hu₂⟩ := hs₁.step hstep
      exact ⟨hs₂, hu₁.trans hu₂⟩

/-- The sides stay apart in whichever order they take their steps. -/
theorem Separate.runs (hs : w.Separate)
    (hrun : ReflTransGen (fun w w' => ∃ side, Step side w w') w w') : w'.Separate := by
  induction hrun with
  | refl => exact hs
  | tail _ hstep ih =>
      obtain ⟨side, hstep⟩ := hstep
      exact (ih.step hstep).1

/-! ## After a copy -/

/-- The world in which a node has been copied. -/
def afterCopy (h : Heap) (n : Node) : World where
  heap := (h.deepCopy n).1
  held
    | .older, s => h.Allocated s
    | .copy, s => (h.deepCopy n).2.storage? = some s

theorem separate_afterCopy {h : Heap} (hw : h.WellFormed) {n : Node} (hn : h.Knows n) :
    (afterCopy h n).Separate := by
  have hb := hw.built_deepCopy hn
  have holder : ∀ s, (afterCopy h n).Reaches .older s → h.Allocated s := by
    rintro s ⟨t, ht, hts⟩
    have hst := Heap.reflTransGen_congr (t := s) fun u htu =>
      hb.grows.agree u (hw.allocated_of_reflTransGen ht htu)
    exact hw.allocated_of_reflTransGen ht (hst.mp hts)
  have hcopy : ∀ s, (afterCopy h n).Reaches .copy s → ¬ h.Allocated s := fun s hs =>
    (hw.standsAt_deepCopy hn hs).1
  refine ⟨hb.wellFormed, fun side s hs => ?_, fun side s hs => ?_⟩
  · cases side with
    | older => exact hb.grows.allocated s hs
    | copy => exact hb.knows s hs
  · cases side with
    | older => exact fun h => hcopy s h (holder s hs)
    | copy => exact fun h => hcopy s hs (holder s h)

end World

namespace Heap

/-- A copy has the content of what is copied, in new storage of which each piece is at one
position of the copy. Whatever is done from then on with handles of one side, in whichever
order the sides take turns, leaves the trees of the other side as they are. -/
theorem Reachable.deepCopy_detached {h : Heap} (hr : h.Reachable) {n : Node} (hn : h.Knows n) :
    ((h.deepCopy n).1.tree (h.deepCopy n).2).bare = (h.tree n).bare ∧
    (∀ s, (h.deepCopy n).1.Reaches (h.deepCopy n).2 s →
      ¬ h.Allocated s ∧ ∃! position, (h.deepCopy n).1.StandsAt (h.deepCopy n).2 position s) ∧
    (∀ w, ReflTransGen (World.Step .copy) (.afterCopy h n) w →
      ∀ m, h.Knows m → w.heap.tree m = h.tree m) ∧
    (∀ w, ReflTransGen (World.Step .older) (.afterCopy h n) w →
      w.heap.tree (h.deepCopy n).2 = (h.deepCopy n).1.tree (h.deepCopy n).2) ∧
    ∀ w, ReflTransGen (fun w w' => ∃ side, World.Step side w w') (.afterCopy h n) w →
      ∀ side w', ReflTransGen (World.Step side) w w' →
        ∀ m, m.Within (w.held side.other) → w'.heap.tree m = w.heap.tree m := by
  have hw := hr.wellFormed
  have hb := hw.built_deepCopy hn
  have hs := World.separate_afterCopy hw hn
  have hsides : ∀ {w}, w.Separate → ∀ {side w'}, ReflTransGen (World.Step side) w w' →
      ∀ m, m.Within (w.held side.other) → w'.heap.tree m = w.heap.tree m := by
    intro w hs side w' hrun m hm
    obtain ⟨hs', hu⟩ := hs.run hrun
    exact hu.tree_eq hs hs' hm
  refine ⟨hb.tree, fun s hs => hw.standsAt_deepCopy hn hs, ?_, ?_, ?_⟩
  · intro w hrun m hm
    exact (hsides hs hrun m hm).trans (hb.grows.tree_eq hw hb.wellFormed hm)
  · exact fun w hrun => hsides hs hrun _ fun s hs => hs
  · exact fun w hmixed side w' hrun m hm => hsides (hs.runs hmixed) hrun m hm

/-- An object that has one array under two keys, and a copy of it, in which the array under
the first key is read out and added to. -/
theorem deepCopy_of_shared_array :
    let h := (empty.after (.newArray [.unsigned 1])).after
      (.newObject [("a", .array ⟨0⟩), ("b", .array ⟨0⟩)])
    let h' := (h.deepCopy (.object ⟨0⟩)).1
    h'.entries ⟨1⟩ = [("a", .array ⟨1⟩), ("b", .array ⟨2⟩)] ∧
      (∃! position, h'.StandsAt (.object ⟨1⟩) position (.array ⟨2⟩)) ∧
      ∃ w, ReflTransGen (World.Step .copy) (.afterCopy h (.object ⟨0⟩)) w ∧
        w.heap.items ⟨1⟩ = [.int 1, .bool true] ∧ w.heap.items ⟨2⟩ = [.int 1] ∧
        w.heap.tree (.object ⟨0⟩) = h.tree (.object ⟨0⟩) := by
  intro h h'
  have hr : h.Reachable := .after (.after .empty (by decide)) (by decide)
  have hn : h.Knows (.object ⟨0⟩) := by decide
  have hentries : h'.entries ⟨1⟩ = [("a", .array ⟨1⟩), ("b", .array ⟨2⟩)] := by rfl
  have hchildren : h'.children (.object ⟨1⟩) = [.array ⟨1⟩, .array ⟨2⟩] := by rfl
  have hcontains : ∀ r : ArrayRef, .array r ∈ h'.children (.object ⟨1⟩) →
      h'.Contains (.object ⟨1⟩) (.array r) := fun r hr => ⟨.array r, hr, rfl⟩
  rw [hchildren] at hcontains
  let op : Operation := .add ⟨1⟩ (.bool true)
  let start : World := .afterCopy h (.object ⟨0⟩)
  let opened : World := start.gain .copy h' (· = .array ⟨1⟩)
  have hread : World.Step .copy start opened :=
    .read (s := .object ⟨1⟩) rfl (hcontains ⟨1⟩ (by decide))
  have hadd : World.Step .copy opened (opened.gain .copy (h'.after op) fun s =>
      ¬ h'.Allocated s ∧ (h'.after op).Allocated s) := by
    refine .operate (by decide) ?_ fun n hn => absurd hn List.not_mem_nil
    rintro s ⟨⟩
    exact .inr ⟨rfl, rfl⟩
  have hrun : ReflTransGen (World.Step .copy) start _ := .tail (.single hread) hadd
  obtain ⟨-, hfresh, hcopy, -, -⟩ := Reachable.deepCopy_detached hr hn
  refine ⟨hentries, ?_, _, hrun, by rfl, by rfl, hcopy _ hrun _ hn⟩
  exact (hfresh (.array ⟨2⟩) ⟨.object ⟨1⟩, rfl, .single (hcontains ⟨2⟩ (by decide))⟩).2

end Heap
end DynamicData
