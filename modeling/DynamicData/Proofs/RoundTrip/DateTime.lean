import DynamicData.Proofs.Heap.Admission
import DynamicData.Proofs.Heap.Integer
import DynamicData.Proofs.Path.Visibility
import DynamicData.Proofs.Time.Exact
import DynamicData.Proofs.Time.Written

/-!
# Date-times that have been stored and read back

A container stores the text of a date-time, and the text is read as the same point in time
with the same offset. A leap second at the end of a minute comes back as such; elsewhere the
second after it comes back, which is the same number of nanoseconds away.
-/

namespace DynamicData

namespace OffsetDateTime

/-- The nanoseconds since 1970-01-01T00:00Z. -/
def instant (t : OffsetDateTime) : Int :=
  t.seconds * second + t.nanos

/-- What the text of a date-time is read as. -/
def asRead (t : OffsetDateTime) : OffsetDateTime :=
  ofWallClock t.wallClock.carried t.offset

theorem Writable.read?_text {t : OffsetDateTime} (ht : t.Writable) : read? t.text = some t.asRead :=
  read?_complete ht.form_text

theorem ofWallClock_wallClock (t : OffsetDateTime) : ofWallClock t.wallClock t.offset = t :=
  eq_of_wallClock (wallClock_ofWallClock t.wallClock_valid _) rfl

/-- A second is carried for a thousand million nanoseconds. -/
theorem instant_asRead (t : OffsetDateTime) : t.asRead.instant = t.instant := by
  unfold asRead WallClock.carried
  split
  · next hleap =>
      have hseconds := t.seconds_wallClock
      have hnanos : t.wallClock.nanos = t.nanos := rfl
      unfold WallClock.seconds at hseconds
      simp only [ofWallClock, instant, WallClock.seconds, hnanos]
      rw [hnanos] at hleap
      unfold second at hleap ⊢
      omega
  · rw [ofWallClock_wallClock]

/-- Without a leap second, and with one at the end of a minute, nothing is carried. -/
theorem asRead_eq {t : OffsetDateTime} (ht : t.nanos < second ∨ t.wallClock.second = 59) :
    t.asRead = t := by
  have hnanos : t.wallClock.nanos = t.nanos := rfl
  unfold asRead WallClock.carried
  rw [if_neg (by omega), ofWallClock_wallClock]

end OffsetDateTime

namespace Heap

variable {h : Heap} {v : Insertable} {n : Node}

/-! ## Storing a scalar -/

theorem reaches_scalar (hn : n.storage? = none) (s : Storage) : h.reaches n s = false := by
  cases n <;> cases hn <;> simp [reaches, Tree.holds]

theorem exists_put {o : ObjectRef} (ho : h.Allocated (.object o)) (key : String)
    (hv : h.nodeOf v = (h, n)) (hn : n.storage? = none) :
    ∃ h', h.put o key v = .ok h' ∧ h'.lookup (.key o key) = some n := by
  unfold put
  rw [hv]
  dsimp only
  rw [reaches_scalar hn, if_neg Bool.false_ne_true]
  exact ⟨_, rfl, lookup_setEntries_insert ho _ _ _⟩

theorem exists_add {a : ArrayRef} (ha : h.Allocated (.array a)) (hv : h.nodeOf v = (h, n))
    (hn : n.storage? = none) :
    ∃ h', h.add a v = .ok h' ∧ h'.lookup (.index a (h.items a).length) = some n := by
  unfold add
  rw [hv]
  dsimp only
  rw [reaches_scalar hn, if_neg Bool.false_ne_true]
  refine ⟨_, rfl, ?_⟩
  rw [lookup, items_setItems_self ha, List.getElem?_concat_length]

theorem exists_insertAt {a : ArrayRef} (ha : h.Allocated (.array a)) {i : Nat}
    (hi : i ≤ (h.items a).length) (hv : h.nodeOf v = (h, n)) (hn : n.storage? = none) :
    ∃ h', h.insertAt a i v = .ok h' ∧ h'.lookup (.index a i) = some n := by
  unfold insertAt
  rw [hv]
  dsimp only
  rw [reaches_scalar hn, if_neg Bool.false_ne_true, if_neg (Nat.not_lt.mpr hi)]
  refine ⟨_, rfl, ?_⟩
  rw [lookup, items_setItems_self ha, List.getElem?_insertIdx_self, if_pos hi]

theorem exists_setAt {a : ArrayRef} (ha : h.Allocated (.array a)) {i : Nat}
    (hi : i < (h.items a).length) (hv : h.nodeOf v = (h, n)) (hn : n.storage? = none) :
    ∃ h', h.setAt a i v = .ok h' ∧ h'.lookup (.index a i) = some n := by
  unfold setAt
  rw [hv]
  dsimp only
  rw [reaches_scalar hn, if_neg Bool.false_ne_true, if_pos hi]
  exact ⟨_, rfl, lookup_setItems_set ha hi _⟩

/-! ## Date-times in containers -/

/-- A place holds the text of `t`, and is read as `u`. -/
structure ReadsBack (h : Heap) (p : Place) (t u : OffsetDateTime) : Prop where
  stored : h.lookup p = some (.text t.text)
  read : h.Reads .offsetDateTime p (.ok u)

theorem readsBack_of_lookup {p : Place} {t : OffsetDateTime} (ht : t.Writable)
    (hp : h.lookup p = some (.text t.text)) : h.ReadsBack p t t.asRead := by
  have hcoerce : h.coerce .offsetDateTime p.location (.text t.text) = .ok t.asRead :=
    (coerce_offsetDateTime_eq_ok_iff ..).mpr ht.read?_text
  refine ⟨hp, ?_⟩
  rw [← hcoerce]
  exact reads_of_lookup hp rfl _

/-- A date-time with an offset in minutes and a local year of four digits is read back from
wherever it has been stored, as the same point in time with the same offset. -/
theorem dateTime_read_back {t : OffsetDateTime} (ht : t.Writable) :
    ∃ u : OffsetDateTime, u.instant = t.instant ∧ u.offset = t.offset ∧
      (t.nanos < OffsetDateTime.second ∨ t.wallClock.second = 59 → u = t) ∧
      ∀ h : Heap,
        (∀ o key, h.Allocated (.object o) →
          ∃ h', h.put o key (.dateTime t) = .ok h' ∧ h'.ReadsBack (.key o key) t u) ∧
        ∀ a, h.Allocated (.array a) →
          (∃ h', h.add a (.dateTime t) = .ok h' ∧
            h'.ReadsBack (.index a (h.items a).length) t u) ∧
          (∀ i, i ≤ (h.items a).length →
            ∃ h', h.insertAt a i (.dateTime t) = .ok h' ∧ h'.ReadsBack (.index a i) t u) ∧
          ∀ i, i < (h.items a).length →
            ∃ h', h.setAt a i (.dateTime t) = .ok h' ∧ h'.ReadsBack (.index a i) t u := by
  refine ⟨t.asRead, t.instant_asRead, rfl, OffsetDateTime.asRead_eq, fun h => ?_⟩
  have hv : h.nodeOf (.dateTime t) = (h, .text t.text) := rfl
  -- each operation stores the text at its place
  have hread : ∀ {p : Place} {x : Except DataError Heap},
      (∃ h', x = .ok h' ∧ h'.lookup p = some (.text t.text)) →
        ∃ h', x = .ok h' ∧ h'.ReadsBack p t t.asRead :=
    fun ⟨h', hx, hp⟩ => ⟨h', hx, readsBack_of_lookup ht hp⟩
  refine ⟨fun o key ho => hread (exists_put ho key hv rfl), fun a ha => ⟨?_, ?_, ?_⟩⟩
  · exact hread (exists_add ha hv rfl)
  · exact fun i hi => hread (exists_insertAt ha hi hv rfl)
  · exact fun i hi => hread (exists_setAt ha hi hv rfl)

/-- Half a leap second, at an offset to the west, in front of the items of an array. -/
theorem dateTime_read_back_leap :
    let h := empty.after (.newArray [.none])
    let t : OffsetDateTime := ⟨1483228799, 1500000000, -19800⟩
    t.text = "2016-12-31T18:29:60.500-05:30" ∧
      ∃ h', h.insertAt ⟨0⟩ 0 (.dateTime t) = .ok h' ∧
        h'.get .offsetDateTime (.index ⟨0⟩ 0) = .ok t := by
  intro h t
  have ht : t.Writable := ⟨by decide, by decide, by decide, by decide⟩
  obtain ⟨u, -, -, hu, hstored⟩ := dateTime_read_back ht
  obtain rfl := hu (.inr (by decide))
  obtain ⟨h', hinsert, hback⟩ := ((hstored h).2 ⟨0⟩ Nat.zero_lt_one).2.1 0 (Nat.zero_le _)
  exact ⟨by decide, h', hinsert, hback.read.required⟩

end Heap
end DynamicData
