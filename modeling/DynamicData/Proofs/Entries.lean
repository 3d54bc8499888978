import DynamicData.Entries
import Mathlib.Data.List.Nodup
import Mathlib.Data.List.Perm.Subperm

/-!
# Keys stay distinct

Inserting, erasing and renaming keep each key once and bring in no value from
elsewhere. Entries built from pairs have distinct keys, and pairs whose keys are
distinct already are what is built from them. Where each key stands once, a look-up
finds exactly the entries that are there, and sorting forgets their order.
-/

namespace DynamicData.Entries

variable {α : Type}

@[simp] theorem keys_nil : keys ([] : Entries α) = [] := rfl

@[simp] theorem keys_cons (k : String) (v : α) (es : Entries α) :
    keys ((k, v) :: es) = k :: keys es := rfl

@[simp] theorem values_nil : values ([] : Entries α) = [] := rfl

@[simp] theorem values_cons (k : String) (v : α) (es : Entries α) :
    values ((k, v) :: es) = v :: values es := rfl

/-- A change to the values leaves the keys as they are. -/
theorem keys_map {β : Type} (f : α → β) (es : Entries α) :
    keys (es.map fun e => (e.1, f e.2)) = es.keys := by
  simp [keys, Function.comp_def]

/-! ## Look-ups -/

theorem get?_map {β : Type} (f : α → β) (key : String) (es : Entries α) :
    get? key (es.map fun e => (e.1, f e.2)) = (es.get? key).map f := by
  induction es with
  | nil => rfl
  | cons e rest ih =>
      rw [List.map_cons, get?, get?, ih]
      split <;> rfl

theorem mem_of_get? {key : String} {v : α} {es : Entries α} (hv : es.get? key = some v) :
    (key, v) ∈ es := by
  induction es with
  | nil => cases hv
  | cons e rest ih =>
      obtain ⟨k, w⟩ := e
      by_cases h : k = key
      · subst h
        rw [get?, if_pos rfl] at hv
        cases hv
        exact List.mem_cons_self
      · rw [get?, if_neg h] at hv
        exact List.mem_cons_of_mem _ (ih hv)

/-- The keys are those under which there is a value. -/
theorem mem_keys_iff {key : String} {es : Entries α} :
    key ∈ es.keys ↔ ∃ v, es.get? key = some v := by
  induction es with
  | nil => simp [get?]
  | cons e rest ih =>
      obtain ⟨k, w⟩ := e
      by_cases h : k = key
      · simp [get?, h]
      · simp [get?, h, Ne.symm h, ih]

/-- A value that is found stands in line with its key. -/
theorem exists_getElem?_of_get? {key : String} {v : α} {es : Entries α}
    (hv : es.get? key = some v) :
    ∃ i : Nat, es.keys[i]? = some key ∧ es.values[i]? = some v := by
  obtain ⟨i, hi⟩ := List.mem_iff_getElem?.mp (mem_of_get? hv)
  refine ⟨i, ?_, ?_⟩
  · rw [keys, List.getElem?_map, hi]
    rfl
  · rw [values, List.getElem?_map, hi]
    rfl

/-- Where each key stands once, whatever stands there is found. -/
theorem get?_of_mem {key : String} {v : α} {es : Entries α} (hes : es.keys.Nodup)
    (he : (key, v) ∈ es) : es.get? key = some v := by
  induction es with
  | nil => cases he
  | cons e rest ih =>
      obtain ⟨k, w⟩ := e
      obtain ⟨hk, hrest⟩ := List.nodup_cons.mp hes
      rcases List.mem_cons.mp he with he | he
      · cases he
        rw [get?, if_pos rfl]
      · have hmem : key ∈ keys rest := List.mem_map_of_mem (f := Prod.fst) he
        have hne : k ≠ key := by
          rintro rfl
          exact hk hmem
        rw [get?, if_neg hne]
        exact ih hrest he

/-! ## One insertion -/

theorem insert_of_notMem {key : String} {es : Entries α} (v : α) (hk : key ∉ es.keys) :
    es.insert key v = es ++ [(key, v)] := by
  induction es with
  | nil => rfl
  | cons e rest ih =>
      obtain ⟨k, w⟩ := e
      rw [keys_cons, List.mem_cons, not_or] at hk
      rw [insert, if_neg (Ne.symm hk.1), ih hk.2]
      rfl

theorem keys_insert (key : String) (v : α) (es : Entries α) :
    (es.insert key v).keys = if key ∈ es.keys then es.keys else es.keys ++ [key] := by
  induction es with
  | nil => rfl
  | cons e rest ih =>
      obtain ⟨k, w⟩ := e
      by_cases h : k = key
      · subst h
        simp [insert]
      · rw [insert, if_neg h, keys_cons, ih]
        by_cases hm : key ∈ keys rest <;> simp [hm, Ne.symm h]

theorem nodup_insert {es : Entries α} (key : String) (v : α) (hes : es.keys.Nodup) :
    (es.insert key v).keys.Nodup := by
  rw [keys_insert]
  by_cases hm : key ∈ es.keys
  · rw [if_pos hm]
    exact hes
  · rw [if_neg hm, List.nodup_append]
    refine ⟨hes, by simp, ?_⟩
    intro a ha b hb
    rw [List.mem_singleton] at hb
    rintro rfl
    exact hm (hb ▸ ha)

theorem mem_values_insert {key : String} {v w : α} {es : Entries α}
    (hw : w ∈ (es.insert key v).values) : w ∈ es.values ∨ w = v := by
  induction es with
  | nil => exact Or.inr (List.mem_singleton.mp hw)
  | cons e rest ih =>
      obtain ⟨k, u⟩ := e
      by_cases h : k = key
      · rw [insert, if_pos h, values_cons, List.mem_cons] at hw
        rcases hw with hw | hw
        · exact Or.inr hw
        · exact Or.inl (List.mem_cons_of_mem u hw)
      · rw [insert, if_neg h, values_cons, List.mem_cons] at hw
        rcases hw with hw | hw
        · exact Or.inl (hw ▸ List.mem_cons_self)
        · rcases ih hw with hr | rfl
          · exact Or.inl (List.mem_cons_of_mem u hr)
          · exact Or.inr rfl

/-! ## Erasing and renaming -/

theorem erase_sublist (key : String) (es : Entries α) : (es.erase key).Sublist es := by
  induction es with
  | nil => exact .slnil
  | cons e rest ih =>
      obtain ⟨k, w⟩ := e
      by_cases h : k = key
      · rw [erase, if_pos h]
        exact List.sublist_cons_self _ _
      · rw [erase, if_neg h]
        exact ih.cons_cons _

theorem nodup_erase {es : Entries α} (key : String) (hes : es.keys.Nodup) :
    (es.erase key).keys.Nodup :=
  hes.sublist ((erase_sublist key es).map Prod.fst)

theorem mem_values_erase {key : String} {w : α} {es : Entries α}
    (hw : w ∈ (es.erase key).values) : w ∈ es.values :=
  ((erase_sublist key es).map Prod.snd).subset hw

theorem mem_values_of_get? {key : String} {v : α} {es : Entries α}
    (hv : es.get? key = some v) : v ∈ es.values :=
  List.mem_map_of_mem (mem_of_get? hv)

theorem nodup_rename {es : Entries α} (old new : String) (hes : es.keys.Nodup) :
    (es.rename old new).keys.Nodup := by
  unfold rename
  split
  · exact hes
  · split
    · exact hes
    · exact nodup_insert new _ (nodup_erase old hes)

theorem mem_values_rename {old new : String} {w : α} {es : Entries α}
    (hw : w ∈ (es.rename old new).values) : w ∈ es.values := by
  unfold rename at hw
  split at hw
  · exact hw
  · split at hw
    · exact hw
    · next v hv =>
        rcases mem_values_insert hw with hw | rfl
        · exact mem_values_erase hw
        · exact mem_values_of_get? hv

/-! ## Entries from pairs -/

theorem nodup_ofPairs (pairs : List (String × α)) : (ofPairs pairs).keys.Nodup := by
  have from_done : ∀ done : Entries α, done.keys.Nodup →
      (pairs.foldl (fun es p => es.insert p.1 p.2) done).keys.Nodup := by
    induction pairs with
    | nil => exact fun _ hd => hd
    | cons p rest ih => exact fun done hd => ih _ (nodup_insert p.1 p.2 hd)
  exact from_done [] List.nodup_nil

/-- What is folded in from pairs was there before or comes from a pair. -/
theorem mem_values_foldl_insert {w : α} : ∀ {pairs : List (String × α)} {done : Entries α},
    w ∈ (pairs.foldl (fun es p => es.insert p.1 p.2) done).values →
      w ∈ done.values ∨ ∃ p ∈ pairs, p.2 = w
  | [], _, hw => Or.inl hw
  | p :: rest, done, hw => by
      have hrest : w ∈ (rest.foldl (fun es q => es.insert q.1 q.2)
          (done.insert p.1 p.2)).values := hw
      rcases mem_values_foldl_insert hrest with hd | ⟨q, hq, hqw⟩
      · rcases mem_values_insert hd with hd | rfl
        · exact Or.inl hd
        · exact Or.inr ⟨p, List.mem_cons_self, rfl⟩
      · exact Or.inr ⟨q, List.mem_cons_of_mem p hq, hqw⟩

theorem mem_values_ofPairs {w : α} {pairs : List (String × α)}
    (hw : w ∈ (ofPairs pairs).values) : ∃ p ∈ pairs, p.2 = w := by
  rcases mem_values_foldl_insert hw with hd | hp
  · cases hd
  · exact hp

theorem ofPairs_of_nodup {pairs : List (String × α)} (hp : (keys pairs).Nodup) :
    ofPairs pairs = pairs := by
  have from_done : ∀ done : Entries α, (keys (done ++ pairs)).Nodup →
      pairs.foldl (fun es p => es.insert p.1 p.2) done = done ++ pairs := by
    induction pairs with
    | nil => exact fun done _ => (List.append_nil done).symm
    | cons p rest ih =>
        obtain ⟨k, v⟩ := p
        intro done hd
        have hk : k ∉ keys done := by
          intro hm
          rw [keys, List.map_append, List.nodup_append] at hd
          exact hd.2.2 k hm k List.mem_cons_self rfl
        have happ : done ++ (k, v) :: rest = done ++ [(k, v)] ++ rest := by simp
        rw [List.foldl_cons, insert_of_notMem v hk, happ]
        exact ih (List.nodup_cons.mp hp).2 _ (happ ▸ hd)
  exact from_done [] hp

/-! ## Entries in any order -/

/-- Entries that are all among others, and as many, are the others in some order. -/
theorem perm_of_subset {es fs : Entries α} (hes : es.keys.Nodup) (hsub : es ⊆ fs)
    (hlen : fs.length ≤ es.length) : es.Perm fs :=
  (hes.of_map.subperm hsub).perm_of_length_le hlen

theorem keyOrder_trans (a b c : String × α) (hab : (!decide (b.1 < a.1)) = true)
    (hbc : (!decide (c.1 < b.1)) = true) : (!decide (c.1 < a.1)) = true := by
  simp only [Bool.not_eq_true', decide_eq_false_iff_not, String.not_lt] at hab hbc ⊢
  exact String.le_trans hab hbc

theorem keyOrder_total (a b : String × α) :
    (!decide (b.1 < a.1) || !decide (a.1 < b.1)) = true := by
  simp only [Bool.or_eq_true, Bool.not_eq_true', decide_eq_false_iff_not, String.not_lt]
  exact String.le_total a.1 b.1

/-- Sorting by key forgets the order in which the keys came. -/
theorem sortByKey_eq_of_perm {es fs : Entries α} (hes : es.keys.Nodup) (hp : es.Perm fs) :
    es.sortByKey = fs.sortByKey := by
  have hsorted : es.sortByKey.Perm fs.sortByKey :=
    (List.mergeSort_perm es _).trans (hp.trans (List.mergeSort_perm fs _).symm)
  refine hsorted.eq_of_pairwise ?_ (List.pairwise_mergeSort keyOrder_trans keyOrder_total es)
    (List.pairwise_mergeSort keyOrder_trans keyOrder_total fs)
  -- neither key is below the other, so they are the same key, which stands there once
  intro a b ha hb hab hba
  simp only [Bool.not_eq_true', decide_eq_false_iff_not, String.not_lt] at hab hba
  have ha : a ∈ es := List.mem_mergeSort.mp ha
  have hb : b ∈ es := hp.mem_iff.mpr (List.mem_mergeSort.mp hb)
  exact List.inj_on_of_nodup_map hes ha hb (String.le_antisymm hab hba)

end DynamicData.Entries
