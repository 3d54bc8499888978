import DynamicData.Proofs.Term.Exact

/-!
# How deeply a term nests

`nesting` counts the maps and the lists with items that lie inside each other, in
keys as well as in values. A list without items does not count: it has a written form
that the limit on reading lets pass anywhere. No representation nests less than its
term does, so what has been read under a limit nests no deeper than the limit.
-/

namespace DynamicData.Term

mutual

/-- How many maps and lists with items lie inside each other, the term included. -/
def nesting : Term → Nat
  | .nil | .bool _ | .integer _ | .float _ | .binary _ | .atom _ => 0
  | .list [] => 0
  | .list (t :: rest) => 1 + max (nesting t) (nestingOfItems rest)
  | .map pairs => 1 + nestingOfPairs pairs

/-- The nesting of the item that nests most. -/
def nestingOfItems : List Term → Nat
  | [] => 0
  | t :: rest => max (nesting t) (nestingOfItems rest)

/-- The nesting of the key or value that nests most. -/
def nestingOfPairs : List (Term × Term) → Nat
  | [] => 0
  | (k, v) :: rest => max (max (nesting k) (nesting v)) (nestingOfPairs rest)

end

/-! ## Upper bounds -/

attribute [local simp] nesting nestingOfItems nestingOfPairs

theorem nestingOfItems_le {d : Nat} {items : List Term} :
    nestingOfItems items ≤ d ↔ ∀ t ∈ items, t.nesting ≤ d := by
  induction items with
  | nil => simp
  | cons t rest ih => rw [nestingOfItems, Nat.max_le, ih, List.forall_mem_cons]

theorem nestingOfPairs_le {d : Nat} {pairs : List (Term × Term)} :
    nestingOfPairs pairs ≤ d ↔ ∀ p ∈ pairs, p.1.nesting ≤ d ∧ p.2.nesting ≤ d := by
  induction pairs with
  | nil => simp
  | cons p rest ih =>
      obtain ⟨k, v⟩ := p
      rw [nestingOfPairs, Nat.max_le, Nat.max_le, ih, List.forall_mem_cons]

theorem nesting_list_le {d : Nat} {items : List Term} :
    (Term.list items).nesting ≤ d + 1 ↔ ∀ t ∈ items, t.nesting ≤ d := by
  cases items with
  | nil => simp
  | cons t rest =>
      rw [nesting, Nat.add_comm, Nat.add_le_add_iff_right, ← nestingOfItems,
        nestingOfItems_le]

theorem nesting_map_le {d : Nat} {pairs : List (Term × Term)} :
    (Term.map pairs).nesting ≤ d + 1 ↔
      ∀ p ∈ pairs, p.1.nesting ≤ d ∧ p.2.nesting ≤ d := by
  rw [nesting, Nat.add_comm, Nat.add_le_add_iff_right, nestingOfPairs_le]

theorem nesting_lt_of_mem_list {t : Term} {items : List Term} (ht : t ∈ items) :
    t.nesting < (Term.list items).nesting := by
  cases hn : (Term.list items).nesting with
  | zero =>
      cases items with
      | nil => exact absurd ht List.not_mem_nil
      | cons u rest =>
          rw [nesting] at hn
          omega
  | succ d => exact Nat.lt_succ_of_le (nesting_list_le.mp (Nat.le_of_eq hn) t ht)

theorem nesting_lt_of_mem_map {p : Term × Term} {pairs : List (Term × Term)} (hp : p ∈ pairs) :
    p.1.nesting < (Term.map pairs).nesting ∧ p.2.nesting < (Term.map pairs).nesting := by
  obtain ⟨hkey, hvalue⟩ := nestingOfPairs_le.mp (Nat.le_refl _) p hp
  rw [nesting, Nat.one_add]
  exact ⟨Nat.lt_succ_of_le hkey, Nat.lt_succ_of_le hvalue⟩

/-! ## Representations -/

/-- A term without parts has no nesting: the only list among them is empty. -/
theorem Leaf.nesting_eq_zero {tag : Tag} {body : Bytes} {t : Term} (h : Leaf tag body t) :
    t.nesting = 0 := by
  cases h with
  | atom count spells =>
      unfold ofAtom
      split
      · rfl
      split
      · rfl
      split <;> rfl
  | _ => rfl

theorem RepresentsItems.exists_word {depth : Nat} {word : Bytes} {items : List Term}
    (h : RepresentsItems depth word items) :
    ∀ t ∈ items, ∃ word, Represents depth word t := by
  induction items generalizing word with
  | nil => exact fun _ ht => absurd ht List.not_mem_nil
  | cons t rest ih =>
      cases h with
      | cons head tail =>
          rw [List.forall_mem_cons]
          exact ⟨⟨_, head⟩, ih tail⟩

theorem RepresentsPairs.exists_words {depth : Nat} {word : Bytes} {pairs : List (Term × Term)}
    (h : RepresentsPairs depth word pairs) :
    ∀ p ∈ pairs, (∃ word, Represents depth word p.1) ∧ ∃ word, Represents depth word p.2 := by
  induction pairs generalizing word with
  | nil => exact fun _ hp => absurd hp List.not_mem_nil
  | cons p rest ih =>
      cases h with
      | cons key value tail =>
          rw [List.forall_mem_cons]
          exact ⟨⟨⟨_, key⟩, ⟨_, value⟩⟩, ih tail⟩

/-- A term nests no deeper than any of its representations. -/
theorem Represents.nesting_le {depth : Nat} {word : Bytes} {t : Term}
    (h : Represents depth word t) : t.nesting ≤ depth := by
  induction depth generalizing word t with
  | zero =>
      cases h with
      | leaf form => exact Nat.le_of_eq form.nesting_eq_zero
  | succ depth ih =>
      cases h with
      | leaf form => exact form.nesting_eq_zero ▸ Nat.zero_le _
      | list count parts =>
          refine nesting_list_le.mpr fun t ht => ?_
          obtain ⟨_, hword⟩ := parts.exists_word t ht
          exact ih hword
      | map count parts =>
          refine nesting_map_le.mpr fun p hp => ?_
          obtain ⟨⟨_, hkey⟩, ⟨_, hvalue⟩⟩ := parts.exists_words p hp
          exact ⟨ih hkey, ih hvalue⟩

/-- What has been read under a limit respects it. -/
theorem nesting_le_of_decode {max : Nat} {payload : Bytes} {t : Term}
    (h : decode max payload = .ok t) : t.nesting ≤ max := by
  obtain ⟨_, -, hbody⟩ := represents_of_decode h
  exact hbody.nesting_le

end DynamicData.Term
