import DynamicData.Proofs.Distinct

/-!
# Parsed documents are normalised

An integer is kept signed where it can be. A tree is normalised if every unsigned word in it
is one that has no signed form, and then each integer has one form only. Readers of JSON and
of terms make normalised documents, whatever forms of an integer the payload uses.
-/

namespace DynamicData

namespace Tree

variable {ι : Type}

/-- Every unsigned word of the tree is above all signed ones. -/
inductive Normalised : Tree ι → Prop
  | null : Normalised .null
  | bool (b : Bool) : Normalised (.bool b)
  | int (i : Int64) : Normalised (.int i)
  | uint {u : UInt64} (large : 2 ^ 63 ≤ u.toNat) : Normalised (.uint u)
  | float (x : Binary64) : Normalised (.float x)
  | text (s : String) : Normalised (.text s)
  | array (mark : ι) {items : List (Tree ι)} (parts : ∀ t ∈ items, Normalised t) :
      Normalised (.array mark items)
  | object (mark : ι) {entries : List (String × Tree ι)}
      (parts : ∀ e ∈ entries, Normalised e.2) : Normalised (.object mark entries)

theorem normalised_unsigned (u : UInt64) : Normalised (Tree.unsigned u : Tree ι) := by
  unfold unsigned
  split
  · exact .int _
  · next hlarge => exact .uint (Nat.not_lt.mp hlarge)

/-- Merging drops values and brings in none. -/
theorem Normalised.merged {t : Tree ι} (ht : t.Normalised) : t.merged.Normalised := by
  induction ht with
  | null => exact .null
  | bool b => exact .bool b
  | int i => exact .int i
  | uint large => exact .uint large
  | float x => exact .float x
  | text s => exact .text s
  | array mark parts ih =>
      rw [merged_array]
      exact .array mark (List.forall_mem_map.mpr ih)
  | object mark parts ih =>
      rw [merged_object]
      refine .object mark fun e he => ?_
      obtain ⟨q, hq, hvalue⟩ :=
        Entries.mem_values_ofPairs (List.mem_map_of_mem (f := Prod.snd) he)
      obtain ⟨p, hp, rfl⟩ := List.mem_map.mp hq
      exact hvalue ▸ ih p hp

end Tree

open DynamicData.Tree

theorem Document.inductive_normalised : Document.Inductive Normalised where
  null := .null
  bool := .bool
  int := .int
  unsigned := normalised_unsigned
  float := .float
  text := .text
  array := .array ()
  object := fun _ values => .object () fun e he => values e.2 (List.mem_map_of_mem he)

namespace Term

mutual

theorem Carries.normalised : ∀ {t : Term} {d : Document}, Carries t d → d.Normalised
  | _, _, .null => .null
  | _, _, .bool b => .bool b
  | _, _, .int i => .int i
  | _, _, .uint large => .uint large
  | _, _, .float x => .float x
  | _, _, .text _ => .text _
  | _, _, .list parts => .array () parts.normalised
  | _, _, .map parts => .object () parts.normalised

theorem CarriesItems.normalised : ∀ {terms : List Term} {items : List Document},
    CarriesItems terms items → ∀ d ∈ items, d.Normalised
  | _, _, .nil => fun _ hd => absurd hd List.not_mem_nil
  | _, _, .cons head tail => List.forall_mem_cons.mpr ⟨head.normalised, tail.normalised⟩

theorem CarriesPairs.normalised : ∀ {terms : List (Term × Term)}
    {pairs : List (String × Document)}, CarriesPairs terms pairs → ∀ p ∈ pairs, p.2.Normalised
  | _, _, .nil => fun _ hp => absurd hp List.not_mem_nil
  | _, _, .cons _ value tail => List.forall_mem_cons.mpr ⟨value.normalised, tail.normalised⟩

end

end Term

theorem Document.Parsed.normalised {d : Document} (hd : d.Parsed) : d.Normalised := by
  cases hd with
  | json read => exact Json.holds_of_parse inductive_normalised read
  | binary read =>
      obtain ⟨t, -, ht⟩ := ok_of_ofBinary read
      obtain ⟨d', hcarries, rfl⟩ := Term.exists_carries t ht
      exact hcarries.normalised.merged

end DynamicData
