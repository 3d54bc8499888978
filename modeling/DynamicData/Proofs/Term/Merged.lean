import DynamicData.Proofs.Merged
import DynamicData.Proofs.Parser
import DynamicData.Proofs.Text
import DynamicData.Term.Document

/-!
# Terms with repeated keys

`Carries t d` says that the term `t` carries `d`, where the document lists the pairs of each
map as the term does, repetitions included. Texts and keys may be binaries or atoms, so that
one key can come again in another form. The document that is made of the term has the pairs
of every map merged.
-/

namespace DynamicData.Term

/-- A binary or an atom that stands for the text `s`. -/
inductive CarriesText : Term → String → Prop
  | binary (s : String) : CarriesText (.ofText s) s
  | atom (name : String) : CarriesText (.atom name) name

mutual

/-- The term carries the document, pair by pair. -/
inductive Carries : Term → Document → Prop
  | null : Carries .nil .null
  | bool (b : Bool) : Carries (.bool b) (.bool b)
  | int (i : Int64) : Carries (.integer i.toInt) (.int i)
  | uint {u : UInt64} (large : 2 ^ 63 ≤ u.toNat) : Carries (.integer u.toNat) (.uint u)
  | float (x : Binary64) : Carries (.float x) (.float x)
  | text {t : Term} {s : String} (form : CarriesText t s) : Carries t (.text s)
  | list {terms : List Term} {items : List Document} (parts : CarriesItems terms items) :
      Carries (.list terms) (.array () items)
  | map {terms : List (Term × Term)} {pairs : List (String × Document)}
      (parts : CarriesPairs terms pairs) : Carries (.map terms) (.object () pairs)

/-- The terms carry the items one by one. -/
inductive CarriesItems : List Term → List Document → Prop
  | nil : CarriesItems [] []
  | cons {t : Term} {d : Document} {terms : List Term} {items : List Document}
      (head : Carries t d) (tail : CarriesItems terms items) :
      CarriesItems (t :: terms) (d :: items)

/-- The pairs of terms carry the keys and their values one by one. -/
inductive CarriesPairs : List (Term × Term) → List (String × Document) → Prop
  | nil : CarriesPairs [] []
  | cons {k t : Term} {key : String} {d : Document} {terms : List (Term × Term)}
      {pairs : List (String × Document)} (name : CarriesText k key) (value : Carries t d)
      (tail : CarriesPairs terms pairs) :
      CarriesPairs ((k, t) :: terms) ((key, d) :: pairs)

end

/-! ## Carried documents are read -/

theorem integer?_toInt (i : Int64) : Tree.integer? i.toInt = some (.int i : Document) := by
  unfold Tree.integer?
  rw [if_pos ⟨i.le_toInt, i.toInt_lt⟩, Int64.ofInt_toInt]

theorem integer?_toNat (u : UInt64) :
    Tree.integer? (u.toNat : Int) = some (Tree.unsigned u : Document) := by
  have := u.toNat_lt
  unfold Tree.integer? Tree.unsigned
  by_cases hsigned : u.toNat < 2 ^ 63
  · rw [if_pos (by omega), if_pos hsigned]
    rfl
  · rw [if_neg (by omega), if_pos (by omega), if_neg hsigned, Int.toNat_natCast,
      UInt64.ofNat_toNat]

theorem key_ofText (k : String) : key (.ofText k) = .ok k := by
  rw [key, ofText, text?, Text.decode?_encode]

theorem CarriesText.key {t : Term} {s : String} (h : CarriesText t s) : t.key = .ok s := by
  cases h with
  | binary s => exact key_ofText s
  | atom name => rfl

theorem CarriesText.document {t : Term} {s : String} (h : CarriesText t s) :
    t.document = .ok (.text s) := by
  cases h with
  | binary s => rw [ofText, Term.document, Text.decode?_encode]
  | atom name => rfl

mutual

/-- A term is turned into its document with the pairs of every map merged. -/
theorem Carries.document : ∀ {t : Term} {d : Document}, Carries t d → t.document = .ok d.merged
  | _, _, .null => rfl
  | _, _, .bool _ => rfl
  | _, _, .int i => by
      rw [Term.document, integer?_toInt]
      rfl
  | _, _, .uint (u := u) large => by
      rw [Term.document, integer?_toNat, Tree.unsigned, if_neg (Nat.not_lt.mpr large)]
      rfl
  | _, _, .float _ => rfl
  | _, _, .text form => form.document
  | _, _, .list parts => by
      rw [Term.document, parts.documents, Tree.merged_array]
      rfl
  | _, _, .map parts => by
      rw [Term.document, parts.documents, Tree.merged_object]
      rfl

theorem CarriesItems.documents : ∀ {terms : List Term} {items : List Document},
    CarriesItems terms items → documentItems terms = .ok (items.map Tree.merged)
  | _, _, .nil => rfl
  | _, _, .cons head tail => by
      rw [documentItems, head.document, tail.documents]
      rfl

theorem CarriesPairs.documents : ∀ {terms : List (Term × Term)}
    {pairs : List (String × Document)}, CarriesPairs terms pairs →
      documentPairs terms = .ok (pairs.map fun p => (p.1, p.2.merged))
  | _, _, .nil => rfl
  | _, _, .cons name value tail => by
      rw [documentPairs, name.key, value.document, tail.documents]
      rfl

end

/-! ## What is read was carried -/

theorem carries_of_integer? {i : Int} {d : Document} (hd : Tree.integer? i = some d) :
    Carries (.integer i) d ∧ d.depth = 0 := by
  unfold Tree.integer? at hd
  split at hd
  · next hsigned =>
      cases hd
      have hcarries := Carries.int (Int64.ofInt i)
      rw [Int64.toInt_ofInt_of_le hsigned.1 hsigned.2] at hcarries
      exact ⟨hcarries, rfl⟩
  · split at hd
    · next hrange hunsigned =>
        cases hd
        obtain ⟨n, rfl⟩ := Int.eq_ofNat_of_zero_le hunsigned.1
        have hn : (UInt64.ofNat n).toNat = n :=
          UInt64.toNat_ofNat_of_lt (by show n < 2 ^ 64; omega)
        have hcarries := Carries.uint (u := UInt64.ofNat n) (by omega)
        rw [hn] at hcarries
        exact ⟨hcarries, rfl⟩
    · cases hd

theorem carriesText_of_key {t : Term} {s : String} (hs : t.key = .ok s) : CarriesText t s := by
  unfold Term.key at hs
  split at hs
  · next text htext =>
      cases hs
      cases t with
      | binary bytes =>
          obtain rfl := Text.encode_of_decode? htext
          exact .binary s
      | atom name =>
          cases htext
          exact .atom s
      | _ => cases htext
  · cases hs

mutual

/-- A term that has a document carries it, up to the merging of pairs. -/
theorem exists_carries : ∀ (t : Term) {d : Document}, t.document = .ok d →
    ∃ d', Carries t d' ∧ d = d'.merged
  | .nil, _, hd => by
      cases hd
      exact ⟨.null, .null, rfl⟩
  | .bool b, _, hd => by
      cases hd
      exact ⟨.bool b, .bool b, rfl⟩
  | .integer i, d, hd => by
      unfold document at hd
      split at hd
      · next e he =>
          cases hd
          obtain ⟨hcarries, hscalar⟩ := carries_of_integer? he
          exact ⟨d, hcarries, (Tree.merged_scalar hscalar).symm⟩
      · cases hd
  | .float x, _, hd => by
      cases hd
      exact ⟨.float x, .float x, rfl⟩
  | .binary bytes, _, hd => by
      unfold document at hd
      split at hd
      · next s hs =>
          cases hd
          obtain rfl := Text.encode_of_decode? hs
          exact ⟨.text s, .text (.binary s), rfl⟩
      · cases hd
  | .atom name, _, hd => by
      cases hd
      exact ⟨.text name, .text (.atom name), rfl⟩
  | .list items, d, hd => by
      unfold document at hd
      obtain ⟨ds, hds, hd⟩ := except_bind_eq_ok.mp hd
      cases hd
      obtain ⟨parts, hparts, rfl⟩ := exists_carriesItems items hds
      exact ⟨.array () parts, .list hparts, (Tree.merged_array () parts).symm⟩
  | .map pairs, d, hd => by
      unfold document at hd
      obtain ⟨es, hes, hd⟩ := except_bind_eq_ok.mp hd
      cases hd
      obtain ⟨parts, hparts, rfl⟩ := exists_carriesPairs pairs hes
      exact ⟨.object () parts, .map hparts, (Tree.merged_object () parts).symm⟩

theorem exists_carriesItems : ∀ (ts : List Term) {ds : List Document},
    documentItems ts = .ok ds → ∃ items, CarriesItems ts items ∧ ds = items.map Tree.merged
  | [], _, hds => by
      cases hds
      exact ⟨[], .nil, rfl⟩
  | t :: rest, ds, hds => by
      unfold documentItems at hds
      obtain ⟨d, hd, hds⟩ := except_bind_eq_ok.mp hds
      obtain ⟨ds', hds', hds⟩ := except_bind_eq_ok.mp hds
      cases hds
      obtain ⟨item, hitem, rfl⟩ := exists_carries t hd
      obtain ⟨items, hitems, rfl⟩ := exists_carriesItems rest hds'
      exact ⟨item :: items, .cons hitem hitems, rfl⟩

theorem exists_carriesPairs : ∀ (ps : List (Term × Term)) {es : List (String × Document)},
    documentPairs ps = .ok es →
      ∃ pairs, CarriesPairs ps pairs ∧ es = pairs.map fun p => (p.1, p.2.merged)
  | [], _, hes => by
      cases hes
      exact ⟨[], .nil, rfl⟩
  | (k, t) :: rest, es, hes => by
      unfold documentPairs at hes
      obtain ⟨name, hname, hes⟩ := except_bind_eq_ok.mp hes
      obtain ⟨d, hd, hes⟩ := except_bind_eq_ok.mp hes
      obtain ⟨es', hes', hes⟩ := except_bind_eq_ok.mp hes
      cases hes
      obtain ⟨value, hvalue, rfl⟩ := exists_carries t hd
      obtain ⟨pairs, hpairs, rfl⟩ := exists_carriesPairs rest hes'
      exact ⟨(name, value) :: pairs, .cons (carriesText_of_key hname) hvalue hpairs, rfl⟩

end

end DynamicData.Term
