import DynamicData.Proofs.Heap.Integer
import DynamicData.Proofs.Path.Position
import DynamicData.Proofs.RoundTrip.Binary
import DynamicData.Proofs.RoundTrip.Json
import DynamicData.Proofs.RoundTrip.Mirror

/-!
# Integers that have been written and read back

An unsigned word that fits comes back in signed form. No read can tell: the reads of an
integer depend on its number alone, and the number is kept, as texts are. So whatever
integer or text a path leads to, each integer type and its text are read along this path as
before the round trip.
-/

namespace DynamicData

variable {α : Type}

/-! ## Integers in an image -/

/-- The signed form of a word that fits has its number. -/
theorem Node.numeric?_unsigned (u : UInt64) :
    (Node.unsigned u).numeric? = some (.integer u.toNat) := by
  unfold unsigned
  split
  · next hu =>
      show some (Numeric.integer (Int64.ofNat u.toNat).toInt) = _
      rw [Int64.toInt_ofNat_of_lt hu]
  · rfl

theorem Tree.leaf?_unsigned (u : UInt64) : (Tree.unsigned u).leaf? = some (Node.unsigned u) := by
  unfold unsigned Node.unsigned
  split <;> rfl

namespace Heap

variable {h h' : Heap} {n n' : Node} {uint : UInt64 → Document} {float : Binary64 → Document}

/-- The number of an integer is kept where words are put in signed form. -/
theorem Mirrors.numeric? (hm : Mirrors .unsigned float h n h' n') (hw' : h'.WellFormed) {i : Int}
    (hn : n.numeric? = some (.integer i)) : n'.numeric? = some (.integer i) := by
  cases n <;> cases hn
  · rw [hm.eq_of_leaf? hw' (by rw [tree_int]; rfl)]
    rfl
  · rw [hm.eq_of_leaf? hw' (by rw [tree_uint]; exact Tree.leaf?_unsigned _)]
    exact Node.numeric?_unsigned _

theorem Mirrors.eq_text {s : String} (hm : Mirrors uint float h (.text s) h' n')
    (hw' : h'.WellFormed) : n' = .text s :=
  hm.eq_of_leaf? hw' (by rw [tree_text]; rfl)

/-! ## Reads along a path -/

/-- The three reads along a path from one root come to what they come to from the other. -/
structure SameReads (t : Target α) (path : Path) (h : Heap) (root : Node) (h' : Heap)
    (root' : Node) : Prop where
  required : h'.getPath t path root' = h.getPath t path root
  fallback : ∀ f, h'.getPathOr t f path root' = h.getPathOr t f path root
  optional : h'.optPath t path root' = h.optPath t path root

/-- Reads are the same where nodes that are converted alike stand at the position. -/
theorem sameReads_of_nodeAt {t : Target α} {path : Path} {root root' : Node}
    (hsteps : path.steps ≠ []) (hn : h.nodeAt root path.position = some n)
    (hnull : n.isNull = false) (hn' : h'.nodeAt root' path.position = some n')
    (hnull' : n'.isNull = false)
    (hcoerce : ∀ location, h'.coerce t location n' = h.coerce t location n) :
    SameReads t path h root h' root' := by
  obtain ⟨p, hres, hlookup, hp⟩ := resolve_of_nodeAt hsteps hn hnull
  obtain ⟨p', hres', hlookup', hp'⟩ := resolve_of_nodeAt hsteps hn' hnull'
  have hlocation : p'.location = p.location := Option.some.inj (hp'.symm.trans hp)
  have hreads := reads_of_lookup hlookup hnull t
  have hreads' := reads_of_lookup hlookup' hnull' t
  rw [hlocation, hcoerce] at hreads'
  constructor
  · unfold getPath
    rw [hres, hres']
    exact congrArg (along path) (hreads'.required.trans hreads.required.symm)
  · intro f
    unfold getPathOr
    rw [hres, hres']
    exact congrArg (along path) ((hreads'.fallback f).trans (hreads.fallback f).symm)
  · unfold optPath
    rw [hres, hres']
    exact congrArg (along path) (hreads'.optional.trans hreads.optional.symm)

/-- Integers and texts along every path from the first root are read as from the second one,
as each of the integer types and as texts. -/
def KeepsIntegers (h : Heap) (root : Node) (h' : Heap) (root' : Node) : Prop :=
  ∀ path n, h.getPath .value path root = .ok n →
    ((∃ i, n.numeric? = some (.integer i)) ∨ ∃ s, n = .text s) →
    (∀ w : IntegerType, SameReads w.target path h root h' root') ∧
      SameReads .string path h root h' root'

/-- An integer or a text is converted as its image is. -/
theorem Mirrors.coerce_eq (hm : Mirrors .unsigned float h n h' n') (hw' : h'.WellFormed)
    (hn : (∃ i, n.numeric? = some (.integer i)) ∨ ∃ s, n = .text s) :
    n'.isNull = false ∧ ∀ location,
      (∀ w : IntegerType, h'.coerce w.target location n' = h.coerce w.target location n) ∧
      h'.coerce .string location n' = h.coerce .string location n := by
  rcases hn with ⟨i, hi⟩ | ⟨s, rfl⟩
  · have hi' := hm.numeric? hw' hi
    have hnull' : n'.isNull = false := by cases n' <;> first | rfl | cases hi'
    refine ⟨hnull', fun location => ⟨fun w => ?_, ?_⟩⟩
    · rw [h.coerce_integer w location hi, h'.coerce_integer w location hi']
    · rw [h.coerce_string_integer location hi, h'.coerce_string_integer location hi']
  · cases hm.eq_text hw'
    refine ⟨rfl, fun location => ⟨fun w => ?_, ?_⟩⟩
    · rw [w.target_eq]
      rfl
    · exact congrArg Except.ok (by rw [tree_text, tree_text])

theorem Mirrors.keepsIntegers {root root' : Node} (hm : Mirrors .unsigned float h root h' root')
    (hw : h.WellFormed) (hw' : h'.WellFormed) : KeepsIntegers h root h' root' := by
  intro path n hget hkind
  obtain ⟨hsteps, hn, hnull⟩ := nodeAt_of_getPath hget
  obtain ⟨n', hn', hmirrors⟩ := hm.nodeAt hw hw' hn
  obtain ⟨hnull', hcoerce⟩ := hmirrors.coerce_eq hw' hkind
  have hsame {α : Type} (t : Target α) := sameReads_of_nodeAt (t := t) hsteps hn hnull hn' hnull'
  exact ⟨fun w => hsame w.target fun location => (hcoerce location).1 w,
    hsame .string fun location => (hcoerce location).2⟩

/-- A container is loaded as one from which integers and texts are read as from `n`. -/
structure ReloadsIntegers (h : Heap) (n : Node) (object : Except DataError (Heap × ObjectRef))
    (array : Except DataError (Heap × ArrayRef)) : Prop where
  object : ∀ o, n = .object o → ∃ h' o', object = .ok (h', o') ∧
    KeepsIntegers h n h' (.object o')
  array : ∀ a, n = .array a → ∃ h' a', array = .ok (h', a') ∧ KeepsIntegers h n h' (.array a')

theorem ComesBack.reloadsIntegers {object : Except DataError (Heap × ObjectRef)}
    {array : Except DataError (Heap × ArrayRef)}
    (hc : h.ComesBack n ((h.tree n).image .unsigned float) object array) (hw : h.WellFormed)
    (hn : h.Knows n) : h.ReloadsIntegers n object array := by
  have hkeeps {h' : Heap} {n' : Node}
      (hb : h.Built ((h.tree n).image .unsigned float) h' n') : KeepsIntegers h n h' n' := by
    have hm : Mirrors .unsigned float h n h' n' :=
      ⟨hn, hb.knows, by rw [hb.tree, Tree.bare_document]⟩
    exact hm.keepsIntegers hw hb.wellFormed
  constructor
  · intro o ho
    obtain ⟨h', o', hload, hb⟩ := hc.object o ho
    exact ⟨h', o', hload, hkeeps hb⟩
  · intro a ha
    obtain ⟨h', a', hload, hb⟩ := hc.array a ha
    exact ⟨h', a', hload, hkeeps hb⟩

/-! ## All laws -/

/-- The laws of integer reads. An integer node wraps, its text is its decimal text, and a
decimal text is read only as the integer that it denotes. A round trip through JSON or the
term format changes none of this. A double is always read, as a narrower type as what it is
as a wider one, clamped. -/
theorem integer_reads :
    (∀ (h : Heap) (p : Place) (node : Node) (n : Int), h.lookup p = some node →
      node.numeric? = some (.integer n) →
        h.Reads .string p (.ok (toString n)) ∧
        ∀ w : IntegerType, ∃ v, (∀ u, w.toInt u ≡ n [ZMOD 2 ^ w.bits] ↔ u = v) ∧
          h.Reads w.target p (.ok v)) ∧
    (∀ (h : Heap) (p : Place) (n : Int), h.lookup p = some (.text (toString n)) →
      ∀ w : IntegerType,
        ((∃ v, w.toInt v = n) ↔ w.low ≤ n ∧ n ≤ w.high) ∧
        (∀ v, w.toInt v = n → h.Reads w.target p (.ok v)) ∧
        ((∀ v, w.toInt v ≠ n) →
          h.Reads w.target p (.error (.invalidText p.location w.target.name (toString n)))) ∧
        ∀ (q : Place) (node : Node), h.lookup q = some node →
          node.numeric? = some (.integer n) →
            ∀ v, h.get w.target p = .ok v → h.get w.target q = .ok v) ∧
    (∀ (h : Heap) (c : Node), h.Reachable → h.Knows c → ∀ limits : Limits,
      ((h.tree c).depth ≤ min Json.maxDepth limits.maxNestingDepth →
        (h.toJson c).length ≤ limits.maxPayloadBytes →
          h.ReloadsIntegers c (h.objectOfJson limits (h.toJson c))
            (h.arrayOfJson limits (h.toJson c))) ∧
      ((h.tree c).depth ≤ limits.maxNestingDepth → (h.tree c).Sized →
        (h.toBinary c).length ≤ limits.maxPayloadBytes →
          h.ReloadsIntegers c (h.objectOfBinary limits (h.toBinary c))
            (h.arrayOfBinary limits (h.toBinary c)))) ∧
    ∀ (h : Heap) (p : Place) (x : Binary64), h.lookup p = some (.float x) →
      (∀ w : IntegerType, ∃ v, h.Reads w.target p (.ok v)) ∧
      ∀ narrow wide : IntegerType, wide.low ≤ narrow.low → narrow.high ≤ wide.high →
        ∀ v u, h.get narrow.target p = .ok v → h.get wide.target p = .ok u →
          narrow.toInt v = max narrow.low (min narrow.high (wide.toInt u)) := by
  refine ⟨?_, ?_, ?_, ?_⟩
  · intro h p node n hp hn
    obtain ⟨hstring, hinteger⟩ := reads_of_integer hp hn
    exact ⟨hstring, fun w => ⟨w.ofInt n, fun u => IntegerType.eq_ofInt_iff.symm, hinteger w⟩⟩
  · intro h p n hp w
    have hread := reads_of_toString hp w
    refine ⟨IntegerType.exists_toInt_eq_iff, ?_, ?_, ?_⟩
    · rintro v rfl
      rw [if_pos (w.toInt_mem v), ← IntegerType.eq_ofInt_iff.mpr rfl] at hread
      exact hread
    · intro hv
      rwa [if_neg (fun hn => hv _ (IntegerType.toInt_ofInt hn))] at hread
    · intro q node hq hn v hv
      rw [hread.required] at hv
      split at hv
      · rw [((reads_of_integer hq hn).2 w).required, hv]
      · cases hv
  · intro h c hr hc limits
    have hw := hr.wellFormed
    have hkeys := hw.keysDistinct_tree hc
    refine ⟨fun hdepth hbytes => ?_, fun hdepth hsized hbytes => ?_⟩
    · have hread := Document.ofJson_compact hkeys hdepth hbytes
      exact (hw.comesBack hc .json hread hkeys.jsonForm).reloadsIntegers hw hc
    · have hread := Document.ofBinary_encode hkeys hsized hdepth hbytes
      exact (hw.comesBack hc .binary hread hkeys.termForm).reloadsIntegers hw hc
  · intro h p x hp
    exact ⟨fun w => ⟨_, reads_of_float hp w⟩,
      fun narrow wide hlow hhigh v u hv hu => get_float_narrow hp hlow hhigh hv hu⟩

/-- An unsigned word that fits, which wraps to a negative integer of 32 bits and has its text
and its reads kept by both formats; a text that is in the range of one type of 32 bits only;
and an infinity. -/
theorem integer_reads_at_bounds :
    let h := empty.after (.newObject [("u", .uint 0x7FFFFFFFFFFFFFFF),
      ("t", .text "4294967295"), ("x", .float ⟨0xFFF0000000000000⟩)])
    let root : Node := .object ⟨0⟩
    h.get .int (.key ⟨0⟩ "u") = .ok (-1) ∧
      h.get .string (.key ⟨0⟩ "u") = .ok "9223372036854775807" ∧
      h.get .unsignedInt (.key ⟨0⟩ "t") = .ok 4294967295 ∧
      h.get .int (.key ⟨0⟩ "t") = .error (.invalidText (.key "t") "int" "4294967295") ∧
      h.ReloadsIntegers root (h.objectOfJson .standard (h.toJson root))
        (h.arrayOfJson .standard (h.toJson root)) ∧
      h.ReloadsIntegers root (h.objectOfBinary .standard (h.toBinary root))
        (h.arrayOfBinary .standard (h.toBinary root)) ∧
      ∀ u, h.get .long (.key ⟨0⟩ "x") = .ok u → ∃ v, h.get .int (.key ⟨0⟩ "x") = .ok v ∧
        v.toInt = max (-2 ^ 31) (min (2 ^ 31 - 1) u.toInt) := by
  intro h root
  have hr : h.Reachable := by
    refine .after .empty (List.forall_mem_cons.mpr ⟨knows_scalar rfl, ?_⟩)
    refine List.forall_mem_cons.mpr ⟨knows_scalar rfl, ?_⟩
    exact List.forall_mem_singleton.mpr (knows_scalar rfl)
  have hroot : h.Knows root := knows_object.mpr Nat.zero_lt_one
  have hsized : (h.tree root).Sized := by
    have htree : h.tree root = .object (.object ⟨0⟩) [("u", .uint 0x7FFFFFFFFFFFFFFF),
        ("t", .text "4294967295"), ("x", .float ⟨0xFFF0000000000000⟩)] := rfl
    rw [htree]
    refine .object _ (by decide) (by decide) ?_
    refine List.forall_mem_cons.mpr ⟨.uint _, ?_⟩
    refine List.forall_mem_cons.mpr ⟨.text (by decide), ?_⟩
    exact List.forall_mem_singleton.mpr (.float _)
  obtain ⟨hinteger, htext, hreload, hfloat⟩ := integer_reads
  obtain ⟨hstring, hwraps⟩ := hinteger h (.key ⟨0⟩ "u") (.uint 0x7FFFFFFFFFFFFFFF)
    0x7FFFFFFFFFFFFFFF (by rfl) (by rfl)
  obtain ⟨v, hv, hint⟩ := hwraps .int
  have htexts := htext h (.key ⟨0⟩ "t") 4294967295 (by rfl)
  obtain ⟨hjson, hbinary⟩ := hreload h root hr hroot .standard
  obtain ⟨hsome, hnarrow⟩ := hfloat h (.key ⟨0⟩ "x") ⟨0xFFF0000000000000⟩ (by rfl)
  refine ⟨?_, hstring.required, ?_, ?_, ?_, ?_, fun u hu => ?_⟩
  · have hone := (hv (-1 : Int32)).mp (by decide)
    exact hone ▸ hint.required
  · exact ((htexts .unsignedInt).2.1 (4294967295 : UInt32) (by decide)).required
  · refine ((htexts .int).2.2.1 fun v hv => ?_).required
    have hrange := (htexts .int).1.mp ⟨v, hv⟩
    exact absurd hrange (by decide)
  · exact hjson (by decide) (by decide +kernel)
  · exact hbinary (by decide) hsized (by decide +kernel)
  · obtain ⟨v, hread⟩ := hsome .int
    exact ⟨v, hread.required, hnarrow .int .long (by decide) (by decide) v u hread.required hu⟩

end Heap
end DynamicData
