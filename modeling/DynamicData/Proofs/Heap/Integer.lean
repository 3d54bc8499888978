import DynamicData.Heap.Read
import DynamicData.Proofs.Heap.Unfolding
import DynamicData.Proofs.Number.Numeral
import Mathlib.Data.Int.ModEq
import Mathlib.Order.MinMax

/-!
# Numbers read as integers

A node can be read as an integer of 32 or 64 bits, signed or unsigned. What becomes of its
number depends on where the number comes from. An integer node wraps: the read finds the
value of the type that differs from the integer by a multiple of the size of the type. A text
is never wrapped: it has to be in range. A double is never refused: it is cut and clamped,
so the narrower read is the wider one clamped once more.

`IntegerType` lists the four types, so that each law is stated once. What is special about a
type is its range and how integers are wrapped into it.
-/

namespace DynamicData

/-! ## The integer types -/

/-- The integer types that nodes can be read as. -/
inductive IntegerType
  | int
  | unsignedInt
  | long
  | unsignedLong
  deriving DecidableEq, Repr

namespace IntegerType

/-- The values of a type. -/
def Carrier : IntegerType → Type
  | .int => Int32
  | .unsignedInt => UInt32
  | .long => Int64
  | .unsignedLong => UInt64

/-- The reads of a type. -/
def target : (w : IntegerType) → Target w.Carrier
  | .int => .int
  | .unsignedInt => .unsignedInt
  | .long => .long
  | .unsignedLong => .unsignedLong

/-- The integer that a value stands for. -/
def toInt : (w : IntegerType) → w.Carrier → Int
  | .int => Int32.toInt
  | .unsignedInt => fun v => UInt32.toNat v
  | .long => Int64.toInt
  | .unsignedLong => fun v => UInt64.toNat v

/-- The value that an integer wraps to. -/
def ofInt : (w : IntegerType) → Int → w.Carrier
  | .int => Int32.ofInt
  | .unsignedInt => UInt32.ofInt
  | .long => Int64.ofInt
  | .unsignedLong => UInt64.ofInt

/-- The width of a type. -/
def bits : IntegerType → Nat
  | .int | .unsignedInt => 32
  | .long | .unsignedLong => 64

/-- The least integer of a type. -/
def low : IntegerType → Int
  | .int => -2 ^ 31
  | .long => -2 ^ 63
  | .unsignedInt | .unsignedLong => 0

/-- The greatest integer of a type. -/
def high : IntegerType → Int
  | .int => 2 ^ 31 - 1
  | .unsignedInt => 2 ^ 32 - 1
  | .long => 2 ^ 63 - 1
  | .unsignedLong => 2 ^ 64 - 1

/-- The numerals of a type. -/
def read? : IntegerType → String → Option Int
  | .int | .long => Numeral.signed?
  | .unsignedInt | .unsignedLong => fun s => (Numeral.unsigned? s).map Int.ofNat

variable (w : IntegerType)

/-- All four types are read by one rule. -/
theorem target_eq :
    w.target = .integer w.target.name w.low w.high w.read? w.ofInt := by
  cases w <;> rfl

theorem toInt_mem (v : w.Carrier) : w.low ≤ w.toInt v ∧ w.toInt v ≤ w.high := by
  cases w
  · exact ⟨Int32.le_toInt v, Int.le_sub_one_of_lt (Int32.toInt_lt v)⟩
  · have := UInt32.toNat_lt v
    simp only [low, high, toInt]
    omega
  · exact ⟨Int64.le_toInt v, Int.le_sub_one_of_lt (Int64.toInt_lt v)⟩
  · have := UInt64.toNat_lt v
    simp only [low, high, toInt]
    omega

theorem toInt_ofInt_modEq (n : Int) : w.toInt (w.ofInt n) ≡ n [ZMOD 2 ^ w.bits] := by
  cases w
  · show (Int32.ofInt n).toInt % 2 ^ 32 = n % 2 ^ 32
    rw [Int32.toInt_ofInt]
    exact Int.bmod_emod
  · show ((UInt32.ofNat (n % 2 ^ 32).toNat).toNat : Int) % 2 ^ 32 = n % 2 ^ 32
    rw [UInt32.toNat_ofNat']
    omega
  · show (Int64.ofInt n).toInt % 2 ^ 64 = n % 2 ^ 64
    rw [Int64.toInt_ofInt]
    exact Int.bmod_emod
  · show ((UInt64.ofNat (n % 2 ^ 64).toNat).toNat : Int) % 2 ^ 64 = n % 2 ^ 64
    rw [UInt64.toNat_ofNat']
    omega

theorem toInt_injective {a b : w.Carrier} (h : w.toInt a = w.toInt b) : a = b := by
  cases w
  · exact Int32.toInt_inj.mp h
  · exact UInt32.toNat_inj.mp (Int.ofNat_inj.mp h)
  · exact Int64.toInt_inj.mp h
  · exact UInt64.toNat_inj.mp (Int.ofNat_inj.mp h)

theorem high_sub_low : w.high - w.low < 2 ^ w.bits := by
  cases w <;> decide

variable {w}

/-- No two integers of a type differ by a multiple of its size. -/
theorem eq_of_modEq {a b : Int} (ha : w.low ≤ a ∧ a ≤ w.high) (hb : w.low ≤ b ∧ b ≤ w.high)
    (h : a ≡ b [ZMOD 2 ^ w.bits]) : a = b := by
  have hsize := w.high_sub_low
  have hdvd := Int.modEq_iff_dvd.mp h
  have hzero : b - a = 0 := Int.eq_zero_of_abs_lt_dvd hdvd (by rw [abs_lt]; omega)
  omega

/-- An integer wraps to the one value that differs from it by a multiple of the size. -/
theorem eq_ofInt_iff {v : w.Carrier} {n : Int} :
    v = w.ofInt n ↔ w.toInt v ≡ n [ZMOD 2 ^ w.bits] := by
  constructor
  · rintro rfl
    exact w.toInt_ofInt_modEq n
  · intro h
    have hmod := h.trans (w.toInt_ofInt_modEq n).symm
    exact w.toInt_injective (eq_of_modEq (w.toInt_mem v) (w.toInt_mem _) hmod)

theorem toInt_ofInt {n : Int} (hn : w.low ≤ n ∧ n ≤ w.high) : w.toInt (w.ofInt n) = n :=
  eq_of_modEq (w.toInt_mem _) hn (w.toInt_ofInt_modEq n)

theorem exists_toInt_eq_iff {n : Int} :
    (∃ v, w.toInt v = n) ↔ w.low ≤ n ∧ n ≤ w.high := by
  constructor
  · rintro ⟨v, rfl⟩
    exact w.toInt_mem v
  · exact fun hn => ⟨w.ofInt n, toInt_ofInt hn⟩

/-! ## Texts -/

/-- The text of an integer that a type can read denotes this integer. A type that cannot
read it has no negative integers. -/
theorem read?_toString (w : IntegerType) (n : Int) :
    w.read? (toString n) = some n ∨ w.read? (toString n) = none ∧ n < w.low := by
  cases w with
  | int => exact .inl (Numeral.signed?_toString n)
  | long => exact .inl (Numeral.signed?_toString n)
  | unsignedInt | unsignedLong =>
      simp only [read?, low, Numeral.unsigned?_toString]
      by_cases hn : 0 ≤ n
      · rw [if_pos hn]
        exact .inl (congrArg some (Int.toNat_of_nonneg hn))
      · rw [if_neg hn]
        exact .inr ⟨rfl, Int.not_le.mp hn⟩

/-- Of the texts of integers a type reads those of its own integers. -/
theorem ofText_toString (w : IntegerType) (n : Int) : w.target.ofText (toString n) =
    if w.low ≤ n ∧ n ≤ w.high then some (w.ofInt n) else none := by
  rw [target_eq]
  show ((w.read? (toString n)).filter _).map w.ofInt = _
  rcases w.read?_toString n with h | ⟨h, hlow⟩
  · rw [h, Option.filter_some]
    simp only [decide_eq_true_eq]
    split <;> rfl
  · rw [h, if_neg (fun hn => Int.not_le.mpr hlow hn.1)]
    rfl

end IntegerType

/-! ## Clamping -/

/-- Clamping to a range around zero and then to a narrower one is clamping to this one. -/
theorem Binary64.clampTo_clampTo {low low' high' high : Int} (hlow : low ≤ low')
    (hlow' : low' ≤ 0) (hhigh' : 0 ≤ high') (hhigh : high' ≤ high) (x : Binary64) :
    x.clampTo low' high' = max low' (min high' (x.clampTo low high)) := by
  unfold clampTo
  split
  · omega
  · split
    · split <;> omega
    · omega

theorem Binary64.clampTo_mem {low high : Int} (hlow : low ≤ 0) (hhigh : 0 ≤ high)
    (x : Binary64) : low ≤ x.clampTo low high ∧ x.clampTo low high ≤ high := by
  unfold clampTo
  split
  · exact ⟨hlow, hhigh⟩
  · split
    · split <;> omega
    · omega

namespace IntegerType

theorem zero_mem (w : IntegerType) : w.low ≤ 0 ∧ 0 ≤ w.high := by
  cases w <;> decide

/-- What is clamped to the range of a type is not wrapped. -/
theorem toInt_ofInt_clampTo (w : IntegerType) (x : Binary64) :
    w.toInt (w.ofInt (x.clampTo w.low w.high)) = x.clampTo w.low w.high :=
  toInt_ofInt (Binary64.clampTo_mem w.zero_mem.1 w.zero_mem.2 x)

end IntegerType

/-! ## Conversions -/

namespace Heap

variable {α : Type} (h : Heap)

theorem coerce_integer (w : IntegerType) (location : Location) {node : Node} {n : Int}
    (hn : node.numeric? = some (.integer n)) :
    h.coerce w.target location node = .ok (w.ofInt n) := by
  rw [w.target_eq]
  cases node <;> cases hn <;> rfl

theorem coerce_float (w : IntegerType) (location : Location) (x : Binary64) :
    h.coerce w.target location (.float x) = .ok (w.ofInt (x.clampTo w.low w.high)) := by
  rw [w.target_eq]
  rfl

theorem coerce_toString (w : IntegerType) (location : Location) (n : Int) :
    h.coerce w.target location (.text (toString n)) =
      if w.low ≤ n ∧ n ≤ w.high then .ok (w.ofInt n)
      else .error (.invalidText location w.target.name (toString n)) := by
  have hexact : w.target.exact h (.text (toString n)) = none := by
    rw [w.target_eq]
    rfl
  simp only [coerce, hexact, w.ofText_toString]
  by_cases hn : w.low ≤ n ∧ n ≤ w.high
  · rw [if_pos hn, if_pos hn]
  · rw [if_neg hn, if_neg hn]

theorem coerce_string_integer (location : Location) {node : Node} {n : Int}
    (hn : node.numeric? = some (.integer n)) :
    h.coerce .string location node = .ok (toString n) := by
  have hnatural : (h.tree node).natural = toString n := by
    cases node <;> cases hn
    · rw [tree_int]
      rfl
    · rw [tree_uint]
      rfl
  exact congrArg Except.ok hnatural

/-! ## Reads -/

/-- The three reads of a place come to the same outcome. -/
structure Reads (t : Target α) (p : Place) (outcome : Except DataError α) : Prop where
  required : h.get t p = outcome
  fallback : ∀ f, h.getOr t f p = outcome
  optional : h.opt t p = outcome.map some

variable {h}

/-- A value that is there is converted by all three. -/
theorem reads_of_lookup {p : Place} {n : Node} (hn : h.lookup p = some n)
    (hnull : n.isNull = false) (t : Target α) : h.Reads t p (h.coerce t p.location n) := by
  constructor
  · unfold get
    rw [hn]
    cases n <;> first | rfl | cases hnull
  · intro f
    unfold getOr
    rw [hn]
    cases n <;> first | rfl | cases hnull
  · unfold opt
    rw [hn]
    cases n <;> first | rfl | cases hnull

/-- An integer node is read as its decimal text and as the integer that it wraps to. -/
theorem reads_of_integer {p : Place} {node : Node} {n : Int} (hp : h.lookup p = some node)
    (hn : node.numeric? = some (.integer n)) : h.Reads .string p (.ok (toString n)) ∧
      ∀ w : IntegerType, h.Reads w.target p (.ok (w.ofInt n)) := by
  have hnull : node.isNull = false := by cases node <;> first | rfl | cases hn
  refine ⟨?_, fun w => ?_⟩
  · rw [← h.coerce_string_integer p.location hn]
    exact reads_of_lookup hp hnull _
  · rw [← h.coerce_integer w p.location hn]
    exact reads_of_lookup hp hnull _

/-- A decimal text is read as its integer where it is in range, and is invalid elsewhere. -/
theorem reads_of_toString {p : Place} {n : Int} (hp : h.lookup p = some (.text (toString n)))
    (w : IntegerType) : h.Reads w.target p (if w.low ≤ n ∧ n ≤ w.high then .ok (w.ofInt n)
      else .error (.invalidText p.location w.target.name (toString n))) := by
  rw [← h.coerce_toString w p.location n]
  exact reads_of_lookup hp rfl _

/-- A double is read as its integer part, clamped. -/
theorem reads_of_float {p : Place} {x : Binary64} (hp : h.lookup p = some (.float x))
    (w : IntegerType) : h.Reads w.target p (.ok (w.ofInt (x.clampTo w.low w.high))) := by
  rw [← h.coerce_float w p.location x]
  exact reads_of_lookup hp rfl _

/-- As a narrower type a double is read as what it is as a wider one, clamped. -/
theorem get_float_narrow {p : Place} {x : Binary64} (hp : h.lookup p = some (.float x))
    {narrow wide : IntegerType} (hlow : wide.low ≤ narrow.low) (hhigh : narrow.high ≤ wide.high)
    {v : narrow.Carrier} {u : wide.Carrier} (hv : h.get narrow.target p = .ok v)
    (hu : h.get wide.target p = .ok u) :
    narrow.toInt v = max narrow.low (min narrow.high (wide.toInt u)) := by
  rw [(reads_of_float hp narrow).required] at hv
  rw [(reads_of_float hp wide).required] at hu
  cases hv
  cases hu
  rw [IntegerType.toInt_ofInt_clampTo, IntegerType.toInt_ofInt_clampTo]
  exact Binary64.clampTo_clampTo hlow narrow.zero_mem.1 narrow.zero_mem.2 hhigh x

end Heap
end DynamicData
