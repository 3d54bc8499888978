import DynamicData.Proofs.Number.Decimal

/-!
# The shortest decimal reads back

Of seventeen digits the nearest neighbour of a double is near enough to be rounded to
it. So the search ends on some grid, and its result is read as the double that it was
made from. It also has few digits and a moderate exponent, whatever the double.
-/

namespace DynamicData.Binary64

/-! ## The leading digit -/

theorem lt_pow_length_toDigits (n : Nat) : n < 10 ^ (Nat.toDigits 10 n).length :=
  (Nat.length_toDigits_le_iff (by decide) Nat.length_toDigits_pos).mp (Nat.le_refl _)

theorem pow_length_toDigits_le {n : Nat} (hn : 0 < n) :
    10 ^ ((Nat.toDigits 10 n).length - 1) ≤ n := by
  apply Nat.le_of_not_lt
  intro hlt
  have hlength : 0 < (Nat.toDigits 10 n).length := Nat.length_toDigits_pos
  by_cases hone : (Nat.toDigits 10 n).length = 1
  · rw [hone] at hlt
    omega
  · have := (Nat.length_toDigits_le_iff (k := (Nat.toDigits 10 n).length - 1)
      (by decide : 1 < 10) (by omega)).mpr hlt
    omega

theorem one_pos : 0 < one := by
  have h := Nat.two_pow_pos 1074
  rwa [← one] at h

/-- The scale at which the digits of a value are counted. -/
def scale : Nat := 10 ^ 340

/-- Two to the 93rd is a little less than ten to the 28th. The exponents are variables, here
and in the other bounds: with the numerals in their place the powers would be computed. -/
theorem two_pow_lt_ten_pow (j k n : Nat) (hj : j ≤ 93 * n + 1) (hk : 28 * n < k) :
    2 ^ j < 10 ^ k :=
  calc 2 ^ j ≤ 2 ^ (93 * n + 1) := Nat.pow_le_pow_right (by decide) hj
    _ = 2 * (2 ^ 93) ^ n := by rw [Nat.pow_add_one', Nat.pow_mul]
    _ ≤ 2 * (10 ^ 28) ^ n := Nat.mul_le_mul_left 2 (Nat.pow_le_pow_left (by decide) n)
    _ < 10 * (10 ^ 28) ^ n :=
        Nat.mul_lt_mul_of_pos_right (by decide) (Nat.pow_pos (Nat.pow_pos (by decide)))
    _ = 10 ^ (28 * n + 1) := by rw [← Nat.pow_mul, ← Nat.pow_add_one']
    _ ≤ 10 ^ k := Nat.pow_le_pow_right (by decide) hk

theorem one_le_scale : one ≤ scale := by
  rw [one, scale]
  exact Nat.le_of_lt (two_pow_lt_ten_pow 1074 340 12 (by decide) (by decide))

/-- How many digits are before the point of the scaled value. -/
def scaledDigits (units : Nat) : Nat :=
  (Nat.toDigits 10 (scale * units / one)).length

theorem leadingExponent_eq (units : Nat) :
    leadingExponent units = (scaledDigits units : Int) - 341 := by
  rw [leadingExponent, scaledDigits, scale]

theorem scaledDigits_pos (units : Nat) : 0 < scaledDigits units :=
  Nat.length_toDigits_pos

theorem pow_mul_one_le {units : Nat} (hu : 0 < units) :
    10 ^ (scaledDigits units - 1) * one ≤ scale * units := by
  have hpos : 0 < scale * units / one :=
    Nat.div_pos (Nat.le_trans one_le_scale (Nat.le_mul_of_pos_right _ hu)) one_pos
  exact (Nat.le_div_iff_mul_le one_pos).mp (pow_length_toDigits_le hpos)

theorem lt_pow_mul_one (units : Nat) : scale * units < 10 ^ scaledDigits units * one :=
  (Nat.div_lt_iff_lt_mul one_pos).mp (lt_pow_length_toDigits _)

/-! ## Grids -/

/-- The value in steps of a power of ten, powers of ten on either side. -/
theorem inSteps_mul {units num den i j : Nat} {step : Int} (h : inSteps units step = (num, den))
    (hstep : step = i - j) : num * (one * 10 ^ i) = units * 10 ^ j * den := by
  unfold inSteps at h
  by_cases hsign : 0 ≤ step
  · rw [if_pos hsign] at h
    cases h
    have hi : i = j + step.toNat := by omega
    rw [hi, Nat.pow_add, Nat.mul_assoc, ← Nat.mul_assoc one, Nat.mul_comm one, Nat.mul_assoc]
  · rw [if_neg hsign] at h
    cases h
    have hj : j = (-step).toNat + i := by omega
    rw [hj, Nat.pow_add, Nat.mul_comm one, ← Nat.mul_assoc, ← Nat.mul_assoc]

theorem inSteps_pos {units num den : Nat} {step : Int} (h : inSteps units step = (num, den)) :
    0 < den := by
  unfold inSteps at h
  split at h
  · cases h
    exact Nat.mul_pos one_pos (Nat.pow_pos (by decide))
  · cases h
    exact one_pos

theorem grid_bounds {o s u x x' c den num : Nat} (hx : 10 * x' = x) (hlow : x' * o ≤ s * u)
    (hhigh : s * u < x * o) (hmul : num * (o * x) = u * (s * c) * den) (hc : 0 < c * den)
    (hpos : 0 < o * x) : c * den ≤ 10 * num ∧ num < c * den := by
  constructor
  · refine Nat.le_of_mul_le_mul_right ?_ hpos
    calc c * den * (o * x) = 10 * (x' * o) * (c * den) := by
          rw [← hx]
          ac_rfl
      _ ≤ 10 * (s * u) * (c * den) := Nat.mul_le_mul_right _ (Nat.mul_le_mul_left 10 hlow)
      _ = 10 * num * (o * x) := by
          rw [Nat.mul_assoc 10 num, hmul]
          ac_rfl
  · apply Nat.lt_of_mul_lt_mul_right (a := o * x)
    calc num * (o * x) = s * u * (c * den) := by
          rw [hmul]
          ac_rfl
      _ < x * o * (c * den) := Nat.mul_lt_mul_of_pos_right hhigh hc
      _ = c * den * (o * x) := by ac_rfl

/-- In steps of the grid of `count` digits the value has `count` digits before the
point. -/
theorem inSteps_bounds {units count num den : Nat} (hu : 0 < units)
    (h : inSteps units (leadingExponent units + 1 - count) = (num, den)) :
    10 ^ count * den ≤ 10 * num ∧ num < 10 ^ count * den := by
  have hten : ∀ k, 0 < 10 ^ k := fun k => Nat.pow_pos (by decide)
  have hpow : 10 * 10 ^ (scaledDigits units - 1) = 10 ^ scaledDigits units := by
    rw [← Nat.pow_add_one', Nat.sub_add_cancel (scaledDigits_pos units)]
  have hmul : num * (one * 10 ^ scaledDigits units) = units * (scale * 10 ^ count) * den := by
    have hscale : scale * 10 ^ count = 10 ^ (340 + count) := by
      rw [Nat.pow_add, scale]
    rw [hscale]
    apply inSteps_mul h
    rw [leadingExponent_eq]
    omega
  exact grid_bounds hpow (pow_mul_one_le hu) (lt_pow_mul_one units) hmul
    (Nat.mul_pos (hten count) (inSteps_pos h)) (Nat.mul_pos one_pos (hten _))

/-! ## Neighbours -/

/-- The exponent of the grid of `count` digits. -/
def gridExponent (units count : Nat) : Int :=
  leadingExponent units + 1 - count

/-- The decimal of `n` steps on the grid of `count` digits. A power of ten is written
with one digit. -/
def onGrid (units count n : Nat) : Decimal :=
  if n = 10 ^ count then ⟨1, gridExponent units count + count⟩ else ⟨n, gridExponent units count⟩

/-- The order of two neighbours, `q` and `r` being the quotient and the remainder. -/
def nearestFirst {α : Type} (tie : Tie) (q r den : Nat) (lower upper : α) : List α :=
  if r = 0 then [lower]
  else if 2 * r < den then [lower, upper]
  else if den < 2 * r then [upper, lower]
  else match tie with
    | .up => [upper, lower]
    | .even => if q % 2 = 0 then [lower, upper] else [upper, lower]

theorem nearestFirst_cases {α : Type} (tie : Tie) (q r den : Nat) (lower upper : α) :
    (2 * r ≤ den ∧ ∃ rest ⊆ [upper], nearestFirst tie q r den lower upper = lower :: rest) ∨
      den ≤ 2 * r ∧ nearestFirst tie q r den lower upper = [upper, lower] := by
  unfold nearestFirst
  by_cases hzero : r = 0
  · rw [if_pos hzero, hzero]
    exact .inl ⟨Nat.zero_le _, [], List.nil_subset _, rfl⟩
  rw [if_neg hzero]
  by_cases hbelow : 2 * r < den
  · rw [if_pos hbelow]
    exact .inl ⟨Nat.le_of_lt hbelow, [upper], List.Subset.refl _, rfl⟩
  rw [if_neg hbelow]
  by_cases habove : den < 2 * r
  · rw [if_pos habove]
    exact .inr ⟨Nat.le_of_lt habove, rfl⟩
  rw [if_neg habove]
  have heq : 2 * r = den := Nat.le_antisymm (Nat.le_of_not_lt habove) (Nat.le_of_not_lt hbelow)
  cases tie with
  | up => exact .inr ⟨Nat.le_of_eq heq.symm, rfl⟩
  | even =>
      dsimp only
      by_cases heven : q % 2 = 0
      · rw [if_pos heven]
        exact .inl ⟨Nat.le_of_eq heq, [upper], List.Subset.refl _, rfl⟩
      · rw [if_neg heven]
        exact .inr ⟨Nat.le_of_eq heq.symm, rfl⟩

/-- The neighbours are the numbers of steps next to the value, the nearer one first. -/
theorem neighbours_eq (tie : Tie) {units count num den : Nat} (hu : 0 < units)
    (h : inSteps units (gridExponent units count) = (num, den)) :
    neighbours tie units count = nearestFirst tie (num / den) (num % den) den
      (onGrid units count (num / den)) (onGrid units count (num / den + 1)) := by
  have hlt : num / den < 10 ^ count :=
    (Nat.div_lt_iff_lt_mul (inSteps_pos h)).mpr (inSteps_bounds hu h).2
  have hlower : onGrid units count (num / den) = ⟨num / den, gridExponent units count⟩ :=
    if_neg (Nat.ne_of_lt hlt)
  rw [hlower, onGrid, neighbours, ← gridExponent, h]
  cases tie <;> rfl

/-- The first neighbour is at most half a step away. -/
theorem exists_nearest (tie : Tie) {units count num den : Nat} (hu : 0 < units)
    (h : inSteps units (gridExponent units count) = (num, den)) :
    ∃ n rest, neighbours tie units count = onGrid units count n :: rest ∧
      2 * (n * den) ≤ 2 * num + den ∧ 2 * num ≤ 2 * (n * den) + den := by
  have hnum := Nat.div_add_mod' num den
  have hmod := Nat.mod_lt num (inSteps_pos h)
  have hnext : (num / den + 1) * den = num / den * den + den := Nat.succ_mul _ _
  rw [neighbours_eq tie hu h]
  rcases nearestFirst_cases tie (num / den) (num % den) den (onGrid units count (num / den))
    (onGrid units count (num / den + 1)) with ⟨hle, rest, _, hlist⟩ | ⟨hle, hlist⟩
  · exact ⟨num / den, rest, hlist, by omega, by omega⟩
  · exact ⟨num / den + 1, _, hlist, by omega, by omega⟩

/-- No neighbour has more steps than a power of ten. -/
theorem exists_steps_of_mem (tie : Tie) {units count : Nat} (hu : 0 < units) {d : Decimal}
    (hd : d ∈ neighbours tie units count) : ∃ n ≤ 10 ^ count, d = onGrid units count n := by
  obtain ⟨⟨num, den⟩, h⟩ : ∃ r, inSteps units (gridExponent units count) = r := ⟨_, rfl⟩
  have hlt : num / den < 10 ^ count :=
    (Nat.div_lt_iff_lt_mul (inSteps_pos h)).mpr (inSteps_bounds hu h).2
  rw [neighbours_eq tie hu h] at hd
  have hpair : d = onGrid units count (num / den) ∨ d = onGrid units count (num / den + 1) := by
    rcases nearestFirst_cases tie (num / den) (num % den) den (onGrid units count (num / den))
      (onGrid units count (num / den + 1)) with ⟨_, rest, hrest, hlist⟩ | ⟨_, hlist⟩
    · rw [hlist, List.mem_cons] at hd
      exact hd.imp_right fun hmem => List.mem_singleton.mp (hrest hmem)
    · rw [hlist, List.mem_cons, List.mem_singleton] at hd
      exact hd.symm
  rcases hpair with rfl | rfl
  · exact ⟨num / den, Nat.le_of_lt hlt, rfl⟩
  · exact ⟨num / den + 1, hlt, rfl⟩

/-! ## Sizes -/

theorem unitsOf_pos {m : Nat} (hm : 0 < m) : 0 < unitsOf m := by
  obtain ⟨s, c, rfl, hunits, hc, hs⟩ := exists_significand m
  rw [hunits]
  refine Nat.mul_pos ?_ (Nat.two_pow_pos s)
  omega

theorem two_pow_le_mul (i j k : Nat) (h : k ≤ i + j) : 2 ^ k ≤ 2 ^ i * 2 ^ j := by
  rw [← Nat.pow_add]
  exact Nat.pow_le_pow_right Nat.two_pos h

/-- Finite doubles are less than `2 ^ 1024`, and so less than `10 ^ 309`. -/
theorem unitsOf_lt {m : Nat} (hm : m < infinityBits) : unitsOf m < 10 ^ 309 * one := by
  obtain ⟨s, c, rfl, hunits, hc, hs⟩ := exists_significand m
  have hexponent : 53 + s ≤ 1024 + 1074 := by
    unfold infinityBits at hm
    omega
  have hten := two_pow_lt_ten_pow 1024 309 11 (by decide) (by decide)
  have hmul := Nat.mul_le_mul_right (2 ^ 1074) (Nat.le_of_lt hten)
  rw [hunits, one]
  calc c * 2 ^ s < 2 ^ 53 * 2 ^ s := Nat.mul_lt_mul_of_pos_right hc (Nat.two_pow_pos s)
    _ = 2 ^ (53 + s) := (Nat.pow_add 2 53 s).symm
    _ ≤ 2 ^ 1024 * 2 ^ 1074 := two_pow_le_mul 1024 1074 (53 + s) hexponent
    _ ≤ 10 ^ 309 * 2 ^ 1074 := hmul

theorem scale_mul_lt (units j k : Nat) (hunits : units < 10 ^ j * one) (hk : 340 + j ≤ k) :
    scale * units < 10 ^ k * one := by
  have hpow : scale * 10 ^ j ≤ 10 ^ k := by
    rw [scale, ← Nat.pow_add 10 340 j]
    exact Nat.pow_le_pow_right (by decide) hk
  calc scale * units < scale * (10 ^ j * one) :=
        Nat.mul_lt_mul_of_pos_left hunits (Nat.lt_of_lt_of_le one_pos one_le_scale)
    _ = scale * 10 ^ j * one := by rw [Nat.mul_assoc]
    _ ≤ 10 ^ k * one := Nat.mul_le_mul_right one hpow

theorem scaledDigits_le {m : Nat} (hm : m < infinityBits) : scaledDigits (unitsOf m) ≤ 649 := by
  apply (Nat.length_toDigits_le_iff (by decide) (by decide)).mpr
  rw [Nat.div_lt_iff_lt_mul one_pos]
  exact scale_mul_lt (unitsOf m) 309 649 (unitsOf_lt hm) (by decide)

/-- The exponents of the grids of a finite double. -/
theorem gridExponent_bounds {m : Nat} (hm : m < infinityBits) (count : Nat) :
    -339 - count ≤ gridExponent (unitsOf m) count ∧
      gridExponent (unitsOf m) count + count ≤ 309 := by
  have hpos := scaledDigits_pos (unitsOf m)
  have hle := scaledDigits_le hm
  rw [gridExponent, leadingExponent_eq]
  omega

/-! ## Reading back -/

/-- Steps and the fraction of a decimal are two views of one value. -/
theorem inSteps_ratio {units num den : Nat} {step : Int} (h : inSteps units step = (num, den))
    (n : Nat) : num = units * (ratio n step).2 ∧ n * den = (ratio n step).1 * one := by
  unfold inSteps at h
  unfold ratio
  by_cases hsign : 0 ≤ step
  · rw [if_pos hsign] at h ⊢
    cases h
    refine ⟨(Nat.mul_one _).symm, ?_⟩
    rw [Nat.mul_comm one, Nat.mul_assoc]
  · rw [if_neg hsign] at h ⊢
    cases h
    exact ⟨rfl, rfl⟩

/-- A decimal of the grid is read as its fraction. -/
theorem ofDecimal_onGrid {m : Nat} (hm : m < infinityBits) {count n : Nat} (hcount : count ≤ 17)
    (hn : n ≠ 0) :
    ofDecimal false (onGrid (unitsOf m) count n).digits (onGrid (unitsOf m) count n).exponent =
      ofSign false (ofRatio (ratio n (gridExponent (unitsOf m) count)).1
        (ratio n (gridExponent (unitsOf m) count)).2) := by
  obtain ⟨hlow, hhigh⟩ := gridExponent_bounds hm count
  unfold onGrid
  by_cases hten : n = 10 ^ count
  · rw [if_pos hten]
    have hscale := ofRatio_ratio_mul_pow 1 count (gridExponent (unitsOf m) count)
    rw [Nat.one_mul, ← hten] at hscale
    rw [hscale]
    exact ofDecimal_eq_ofRatio false Nat.one_ne_zero (by dsimp only; omega)
      (by dsimp only; omega)
  · rw [if_neg hten]
    exact ofDecimal_eq_ofRatio false hn (by dsimp only; omega) (by dsimp only; omega)

/-- Half a step of the grid of seventeen digits is near. -/
theorem near_of_half_step {num den n : Nat} (hdigits : 10 ^ 17 * den ≤ 10 * num)
    (hlow : 2 * (n * den) ≤ 2 * num + den) (hhigh : 2 * num ≤ 2 * (n * den) + den) :
    num * (2 ^ 54 - 1) ≤ n * den * 2 ^ 54 ∧ n * den * 2 ^ 54 ≤ num * (2 ^ 54 + 1) := by
  generalize n * den = y at hlow hhigh ⊢
  have hden : 2 ^ 54 * den ≤ 2 * num := by omega
  constructor <;> omega

/-- The nearest decimal of seventeen digits reads back. -/
theorem readsAs_nearest {m n num den : Nat} (hm0 : 0 < m) (hm : m < infinityBits)
    (h : inSteps (unitsOf m) (gridExponent (unitsOf m) 17) = (num, den))
    (hlow : 2 * (n * den) ≤ 2 * num + den) (hhigh : 2 * num ≤ 2 * (n * den) + den) :
    readsAs m (onGrid (unitsOf m) 17 n) = true := by
  have hden := inSteps_pos h
  have hdigits := (inSteps_bounds (unitsOf_pos hm0) h).1
  have hn : n ≠ 0 := by
    rintro rfl
    rw [Nat.zero_mul] at hhigh
    omega
  obtain ⟨hnear, hnear'⟩ := near_of_half_step hdigits hlow hhigh
  obtain ⟨hnum, hvalue⟩ := inSteps_ratio h n
  rw [hnum, hvalue] at hnear hnear'
  unfold readsAs
  rw [ofDecimal_onGrid hm (Nat.le_refl 17) hn, ofRatio_of_near hm (ratio_pos _ _) hnear hnear']
  exact decide_eq_true rfl

/-- What the search for the shortest decimal promises. -/
structure ReadsBack (m : Nat) (d : Decimal) : Prop where
  read : ofDecimal false d.digits d.exponent = ofSign false m
  digits : d.digits ≤ 10 ^ 17
  low : -356 ≤ d.exponent
  high : d.exponent ≤ 309

theorem readsBack_of_mem {tie : Tie} {m count : Nat} (hm0 : 0 < m) (hm : m < infinityBits)
    (hcount : count ≤ 17) {d : Decimal} (hd : d ∈ neighbours tie (unitsOf m) count)
    (hread : readsAs m d = true) : ReadsBack m d := by
  obtain ⟨n, hn, rfl⟩ := exists_steps_of_mem tie (unitsOf_pos hm0) hd
  obtain ⟨hlow, hhigh⟩ := gridExponent_bounds hm count
  have hpow : 10 ^ count ≤ 10 ^ 17 := Nat.pow_le_pow_right (by decide) hcount
  refine ⟨of_decide_eq_true hread, ?_, ?_, ?_⟩ <;> unfold onGrid <;> split
  · exact Nat.pow_pos (by decide)
  · exact Nat.le_trans hn hpow
  all_goals dsimp only; omega

/-- The search ends at the latest on the grid of seventeen digits. -/
theorem readsBack_shortestFrom {tie : Tie} {m : Nat} (hm0 : 0 < m) (hm : m < infinityBits)
    {grids count : Nat} (hlast : count + grids = 17) :
    ReadsBack m (shortestFrom tie m (grids + 1) count) := by
  induction grids generalizing count with
  | zero =>
      -- the nearest neighbour comes first on the last grid, and it reads back
      obtain rfl : count = 17 := hlast
      obtain ⟨⟨num, den⟩, h⟩ :
        ∃ r, inSteps (unitsOf m) (gridExponent (unitsOf m) 17) = r := ⟨_, rfl⟩
      obtain ⟨n, rest, hlist, hlow, hhigh⟩ := exists_nearest tie (unitsOf_pos hm0) h
      have hread := readsAs_nearest hm0 hm h hlow hhigh
      have hmem : onGrid (unitsOf m) 17 n ∈ neighbours tie (unitsOf m) 17 := by
        rw [hlist]
        exact List.mem_cons_self
      rw [shortestFrom, hlist, List.find?_cons_of_pos hread]
      exact readsBack_of_mem hm0 hm (Nat.le_refl 17) hmem hread
  | succ grids ih =>
      rw [shortestFrom]
      split
      · rename_i d hfind
        exact readsBack_of_mem hm0 hm (by omega) (List.mem_of_find?_eq_some hfind)
          (List.find?_some hfind)
      · exact ih (by omega)

theorem readsBack_shortest (tie : Tie) {m : Nat} (hm0 : 0 < m) (hm : m < infinityBits) :
    ReadsBack m (shortest tie m) :=
  readsBack_shortestFrom hm0 hm rfl

end DynamicData.Binary64
