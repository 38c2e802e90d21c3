import Conformance.Number
import Mathlib.Tactic.FieldSimp
import Mathlib.Tactic.Linarith
import Mathlib.Tactic.Positivity
import Mathlib.Tactic.Ring

/-!
# Rounding to the nearest double

A double has an exact rational value, and rounding is described against it: a number from
half a gap beyond the greatest double on rounds to nothing, and every other one to a double
that no other is nearer to. The argument compares whole multiples of one power of two. Below
the scale of the number the grid is finer, but its doubles lie farther away; at or above that
scale every double is a multiple, and of these the coefficient that rounding gives is nearest.
-/

namespace Conformance.Binary64

/-- One, counted in units, as a rational number. It has a name of its own, so that the power
is not computed. -/
def oneInUnits : ℚ := unitsPerOne

/-- The exact value of a double. -/
def value (x : Binary64) : ℚ := x.signedUnits / oneInUnits

/-- A double is nearest to a number: no other is nearer, and where another one is as near,
the mantissa of this one is even and that of the other odd. -/
structure NearestTo (x : Binary64) (q : ℚ) : Prop where
  /-- No double is nearer. -/
  le : ∀ y : Binary64, |x.value - q| ≤ |y.value - q|
  /-- Of two doubles at one distance this is the even one. -/
  tie : ∀ y : Binary64, y.value ≠ x.value → |y.value - q| = |x.value - q| →
    x.mantissa % 2 = 0 ∧ y.mantissa % 2 = 1

/-- Two doubles that are nearest to one number have one value. -/
theorem NearestTo.unique {x y : Binary64} {q : ℚ} (hx : x.NearestTo q) (hy : y.NearestTo q) :
    x.value = y.value := by
  by_contra hne
  have hdistance : |y.value - q| = |x.value - q| := le_antisymm (hy.le x) (hx.le y)
  have hodd := (hx.tie y (Ne.symm hne) hdistance).2
  have heven := (hy.tie x hne hdistance.symm).1
  omega

/-- A double is nearest to its own value, so it is the only one that is nearest there. -/
theorem NearestTo.value_eq {x y : Binary64} (h : x.NearestTo y.value) : x.value = y.value := by
  have hle := h.le y
  rw [sub_self, abs_zero, abs_nonpos_iff] at hle
  exact sub_eq_zero.mp hle

/-- Rounding gives a double nearest to a number, unless the number lies at least half a gap
beyond the greatest double. -/
structure Rounds (result : Option Binary64) (q : ℚ) : Prop where
  /-- Exactly the numbers below the limit round to a double. -/
  isSome_iff : result.isSome ↔ |q| < 2 ^ 1024 - 2 ^ 970
  /-- The double is nearest. -/
  nearest : ∀ x, result = some x → x.NearestTo q

section Coefficients

/-- A whole number is the coefficient of `t` at a scale: it is nearest to `t` counted in that
power of two, which fills 53 binary digits unless the scale is zero. -/
structure Coefficient (t : ℚ) (r scale : ℕ) : Prop where
  /-- The coefficient is at most one half away. -/
  near : |(r : ℚ) - t / 2 ^ scale| ≤ 1 / 2
  /-- A half went to the even neighbour. -/
  tie : |(r : ℚ) - t / 2 ^ scale| = 1 / 2 → r % 2 = 0
  /-- All digits are in use above scale zero. -/
  full : scale = 0 ∨ 2 ^ 52 ≤ t / 2 ^ scale
  /-- No more digits are in use. -/
  lt : t / 2 ^ scale < 2 ^ 53

/-- Rounding a quotient goes to a whole number at most one half away, and from one half to
the even one. -/
theorem roundHalfEven_spec (num den : ℕ) (hden : 0 < den) :
    |(roundHalfEven num den : ℚ) - num / den| ≤ 1 / 2 ∧
      (|(roundHalfEven num den : ℚ) - num / den| = 1 / 2 → roundHalfEven num den % 2 = 0) := by
  have hpos : (0 : ℚ) < den := by exact_mod_cast hden
  have hsplit : (num : ℚ) / den = (num / den : ℕ) + (num % den : ℕ) / den := by
    have hnat : (num : ℚ) = den * (num / den : ℕ) + (num % den : ℕ) := by
      exact_mod_cast (Nat.div_add_mod num den).symm
    rw [hnat]
    field_simp
  have hrest : (0 : ℚ) ≤ (num % den : ℕ) / den := by positivity
  rw [hsplit]
  unfold roundHalfEven
  generalize num / den = quotient at *
  generalize hr : num % den = rest at *
  dsimp only
  split
  · next hlow =>
    have hhalf : (rest : ℚ) / den < 1 / 2 := by
      rw [div_lt_div_iff₀ hpos two_pos]
      exact_mod_cast (by omega : rest * 2 < 1 * den)
    have hdistance : |(quotient : ℚ) - (quotient + rest / den)| = rest / den := by
      rw [sub_add_cancel_left, abs_neg, abs_of_nonneg hrest]
    rw [hdistance]
    exact ⟨hhalf.le, fun h => absurd h hhalf.ne⟩
  · next hlow =>
    split
    · next hhigh =>
      have hhalf : 1 / 2 < (rest : ℚ) / den := by
        rw [div_lt_div_iff₀ two_pos hpos]
        exact_mod_cast (by omega : 1 * den < rest * 2)
      have hone : (rest : ℚ) / den ≤ 1 := by
        rw [div_le_one hpos]
        exact_mod_cast hr ▸ (Nat.mod_lt num hden).le
      have hdistance : |((quotient + 1 : ℕ) : ℚ) - (quotient + rest / den)| = 1 - rest / den := by
        push_cast
        rw [add_sub_add_left_eq_sub, abs_of_nonneg (by linarith)]
      rw [hdistance]
      exact ⟨by linarith, fun h => by linarith⟩
    · next hhigh =>
      have hhalf : (rest : ℚ) / den = 1 / 2 := by
        rw [div_eq_div_iff hpos.ne' two_ne_zero]
        exact_mod_cast (by omega : rest * 2 = 1 * den)
      rw [hhalf]
      rcases Nat.mod_two_eq_zero_or_one quotient with heven | hodd
      · rw [heven, Nat.add_zero, sub_add_cancel_left, abs_neg]
        exact ⟨by norm_num, fun _ => heven⟩
      · rw [hodd]
        push_cast
        rw [add_sub_add_left_eq_sub]
        exact ⟨by norm_num, fun _ => by omega⟩

/-- The scale of a whole number is the least one at which it has at most 53 binary digits. -/
theorem scaleOf_spec (whole : ℕ) :
    whole < 2 ^ 53 * 2 ^ scaleOf whole ∧
      (scaleOf whole = 0 ∨ 2 ^ 52 * 2 ^ scaleOf whole ≤ whole) := by
  unfold scaleOf
  split
  · next hsmall => exact ⟨by simpa using hsmall, .inl rfl⟩
  · next hsmall =>
    have hlarge : 2 ^ 53 ≤ whole := Nat.le_of_not_lt hsmall
    have hlog : 53 ≤ whole.log2 := (Nat.le_log2 (by omega)).mpr hlarge
    rw [← Nat.pow_add, ← Nat.pow_add]
    have hlower : 52 + (whole.log2 - 52) = whole.log2 := by omega
    have hupper : 53 + (whole.log2 - 52) = whole.log2 + 1 := by omega
    rw [hlower, hupper]
    exact ⟨Nat.lt_log2_self, .inr (Nat.log2_self_le (by omega))⟩

/-- The distance of a multiple of a power of two is measured in that power. -/
theorem distance_scaled (a t : ℚ) (scale : ℕ) :
    |a * 2 ^ scale - t| = 2 ^ scale * |a - t / 2 ^ scale| := by
  have hpos : (0 : ℚ) < 2 ^ scale := by positivity
  have hsplit : a * 2 ^ scale - t = 2 ^ scale * (a - t / 2 ^ scale) := by
    field_simp
  rw [hsplit, abs_mul, abs_of_pos hpos]

variable {t : ℚ} {r scale : ℕ}

/-- Among whole numbers a coefficient is nearest. -/
theorem Coefficient.le_whole (h : Coefficient t r scale) {k : ℕ} (hne : k ≠ r) :
    |(r : ℚ) - t / 2 ^ scale| ≤ |(k : ℚ) - t / 2 ^ scale| ∧
      (|(k : ℚ) - t / 2 ^ scale| = |(r : ℚ) - t / 2 ^ scale| → r % 2 = 0 ∧ k % 2 = 1) := by
  have hgap : (1 : ℚ) ≤ |(k : ℚ) - r| := by
    exact_mod_cast Int.one_le_abs (sub_ne_zero.mpr (Nat.cast_injective.ne hne : (k : ℤ) ≠ r))
  have htriangle : |(k : ℚ) - r| ≤ |(k : ℚ) - t / 2 ^ scale| + |(r : ℚ) - t / 2 ^ scale| := by
    rw [abs_sub_comm (r : ℚ)]
    exact abs_sub_le _ _ _
  have hnear := h.near
  refine ⟨by linarith, fun heq => ?_⟩
  have heven := h.tie (by linarith)
  have hone : |(k : ℚ) - r| ≤ 1 := by linarith
  have hnext : |(k : ℤ) - r| ≤ 1 := by exact_mod_cast hone
  rw [abs_le] at hnext
  exact ⟨heven, by omega⟩

/-- A double of a smaller scale lies below all numbers that fill the mantissa at this one. -/
theorem units_lt_of_scale_lt (y : Binary64) (h : y.scale < scale) :
    y.units < 2 ^ 52 * 2 ^ scale := by
  have hpow : 2 ^ (y.scale + 1) ≤ 2 ^ scale := Nat.pow_le_pow_right two_pos h
  calc y.units < 2 ^ 53 * 2 ^ y.scale :=
        Nat.mul_lt_mul_of_pos_right y.mantissa_lt (Nat.pow_pos two_pos)
    _ = 2 ^ 52 * 2 ^ (y.scale + 1) := by ring
    _ ≤ 2 ^ 52 * 2 ^ scale := Nat.mul_le_mul_left _ hpow

/-- A double of a smaller scale is strictly farther away, since it lies below the least number
that fills the mantissa, and even that one is not nearer. -/
theorem Coefficient.lt_of_scale_lt (h : Coefficient t r scale) (y : Binary64)
    (hs : y.scale < scale) : |(r : ℚ) * 2 ^ scale - t| < |(y.units : ℚ) - t| := by
  have hpos : (0 : ℚ) < 2 ^ scale := by positivity
  have hfull : (2 : ℚ) ^ 52 ≤ t / 2 ^ scale := h.full.resolve_left (by omega)
  have hleast : |(r : ℚ) * 2 ^ scale - t| ≤ |(2 : ℚ) ^ 52 * 2 ^ scale - t| := by
    rw [distance_scaled, distance_scaled]
    refine mul_le_mul_of_nonneg_left ?_ hpos.le
    by_cases hr : 2 ^ 52 = r
    · rw [← hr]
      push_cast
      exact le_rfl
    · exact_mod_cast (h.le_whole hr).1
  have hbelow : (y.units : ℚ) < 2 ^ 52 * 2 ^ scale := by
    exact_mod_cast units_lt_of_scale_lt y hs
  have hat : (2 : ℚ) ^ 52 * 2 ^ scale ≤ t := (le_div_iff₀ hpos).mp hfull
  rw [abs_of_nonpos (by linarith : (2 : ℚ) ^ 52 * 2 ^ scale - t ≤ 0)] at hleast
  rw [abs_of_neg (by linarith : (y.units : ℚ) - t < 0)]
  linarith

/-- Among doubles the one with this coefficient is nearest, counted in units. -/
theorem Coefficient.le_units (h : Coefficient t r scale) (y : Binary64)
    (hne : y.units ≠ r * 2 ^ scale) :
    |(r : ℚ) * 2 ^ scale - t| ≤ |(y.units : ℚ) - t| ∧
      (|(y.units : ℚ) - t| = |(r : ℚ) * 2 ^ scale - t| → r % 2 = 0 ∧ y.mantissa % 2 = 1) := by
  have hpos : (0 : ℚ) < 2 ^ scale := by positivity
  rcases Nat.lt_or_ge y.scale scale with hs | hs
  · have hfar := h.lt_of_scale_lt y hs
    exact ⟨hfar.le, fun heq => absurd heq hfar.ne'⟩
  · obtain ⟨more, hmore⟩ := Nat.exists_eq_add_of_le hs
    have hunits : y.units = y.mantissa * 2 ^ more * 2 ^ scale := by
      change y.mantissa * 2 ^ y.scale = _
      rw [hmore]
      ring
    have hk : y.mantissa * 2 ^ more ≠ r := by
      rintro rfl
      exact hne hunits
    have hcast : (y.units : ℚ) = ((y.mantissa * 2 ^ more : ℕ) : ℚ) * 2 ^ scale := by
      rw [hunits]
      push_cast
      ring
    rw [hcast, distance_scaled, distance_scaled]
    obtain ⟨hle, htie⟩ := h.le_whole hk
    refine ⟨mul_le_mul_of_nonneg_left hle hpos.le, fun heq => ?_⟩
    obtain ⟨heven, hodd⟩ := htie (mul_left_cancel₀ hpos.ne' heq)
    refine ⟨heven, ?_⟩
    -- an odd multiple has no factor two, so it is the mantissa itself
    cases more with
    | zero => simpa using hodd
    | succ more =>
      rw [pow_succ, ← mul_assoc] at hodd
      omega

/-- A coefficient has at most 53 binary digits, or is the next power of two. -/
theorem Coefficient.le (h : Coefficient t r scale) : r ≤ 2 ^ 53 := by
  have hnear := (abs_le.mp h.near).2
  have hlt := h.lt
  by_contra hr
  have hbeyond : (2 : ℚ) ^ 53 + 1 ≤ r := by exact_mod_cast Nat.lt_of_not_le hr
  linarith

/-- Above scale zero a coefficient has at least 53 binary digits. -/
theorem Coefficient.ge (h : Coefficient t r scale) : scale = 0 ∨ 2 ^ 52 ≤ r := by
  refine h.full.imp_right fun hfull => ?_
  have hnear := (abs_le.mp h.near).1
  by_contra hr
  have hbelow : (r : ℚ) + 1 ≤ 2 ^ 52 := by exact_mod_cast Nat.lt_of_not_le hr
  linarith

/-- Below the greatest scale all numbers lie below half a gap beyond the greatest multiple. -/
theorem Coefficient.lt_limit (h : Coefficient t r scale) {top : ℕ} (hs : scale ≤ top) :
    t < (2 ^ 54 - 1) * 2 ^ top := by
  have hpos : (0 : ℚ) < 2 ^ scale := by positivity
  have htop : (0 : ℚ) < 2 ^ top := by positivity
  have hpow : (2 : ℚ) ^ scale ≤ 2 ^ top := pow_le_pow_right₀ one_le_two hs
  calc t < 2 ^ 53 * 2 ^ scale := (div_lt_iff₀ hpos).mp h.lt
    _ ≤ 2 ^ 53 * 2 ^ top := mul_le_mul_of_nonneg_left hpow (by positivity)
    _ ≤ (2 ^ 54 - 1) * 2 ^ top := mul_le_mul_of_nonneg_right (by norm_num) htop.le

/-- Beyond the greatest scale all numbers lie above it. -/
theorem Coefficient.limit_lt (h : Coefficient t r scale) {top : ℕ} (hs : top + 2 ≤ scale) :
    (2 ^ 54 - 1) * 2 ^ top < t := by
  have hpos : (0 : ℚ) < 2 ^ scale := by positivity
  have htop : (0 : ℚ) < 2 ^ top := by positivity
  have hpow : (2 : ℚ) ^ (top + 2) ≤ 2 ^ scale := pow_le_pow_right₀ one_le_two hs
  have hfull := h.full.resolve_left (by omega)
  calc (2 ^ 54 - 1) * 2 ^ top < (2 : ℚ) ^ 54 * 2 ^ top :=
        mul_lt_mul_of_pos_right (sub_one_lt _) htop
    _ = 2 ^ 52 * 2 ^ (top + 2) := by ring
    _ ≤ 2 ^ 52 * 2 ^ scale := mul_le_mul_of_nonneg_left hpow (by positivity)
    _ ≤ t := (le_div_iff₀ hpos).mp hfull

/-- At the greatest scale the coefficient is not the next power of two exactly if the number
lies below it. A half goes to that power, since the greatest coefficient is odd. -/
theorem Coefficient.lt_limit_iff {top : ℕ} (h : Coefficient t r (top + 1)) :
    r < 2 ^ 53 ↔ t < (2 ^ 54 - 1) * 2 ^ top := by
  have hpos : (0 : ℚ) < 2 ^ (top + 1) := by positivity
  have hhalf : t < (2 ^ 54 - 1) * 2 ^ top ↔ t / 2 ^ (top + 1) < 2 ^ 53 - 1 / 2 := by
    rw [div_lt_iff₀ hpos, pow_succ _ top]
    constructor <;> intro h <;> linarith
  have hle := h.le
  have htie := h.tie
  obtain ⟨hlow, hhigh⟩ := abs_le.mp h.near
  rw [hhalf]
  constructor
  · intro hr
    have hcast : (r : ℚ) + 1 ≤ 2 ^ 53 := by exact_mod_cast hr
    refine lt_of_le_of_ne (by linarith) fun heq => ?_
    have hgreatest : (r : ℚ) = 2 ^ 53 - 1 := by linarith
    have hodd : r + 1 = 2 ^ 53 := by exact_mod_cast (by linarith : (r : ℚ) + 1 = 2 ^ 53)
    have heven := htie (by rw [heq, hgreatest]; norm_num)
    omega
  · intro hbelow
    refine lt_of_le_of_ne hle fun hr => ?_
    rw [hr] at hhigh
    push_cast at hhigh
    linarith

/-- A coefficient stays within the range of scales exactly if the number lies less than half
a gap beyond the greatest multiple. -/
theorem Coefficient.fits_iff (h : Coefficient t r scale) (top : ℕ) :
    (r = 2 ^ 53 ∧ scale + 1 ≤ top + 1 ∨ r < 2 ^ 53 ∧ scale ≤ top + 1) ↔
      t < (2 ^ 54 - 1) * 2 ^ top := by
  have hle := h.le
  rcases Nat.lt_trichotomy scale (top + 1) with hs | rfl | hs
  · exact iff_of_true (by omega) (h.lt_limit (Nat.le_of_lt_succ hs))
  · rw [← h.lt_limit_iff]
    omega
  · exact iff_of_false (by omega) (h.limit_lt hs).not_gt

/-- Doubles of one magnitude have one mantissa and one scale: the form is canonical. -/
theorem parts_eq_of_units_eq {x y : Binary64} (h : x.units = y.units) :
    x.mantissa = y.mantissa ∧ x.scale = y.scale := by
  have hle : ∀ {x y : Binary64}, x.units = y.units → y.scale ≤ x.scale := by
    intro x y h
    by_contra hlt
    have hbelow := units_lt_of_scale_lt x (Nat.lt_of_not_le hlt)
    have hat : 2 ^ 52 * 2 ^ y.scale ≤ y.units :=
      Nat.mul_le_mul_right _ (y.full.resolve_left (by omega))
    omega
  have hscale : x.scale = y.scale := le_antisymm (hle h.symm) (hle h)
  have hpow : 0 < 2 ^ y.scale := Nat.pow_pos two_pos
  have hprod : x.mantissa * 2 ^ y.scale = y.mantissa * 2 ^ y.scale := by
    rw [← hscale]
    exact h.trans (congrArg (fun scale => y.mantissa * 2 ^ scale) hscale.symm)
  exact ⟨Nat.eq_of_mul_eq_mul_right hpow hprod, hscale⟩

end Coefficients

/-- A magnitude with a sign. -/
def withSign (negative : Bool) (q : ℚ) : ℚ := if negative then -q else q

/-- A sign leaves the magnitude. -/
theorem abs_withSign (negative : Bool) (q : ℚ) : |withSign negative q| = |q| := by
  cases negative
  · rfl
  · exact abs_neg q

/-- Numbers of one sign are as far apart as their magnitudes. -/
theorem abs_withSign_sub (negative : Bool) (p q : ℚ) :
    |withSign negative p - withSign negative q| = |p - q| := by
  cases negative
  · rfl
  · change |-p - -q| = _
    rw [neg_sub_neg, abs_sub_comm]

section Values

/-- One is a power of two of units. -/
theorem oneInUnits_eq : oneInUnits = 2 ^ 1074 := by
  obtain ⟨k, hk⟩ : ∃ k, k = 1074 := ⟨1074, rfl⟩
  unfold oneInUnits unitsPerOne
  rw [← hk]
  exact Nat.cast_pow 2 k

/-- There are units in one. -/
theorem oneInUnits_pos : 0 < oneInUnits := by
  rw [oneInUnits_eq]
  exact pow_pos two_pos 1074

/-- The value of a double is its magnitude with its sign. -/
theorem value_eq_withSign (x : Binary64) :
    x.value = withSign x.negative (x.units / oneInUnits) := by
  unfold value signedUnits withSign
  cases x.negative
  · simp
  · simp [neg_div]

/-- The magnitude of a double. -/
theorem abs_value (x : Binary64) : |x.value| = x.units / oneInUnits := by
  rw [value_eq_withSign, abs_withSign, abs_of_nonneg]
  exact div_nonneg (Nat.cast_nonneg _) oneInUnits_pos.le

/-- Doubles of one value have one magnitude in units. -/
theorem units_eq_of_value_eq {x y : Binary64} (h : x.value = y.value) : x.units = y.units := by
  have habs : |x.value| = |y.value| := congrArg _ h
  rw [abs_value, abs_value, div_left_inj' oneInUnits_pos.ne'] at habs
  exact_mod_cast habs

/-- Doubles of one value and one sign are the same. -/
theorem eq_of_value_eq {x y : Binary64} (h : x.value = y.value)
    (hsign : x.negative = y.negative) : x = y := by
  obtain ⟨hm, hs⟩ := parts_eq_of_units_eq (units_eq_of_value_eq h)
  cases x
  cases y
  cases hsign
  cases hm
  cases hs
  rfl

/-- Distances of magnitudes may be counted in units. -/
theorem distance_units (x : Binary64) (v : ℚ) :
    |(x.units : ℚ) / oneInUnits - v| = |(x.units : ℚ) - v * oneInUnits| / oneInUnits := by
  have hpos := oneInUnits_pos
  have hsplit : (x.units : ℚ) / oneInUnits - v =
      ((x.units : ℚ) - v * oneInUnits) / oneInUnits := by
    field_simp
  rw [hsplit, abs_div, abs_of_pos hpos]

/-- Two doubles of one magnitude but of two values are not zero, and one number is as far from
both only if it is zero. -/
theorem eq_zero_of_both_signs {x y : Binary64} {q : ℚ} (hunits : y.units = x.units)
    (hne : y.value ≠ x.value) (heq : |y.value - q| = |x.value - q|) : x.units ≠ 0 ∧ q = 0 := by
  have habs : |y.value| = |x.value| := by rw [abs_value, abs_value, hunits]
  have hopposite : y.value = -x.value := (abs_eq_abs.mp habs).resolve_left hne
  have hnonzero : x.value ≠ 0 := by
    intro hzero
    rw [hopposite, hzero, neg_zero] at hne
    exact hne rfl
  constructor
  · intro hzero
    refine hnonzero (abs_eq_zero.mp ?_)
    rw [abs_value, hzero, Nat.cast_zero, zero_div]
  · rw [hopposite] at heq
    have hsq : (-x.value - q) ^ 2 = (x.value - q) ^ 2 := (sq_eq_sq_iff_abs_eq_abs _ _).mpr heq
    have hprod : x.value * q = 0 := by linarith
    exact (mul_eq_zero.mp hprod).resolve_left hnonzero

/-- No magnitude is nearer to another than the numbers with any signs are. -/
theorem distance_le (y : Binary64) {v : ℚ} (hv : 0 ≤ v) (negative : Bool) :
    |(y.units : ℚ) / oneInUnits - v| ≤ |y.value - withSign negative v| := by
  have hle := abs_abs_sub_abs_le y.value (withSign negative v)
  rwa [abs_value, abs_withSign, abs_of_nonneg hv] at hle

/-- A double that is nearest to a magnitude in units is nearest to that magnitude with its
sign. -/
theorem nearestTo_of_units {x : Binary64} {v : ℚ} (hv : 0 ≤ v)
    (h : ∀ y : Binary64, y.units ≠ x.units →
      |(x.units : ℚ) - v * oneInUnits| ≤ |(y.units : ℚ) - v * oneInUnits| ∧
        (|(y.units : ℚ) - v * oneInUnits| = |(x.units : ℚ) - v * oneInUnits| →
          x.mantissa % 2 = 0 ∧ y.mantissa % 2 = 1)) :
    x.NearestTo (withSign x.negative v) := by
  have hpos := oneInUnits_pos
  have hx : |x.value - withSign x.negative v| = |(x.units : ℚ) / oneInUnits - v| := by
    rw [value_eq_withSign, abs_withSign_sub]
  have hmagnitude : ∀ y : Binary64, y.units ≠ x.units →
      |(x.units : ℚ) / oneInUnits - v| ≤ |(y.units : ℚ) / oneInUnits - v| := by
    intro y hne
    rw [distance_units, distance_units]
    exact div_le_div_of_nonneg_right (h y hne).1 hpos.le
  constructor
  · intro y
    rw [hx]
    by_cases hunits : y.units = x.units
    · rw [← hunits]
      exact distance_le y hv x.negative
    · exact (hmagnitude y hunits).trans (distance_le y hv x.negative)
  · intro y hne heq
    by_cases hunits : y.units = x.units
    · -- both signs are as near only to zero, and zero is a double that is nearer
      obtain ⟨hnonzero, hzero⟩ := eq_zero_of_both_signs hunits hne heq
      have hv0 : v = 0 := by rw [← abs_of_nonneg hv, ← abs_withSign x.negative, hzero, abs_zero]
      have hle := (h (zero false) (Ne.symm hnonzero)).1
      have hunits0 : (zero false).units = 0 := Nat.zero_mul _
      rw [hunits0, hv0, zero_mul, sub_zero, sub_zero, Nat.cast_zero, abs_zero, abs_nonpos_iff,
        Nat.cast_eq_zero] at hle
      exact absurd hle hnonzero
    · rw [hx] at heq
      have hunits' : |(y.units : ℚ) / oneInUnits - v| = |(x.units : ℚ) / oneInUnits - v| :=
        le_antisymm ((distance_le y hv x.negative).trans heq.le) (hmagnitude y hunits)
      rw [distance_units, distance_units, div_left_inj' hpos.ne'] at hunits'
      exact (h y hunits).2 hunits'

end Values

section Ratios

variable {negative : Bool} {num den mantissa scale : ℕ} {x : Binary64}

/-- The parts of a double are those that it was made of. -/
theorem eq_of_ofParts? (h : ofParts? negative mantissa scale = some x) :
    x.negative = negative ∧ x.mantissa = mantissa ∧ x.scale = scale := by
  unfold ofParts? at h
  split at h
  · cases h
    exact ⟨rfl, rfl, rfl⟩
  · cases h

/-- Canonical parts within the range of scales make a double. -/
theorem ofParts?_isSome :
    (ofParts? negative mantissa scale).isSome ↔
      mantissa < 2 ^ 53 ∧ scale ≤ 2045 ∧ (scale = 0 ∨ 2 ^ 52 ≤ mantissa) := by
  unfold ofParts?
  split
  · next h => exact ⟨fun _ => h, fun _ => rfl⟩
  · next h => exact ⟨fun hsome => (by cases hsome), fun h' => absurd h' h⟩

/-- The coefficient that rounding a ratio chooses, at the scale of the ratio in units. -/
theorem coefficient_ofRatio (num : ℕ) (hden : 0 < den) :
    Coefficient ((num : ℚ) / den * oneInUnits)
      (roundHalfEven (num * unitsPerOne)
        (den * Nat.pow 2 (scaleOf (num * unitsPerOne / den))))
      (scaleOf (num * unitsPerOne / den)) := by
  have hscaled : (num : ℚ) / den * oneInUnits = (num * unitsPerOne : ℕ) / den := by
    unfold oneInUnits
    rw [Nat.cast_mul, div_mul_eq_mul_div]
  rw [hscaled]
  generalize num * unitsPerOne = scaled
  obtain ⟨hlt, hfull⟩ := scaleOf_spec (scaled / den)
  generalize scaleOf (scaled / den) = scale at *
  have hpow : 0 < 2 ^ scale := Nat.pow_pos two_pos
  have hquotient : (scaled : ℚ) / den / 2 ^ scale = scaled / (den * Nat.pow 2 scale : ℕ) := by
    rw [div_div, Nat.cast_mul, Nat.pow_eq, Nat.cast_pow, Nat.cast_ofNat]
  have hdenQ : (0 : ℚ) < den := by exact_mod_cast hden
  have hpowQ : (0 : ℚ) < 2 ^ scale := by positivity
  obtain ⟨hnear, htie⟩ := roundHalfEven_spec scaled (den * Nat.pow 2 scale) (Nat.mul_pos hden hpow)
  rw [← hquotient] at hnear htie
  refine ⟨hnear, htie, hfull.imp_right fun hfull => ?_, ?_⟩
  · rw [le_div_iff₀ hpowQ, le_div_iff₀ hdenQ]
    exact_mod_cast (Nat.le_div_iff_mul_le hden).mp hfull
  · rw [div_lt_iff₀ hpowQ, div_lt_iff₀ hdenQ]
    exact_mod_cast (Nat.div_lt_iff_lt_mul hden).mp hlt

/-- What rounding a ratio gives has the coefficient of the ratio in units. -/
theorem units_of_ofRatio? (hden : 0 < den) (h : ofRatio? negative num den = some x) :
    ∃ r scale, Coefficient ((num : ℚ) / den * oneInUnits) r scale ∧ x.negative = negative ∧
      x.units = r * 2 ^ scale ∧ (r % 2 = 0 → x.mantissa % 2 = 0) := by
  have hr := coefficient_ofRatio num hden
  unfold ofRatio? at h
  dsimp only at h
  refine ⟨_, _, hr, ?_⟩
  generalize roundHalfEven _ _ = r at *
  generalize scaleOf _ = scale at *
  split at h
  · next hcarry =>
    obtain ⟨hn, hm, hs⟩ := eq_of_ofParts? h
    refine ⟨hn, ?_, fun _ => by rw [hm]⟩
    change x.mantissa * 2 ^ x.scale = _
    rw [hm, hs, hcarry]
    change 2 ^ 52 * 2 ^ (scale + 1) = 2 ^ 53 * 2 ^ scale
    ring
  · obtain ⟨hn, hm, hs⟩ := eq_of_ofParts? h
    refine ⟨hn, ?_, fun heven => by rw [hm]; exact heven⟩
    change x.mantissa * 2 ^ x.scale = _
    rw [hm, hs]

/-- A ratio rounds to a double exactly if it lies below the limit, in units. -/
theorem ofRatio?_isSome_iff (hden : 0 < den) :
    (ofRatio? negative num den).isSome ↔
      (num : ℚ) / den * oneInUnits < (2 ^ 54 - 1) * 2 ^ 2044 := by
  have hr := coefficient_ofRatio num hden
  rw [← hr.fits_iff 2044]
  unfold ofRatio?
  dsimp only
  generalize roundHalfEven _ _ = r at *
  generalize scaleOf _ = scale at *
  have hle := hr.le
  have hge := hr.ge
  have hword : Nat.pow 2 53 = 9007199254740992 := by decide
  have hhalf : Nat.pow 2 52 = 4503599627370496 := by decide
  split
  · next hcarry =>
    rw [ofParts?_isSome]
    omega
  · next hcarry =>
    rw [ofParts?_isSome]
    omega

/-- The limit in units. -/
theorem limit_in_units (v : ℚ) :
    v < 2 ^ 1024 - 2 ^ 970 ↔ v * oneInUnits < (2 ^ 54 - 1) * 2 ^ 2044 := by
  have hlimit : ((2 : ℚ) ^ 1024 - 2 ^ 970) * oneInUnits = (2 ^ 54 - 1) * 2 ^ 2044 := by
    have hpow : ∀ k : ℕ, ((2 : ℚ) ^ (54 + k) - 2 ^ k) = (2 ^ 54 - 1) * 2 ^ k := by
      intro k
      rw [pow_add]
      ring
    rw [oneInUnits_eq, hpow 970, mul_assoc, ← pow_add]
  rw [← hlimit, mul_lt_mul_iff_left₀ oneInUnits_pos]

/-- Rounding a ratio of whole numbers is rounding to the nearest double. -/
theorem ofRatio?_rounds (negative : Bool) (num : ℕ) (hden : 0 < den) :
    Rounds (ofRatio? negative num den) (withSign negative (num / den)) := by
  have hv : (0 : ℚ) ≤ num / den := by positivity
  constructor
  · rw [abs_withSign, abs_of_nonneg hv, limit_in_units, ofRatio?_isSome_iff hden]
  · intro x h
    obtain ⟨r, scale, hr, hn, hunits, heven⟩ := units_of_ofRatio? hden h
    rw [← hn]
    refine nearestTo_of_units hv fun y hne => ?_
    rw [hunits] at hne
    have hcast : (x.units : ℚ) = r * 2 ^ scale := by exact_mod_cast congrArg Nat.cast hunits
    obtain ⟨hle, htie⟩ := hr.le_units y hne
    rw [hcast]
    exact ⟨hle, fun heq => ⟨heven (htie heq).1, (htie heq).2⟩⟩

end Ratios

section Decimals

variable {v : ℚ}

/-- Below half of the least positive double, zero is nearest. -/
theorem zero_nearestTo (negative : Bool) (hv : 0 ≤ v) (hsmall : v * oneInUnits < 1 / 2) :
    (zero negative).NearestTo (withSign negative v) := by
  have hzero : (zero negative).units = 0 := Nat.zero_mul _
  have hscaled : 0 ≤ v * oneInUnits := mul_nonneg hv oneInUnits_pos.le
  refine nearestTo_of_units hv fun y hne => ?_
  rw [hzero] at hne ⊢
  have hone : (1 : ℚ) ≤ y.units := by exact_mod_cast Nat.pos_of_ne_zero hne
  have hfar : |((0 : ℕ) : ℚ) - v * oneInUnits| < |(y.units : ℚ) - v * oneInUnits| := by
    rw [Nat.cast_zero, zero_sub, abs_neg, abs_of_nonneg hscaled, abs_of_nonneg (by linarith)]
    linarith
  exact ⟨hfar.le, fun heq => absurd heq hfar.ne'⟩

/-- Three binary digits are fewer than one decimal digit. -/
theorem two_pow_le_ten_pow (n : ℕ) : (2 : ℚ) ^ (3 * n) ≤ 10 ^ n := by
  rw [pow_mul]
  exact pow_le_pow_left₀ (by norm_num) (by norm_num) n

/-- A decimal whose binary length exceeds that of the greatest double lies beyond it. -/
theorem limit_le_of_log2 {digits n : ℕ} (hdigits : digits ≠ 0)
    (h : 1024 ≤ digits.log2 + 3 * n) : (2 : ℚ) ^ 1024 - 2 ^ 970 ≤ digits * 10 ^ n := by
  have hlog : (2 : ℚ) ^ digits.log2 ≤ digits := by exact_mod_cast Nat.log2_self_le hdigits
  calc (2 : ℚ) ^ 1024 - 2 ^ 970 ≤ 2 ^ 1024 := sub_le_self _ (by positivity)
    _ ≤ 2 ^ (digits.log2 + 3 * n) := pow_le_pow_right₀ one_le_two h
    _ = 2 ^ digits.log2 * 2 ^ (3 * n) := pow_add _ _ _
    _ ≤ digits * 10 ^ n := mul_le_mul hlog (two_pow_le_ten_pow n) (by positivity) (by positivity)

/-- A decimal whose binary length places it below half of the least positive double. -/
theorem scaled_lt_of_log2 {digits n : ℕ} (h : digits.log2 + 1 + 1075 ≤ 3 * n) :
    (digits : ℚ) / 10 ^ n * oneInUnits < 1 / 2 := by
  have hten : (0 : ℚ) < 10 ^ n := by positivity
  have hlog : (digits : ℚ) < 2 ^ (digits.log2 + 1) := by exact_mod_cast Nat.lt_log2_self
  have hbound : (digits : ℚ) * (2 ^ 1074 * 2) < 10 ^ n := by
    rw [← pow_succ]
    calc (digits : ℚ) * 2 ^ (1074 + 1) < 2 ^ (digits.log2 + 1) * 2 ^ (1074 + 1) :=
          mul_lt_mul_of_pos_right hlog (by positivity)
      _ = 2 ^ (digits.log2 + 1 + (1074 + 1)) := (pow_add _ _ _).symm
      _ ≤ 2 ^ (3 * n) := pow_le_pow_right₀ one_le_two h
      _ ≤ 10 ^ n := two_pow_le_ten_pow n
  rw [oneInUnits_eq, div_mul_eq_mul_div, div_lt_div_iff₀ hten two_pos, one_mul, mul_assoc]
  exact hbound

/-- A rounded decimal has the sign that it was read with, also if it is zero. -/
theorem negative_of_ofDecimal? {negative : Bool} {digits : ℕ} {exponent : ℤ} {x : Binary64}
    (h : ofDecimal? negative digits exponent = some x) : x.negative = negative := by
  have hratio : ∀ {num den : ℕ}, 0 < den → ofRatio? negative num den = some x →
      x.negative = negative := by
    intro num den hden h
    obtain ⟨_, _, _, hn, _⟩ := units_of_ofRatio? hden h
    exact hn
  unfold ofDecimal? at h
  split at h
  · cases h
    rfl
  split at h
  · cases h
  split at h
  · cases h
    rfl
  split at h
  · exact hratio one_pos h
  · exact hratio (Nat.pow_pos (by decide)) h

/-- Reading a decimal rounds it to the nearest double. -/
theorem ofDecimal?_rounds (negative : Bool) (digits : ℕ) (exponent : ℤ) :
    Rounds (ofDecimal? negative digits exponent)
      (withSign negative (digits * 10 ^ exponent)) := by
  unfold ofDecimal?
  by_cases hzero : digits = 0
  · rw [if_pos hzero, hzero, Nat.cast_zero, zero_mul]
    refine ⟨iff_of_true rfl ?_, fun x hx => ?_⟩
    · rw [abs_withSign, abs_zero, limit_in_units, zero_mul]
      positivity
    · cases hx
      exact zero_nearestTo negative le_rfl (by rw [zero_mul]; exact half_pos one_pos)
  rw [if_neg hzero]
  rcases lt_or_ge exponent 0 with hneg | hnonneg
  · obtain ⟨n, rfl⟩ : ∃ n : ℕ, exponent = -n := ⟨exponent.natAbs, by omega⟩
    have hvalue : (digits : ℚ) * 10 ^ (-n : ℤ) = digits / 10 ^ n := by
      rw [zpow_neg, zpow_natCast, div_eq_mul_inv]
    have hv : (0 : ℚ) ≤ digits / 10 ^ n := by positivity
    rw [if_neg (by omega), hvalue]
    split
    · next hsmall =>
      have hscaled : (digits : ℚ) / 10 ^ n * oneInUnits < 1 / 2 :=
        scaled_lt_of_log2 (by omega)
      refine ⟨iff_of_true rfl ?_, fun x hx => ?_⟩
      · rw [abs_withSign, abs_of_nonneg hv, limit_in_units]
        refine hscaled.trans (lt_of_lt_of_le one_half_lt_one ?_)
        exact one_le_mul_of_one_le_of_one_le (by norm_num) (one_le_pow₀ one_le_two)
      · cases hx
        exact zero_nearestTo negative hv hscaled
    · next hlarge =>
      have hexponent : (- -(n : ℤ)).toNat = n := by omega
      rw [if_neg (by omega), hexponent]
      have hrounds := ofRatio?_rounds negative digits (Nat.pow_pos (n := n) (a := 10) (by decide))
      rwa [Nat.cast_pow, Nat.cast_ofNat] at hrounds
  · obtain ⟨n, rfl⟩ := Int.eq_ofNat_of_zero_le hnonneg
    have hv : (0 : ℚ) ≤ digits * 10 ^ n := by positivity
    rw [zpow_natCast]
    split
    · next hlarge =>
      refine ⟨iff_of_false (by simp) ?_, fun x hx => nomatch hx⟩
      rw [abs_withSign, abs_of_nonneg hv, not_lt]
      exact limit_le_of_log2 hzero (by omega)
    · next hsmall =>
      rw [if_neg (by omega), Int.toNat_natCast]
      have hrounds := ofRatio?_rounds negative (digits * 10 ^ n) one_pos
      rwa [Nat.cast_one, div_one, Nat.cast_mul, Nat.cast_pow, Nat.cast_ofNat] at hrounds

/-- Converting a whole number rounds it to the nearest double. -/
theorem ofInt?_rounds (n : ℤ) : Rounds (ofInt? n) n := by
  have hrounds := ofRatio?_rounds (n < 0) n.natAbs one_pos
  have hvalue : withSign (n < 0) (n.natAbs / (1 : ℕ)) = n := by
    rw [Nat.cast_one, div_one, Nat.cast_natAbs, Int.cast_abs]
    unfold withSign
    split
    · next hneg =>
      have hcast : (n : ℚ) < 0 := by exact_mod_cast of_decide_eq_true hneg
      rw [abs_of_neg hcast, neg_neg]
    · next hnonneg =>
      have hcast : (0 : ℚ) ≤ n := by exact_mod_cast not_lt.mp fun h => hnonneg (decide_eq_true h)
      exact abs_of_nonneg hcast
  rwa [hvalue] at hrounds

/-- The integers of a 64-bit word lie within the range of doubles. -/
theorem lt_limit_of_inIntegerRange {n : ℤ} (h : inIntegerRange n) :
    |(n : ℚ)| < 2 ^ 1024 - 2 ^ 970 := by
  have hrange : |n| ≤ 2 ^ 64 := by
    simp only [inIntegerRange, Bool.and_eq_true, decide_eq_true_eq] at h
    rw [abs_le]
    omega
  calc |(n : ℚ)| ≤ 2 ^ 64 := by exact_mod_cast hrange
    _ < 2 ^ 970 := pow_lt_pow_right₀ one_lt_two (by decide)
    _ = 2 ^ (970 + 1) - 2 ^ 970 := by rw [pow_succ _ 970, mul_two, add_sub_cancel_right]
    _ ≤ 2 ^ 1024 - 2 ^ 970 := sub_le_sub_right (pow_le_pow_right₀ one_le_two (by decide)) _

end Decimals

end Conformance.Binary64
