import Conformance.Proofs.Coercion
import Conformance.Proofs.NumericEquality
import Mathlib.Data.Rat.Floor

/-!
# Rounding toward zero

A number that is truncated has the value of the original rounded toward zero, whatever its
kind. A double becomes an integer exactly where that value fits a signed word. Every greater
double is a whole number already, so there is nothing to drop and it stays as it is.
-/

namespace Conformance

/-- A rational number rounded toward zero: to the next whole number below if it is not
negative, and to the next one above if it is. -/
def towardZero (q : ℚ) : ℤ := if 0 ≤ q then ⌊q⌋ else ⌈q⌉

/-- A whole number is not rounded. -/
theorem towardZero_intCast (n : ℤ) : towardZero n = n := by
  unfold towardZero
  split
  · exact Int.floor_intCast n
  · exact Int.ceil_intCast n

/-- Opposite numbers are rounded to opposite numbers. -/
theorem towardZero_neg (q : ℚ) : towardZero (-q) = -towardZero q := by
  unfold towardZero
  rcases lt_trichotomy q 0 with hq | rfl | hq
  · rw [if_pos (neg_nonneg.mpr hq.le), if_neg hq.not_ge, Int.floor_neg]
  · simp
  · rw [if_neg (by linarith), if_pos hq.le, Int.ceil_neg]

namespace Binary64

/-- The whole part of a double is its value rounded toward zero. -/
theorem integerPart_eq_towardZero (x : Binary64) : x.integerPart = towardZero x.value := by
  have hnonneg : (0 : ℚ) ≤ x.units / oneInUnits :=
    div_nonneg (Nat.cast_nonneg _) oneInUnits_pos.le
  have hmagnitude : towardZero (x.units / oneInUnits) = (x.units / unitsPerOne : ℕ) := by
    unfold towardZero
    rw [if_pos hnonneg]
    exact Rat.floor_natCast_div_natCast x.units unitsPerOne
  rw [value_eq_withSign]
  unfold integerPart withSign
  dsimp only
  split
  · rw [towardZero_neg, hmagnitude]
  · rw [hmagnitude]

/-- A double is a whole number exactly if rounding leaves its value. -/
theorem isInteger_iff (x : Binary64) :
    x.isInteger = true ↔ (towardZero x.value : ℚ) = x.value := by
  have hsplit := Nat.div_add_mod x.units unitsPerOne
  have hdivides : x.isInteger = true ↔
      (x.units : ℤ) = (x.units / unitsPerOne : ℕ) * (unitsPerOne : ℤ) := by
    unfold isInteger
    rw [beq_iff_eq, ← Int.natCast_mul, Int.natCast_inj, Nat.mul_comm]
    omega
  rw [hdivides, ← integerPart_eq_towardZero, @eq_comm ℚ, value_eq_intCast_iff]
  unfold integerPart signedUnits
  dsimp only
  split
  · rw [Int.neg_mul, Int.neg_inj]
  · exact Iff.rfl

end Binary64

namespace Number

/-- The number is an integer by its kind, not only by its value. -/
def IsInt (n : Number) : Prop := ∃ k h, n = .int k h

/-- Truncation rounds the value toward zero. -/
theorem truncate_value (n : Number) : n.truncate.value = towardZero n.value := by
  cases n with
  | int n h =>
    rw [truncate_int]
    exact congrArg Int.cast (towardZero_intCast n).symm
  | float x =>
    have hpart : (x.integerPart : ℚ) = towardZero x.value :=
      congrArg Int.cast x.integerPart_eq_towardZero
    by_cases hfits : fitsSigned x.integerPart
    · obtain ⟨_, hint⟩ := truncate_of_fitsSigned hfits
      rw [hint]
      exact hpart
    · rw [truncate_of_not_fitsSigned hfits]
      exact (x.isInteger_iff.mp (x.isInteger_of_not_fitsSigned hfits)).symm

/-- A number has no fractional part exactly if truncation leaves its value. -/
theorem isIntegral_iff (n : Number) : n.isIntegral = true ↔ n.truncate.value = n.value := by
  rw [truncate_value]
  cases n with
  | int n h => exact iff_of_true isIntegral_int (congrArg Int.cast (towardZero_intCast n))
  | float x => exact x.isInteger_iff

/-- A truncated number has no fractional part. -/
theorem truncate_isIntegral (n : Number) : n.truncate.isIntegral = true := by
  rw [isIntegral_iff, truncate_truncate]

/-- What truncation gives is an integer by its kind if it was one, or if its value fits a
signed word. -/
theorem truncate_isInt_iff (n : Number) :
    n.truncate.IsInt ↔ n.IsInt ∨ fitsSigned (towardZero n.value) := by
  cases n with
  | int n h => exact iff_of_true ⟨n, h, truncate_int⟩ (.inl ⟨n, h, rfl⟩)
  | float x =>
    have hkind : ¬(Number.float x).IsInt := fun ⟨_, _, h⟩ => nomatch h
    have hpart : towardZero (Number.float x).value = x.integerPart :=
      x.integerPart_eq_towardZero.symm
    rw [or_iff_right hkind, hpart]
    by_cases hfits : fitsSigned x.integerPart
    · exact iff_of_true ⟨_, truncate_of_fitsSigned hfits⟩ hfits
    · rw [truncate_of_not_fitsSigned hfits]
      exact iff_of_false hkind hfits

end Number

namespace Policy

/-- What the policy that reads text makes an integer of a value is a truncated number. -/
theorem exists_truncate_of_lenientInt {value output : Json}
    (h : lenientInt value = .ok output) : ∃ n : Number, output = .number n.truncate := by
  unfold lenientInt at h
  split at h
  · cases h
    exact ⟨_, rfl⟩
  · split at h <;> cases h
    exact ⟨_, rfl⟩
  · cases h

/-- The strict policy leaves every integer that the other policy gives. -/
theorem strictInt_of_lenientInt {value output : Json} (h : nonStrict.check .int value = .ok output) :
    strict.check .int output = .ok output := by
  obtain ⟨n, rfl⟩ := exists_truncate_of_lenientInt h
  exact if_pos n.truncate_isIntegral

end Policy

namespace Number

/-- Truncation is exact. The result has the value of the number rounded toward zero, and it is
an integer by its kind exactly if the number was one or the rounded value fits a signed word.
It has no fractional part, so the strict policy leaves every integer that the other policy
gives, and truncation leaves it, too. A number without fractional part is numerically equal to
what it is truncated to. -/
theorem truncate_exact (n : Number) :
    n.truncate.value = towardZero n.value ∧
      (n.truncate.IsInt ↔ n.IsInt ∨ fitsSigned (towardZero n.value)) ∧
      n.truncate.isIntegral = true ∧
      (∀ value output : Json, Policy.nonStrict.check .int value = .ok output →
        Policy.strict.check .int output = .ok output) ∧
      n.truncate.truncate = n.truncate ∧
      (n.isIntegral = true ↔ n.truncate.value = n.value) ∧
      (n.isIntegral = true → n.truncate.numericallyEqual n = true) := by
  have hequal : n.isIntegral = true → n.truncate.numericallyEqual n = true := fun h =>
    (numericallyEqual_iff _ _).mpr (.inl (n.isIntegral_iff.mp h))
  exact ⟨n.truncate_value, n.truncate_isInt_iff, n.truncate_isIntegral,
    fun _ _ => Policy.strictInt_of_lenientInt, n.truncate_truncate, n.isIntegral_iff, hequal⟩

/-- `2 ^ 63` with a sign. Only with a minus it fits a signed word. -/
def signedLimit (negative : Bool) : Binary64 :=
  ⟨negative, 2 ^ 52, 1085, by decide, by decide, .inr (by decide)⟩

/-- The two doubles at the ends of the signed words: the least word becomes an integer, and the
number after the greatest word stays a double. The strict policy takes both as integers. -/
theorem signedLimit_truncated :
    (Number.float (signedLimit true)).truncate.IsInt ∧
      ¬(Number.float (signedLimit false)).truncate.IsInt ∧
      ∀ negative, Policy.strict.check .int (.number (Number.float (signedLimit negative)).truncate) =
        .ok (.number (Number.float (signedLimit negative)).truncate) := by
  have hfits : ∀ negative, (fitsSigned (towardZero (Number.float (signedLimit negative)).value) ↔
      negative = true) := by
    intro negative
    change fitsSigned (towardZero (signedLimit negative).value) ↔ _
    rw [← Binary64.integerPart_eq_towardZero]
    cases negative
    · exact iff_of_false (by decide +kernel) (by decide)
    · exact iff_of_true (by decide +kernel) rfl
  have hkind : ∀ negative, ¬(Number.float (signedLimit negative)).IsInt :=
    fun _ ⟨_, _, h⟩ => nomatch h
  refine ⟨?_, fun h => ?_, fun negative => ?_⟩
  · exact (truncate_exact (.float (signedLimit true))).2.1.mpr (.inr ((hfits true).mpr rfl))
  · have hor := (truncate_exact (.float (signedLimit false))).2.1.mp h
    have hfalse := (hfits false).mp (hor.resolve_left (hkind false))
    cases hfalse
  · have hstrict := (truncate_exact (.float (signedLimit negative))).2.2.2.1
    exact hstrict (.number (.float (signedLimit negative))) _ rfl

end Number

end Conformance
