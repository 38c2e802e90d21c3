import Conformance.Number

/-!
# Words and doubles

The integers of the two kinds of words are those that numbers have. A double without its
fraction is as many whole units as its value rounded toward zero. The doubles of the least and
of the greatest signed word stand at the two ends of the words, although the second is one
more than the word: so a double between them is one whose whole part fits, and every double
beyond them is whole already.
-/

namespace Conformance

namespace Word

variable {kind : WordKind}

/-- A word is made of the integer that it holds, and of no other. -/
theorem ofInt?_eq_some_iff {n : Int} {word : Word kind} :
    ofInt? kind n = some word ↔ word.value = n := by
  unfold ofInt?
  split
  · next h =>
    rw [Option.some_inj]
    constructor
    · rintro rfl
      rfl
    · intro hv
      cases word
      simp only at hv
      simp only [hv]
  · next h =>
    refine iff_of_false nofun ?_
    rintro rfl
    exact h ⟨word.least_le, word.le_greatest⟩

/-- The words of a kind hold the integers of its range. -/
theorem ofInt?_isSome_iff {n : Int} :
    (ofInt? kind n).isSome ↔ kind.least ≤ n ∧ n ≤ kind.greatest := by
  unfold ofInt?
  split
  · next h => exact iff_of_true rfl h
  · next h => exact iff_of_false nofun h

/-- An integer in the range is its own nearest word. -/
theorem clamp_value {n : Int} (h : kind.least ≤ n ∧ n ≤ kind.greatest) :
    (clamp kind n).value = n := by
  rw [clamp, dif_pos h]

end Word

/-- The integers of signed words. -/
theorem fitsSigned_iff {n : Int} :
    fitsSigned n ↔ WordKind.signed.least ≤ n ∧ n ≤ WordKind.signed.greatest := by
  simp only [fitsSigned, WordKind.least, WordKind.greatest]
  omega

namespace Binary64

/-- One is a power of two of units. The exponent has a name, so that the power is not
computed. -/
theorem exists_unitsPerOne : ∃ k, k = 1074 ∧ unitsPerOne = Nat.pow 2 k := by
  refine ⟨1074, rfl, ?_⟩
  unfold unitsPerOne
  with_reducible rfl

/-- One has units. -/
theorem unitsPerOne_pos : 0 < unitsPerOne := by
  obtain ⟨k, _, hunit⟩ := exists_unitsPerOne
  rw [hunit]
  exact Nat.pow_pos (by decide)

section Cut

variable (x : Binary64)

/-- A double of so great a scale is a multiple of one. -/
theorem isInteger_of_scale (h : 1074 ≤ x.scale) : x.isInteger := by
  obtain ⟨k, hk, hunit⟩ := exists_unitsPerOne
  rw [← hk] at h
  have hdvd : unitsPerOne ∣ x.units := by
    rw [hunit]
    exact Nat.dvd_mul_left_of_dvd (Nat.pow_dvd_pow 2 h) x.mantissa
  unfold isInteger
  rw [Nat.mod_eq_zero_of_dvd hdvd]
  rfl

/-- A double of a smaller scale fits a signed word. -/
theorem fitsSigned_of_scale (h : x.scale ≤ 1074) : fitsSigned x.integerPart := by
  obtain ⟨k, hk, hunit⟩ := exists_unitsPerOne
  rw [← hk] at h
  have hpow : Nat.pow 2 x.scale ≤ Nat.pow 2 k := Nat.pow_le_pow_right (by decide) h
  have hunits : x.units < unitsPerOne * Nat.pow 2 53 := by
    rw [units, Nat.mul_comm, hunit]
    exact Nat.mul_lt_mul_of_le_of_lt hpow x.mantissa_lt (Nat.pow_pos (by decide))
  have hwhole : x.units / unitsPerOne < Nat.pow 2 53 := Nat.div_lt_of_lt_mul hunits
  have hword : Nat.pow 2 53 = 9007199254740992 := by decide
  unfold integerPart fitsSigned
  generalize x.units / unitsPerOne = whole at hwhole
  dsimp only
  split <;> omega

/-- A double whose whole part fits no signed word is a whole number. -/
theorem isInteger_of_not_fitsSigned (h : ¬fitsSigned x.integerPart) : x.isInteger := by
  rcases Nat.le_total x.scale 1074 with hs | hs
  · exact absurd (x.fitsSigned_of_scale hs) h
  · exact x.isInteger_of_scale hs

/-- A double of so great a scale has no place behind the point. -/
theorem placesPerOne_of_scale (h : 1074 ≤ x.scale) : x.placesPerOne = 1 := by
  rw [placesPerOne, Nat.sub_eq_zero_of_le h]

/-- One has as many units as a unit of the last place, times the places behind the point. -/
theorem unitsPerOne_eq (h : x.scale ≤ 1074) :
    unitsPerOne = x.placesPerOne * Nat.pow 2 x.scale := by
  obtain ⟨k, hk, hunit⟩ := exists_unitsPerOne
  rw [← hk] at h
  rw [hunit, placesPerOne, ← hk]
  change 2 ^ k = 2 ^ (k - x.scale) * 2 ^ x.scale
  rw [← Nat.pow_add, Nat.sub_add_cancel h]

/-- Cutting the fraction clears the places behind the point, all of them if the first one is
behind it. -/
theorem units_trunc_eq_cleared :
    x.trunc.units = (x.mantissa - x.mantissa % x.placesPerOne) * Nat.pow 2 x.scale := by
  unfold trunc
  split
  · rfl
  · next h =>
    rw [Nat.mod_eq_of_lt (Nat.lt_of_not_le h), Nat.sub_self, Nat.zero_mul]
    exact Nat.zero_mul _

/-- A double without its fraction has a magnitude of whole units. -/
theorem units_trunc : x.trunc.units = x.units / unitsPerOne * unitsPerOne := by
  rw [units_trunc_eq_cleared]
  rcases Nat.le_total 1074 x.scale with hs | hs
  · have hdvd : unitsPerOne ∣ x.units :=
      Nat.dvd_of_mod_eq_zero (beq_iff_eq.mp (x.isInteger_of_scale hs))
    rw [Nat.div_mul_cancel hdvd, x.placesPerOne_of_scale hs, Nat.mod_one, Nat.sub_zero, units]
  · have hpos : 0 < Nat.pow 2 x.scale := Nat.pow_pos (by decide)
    have hcleared : x.mantissa - x.mantissa % x.placesPerOne =
        x.mantissa / x.placesPerOne * x.placesPerOne := by
      have := Nat.div_add_mod' x.mantissa x.placesPerOne
      omega
    rw [hcleared, units, x.unitsPerOne_eq hs, Nat.mul_div_mul_right _ _ hpos, Nat.mul_assoc]

/-- Cutting the fraction leaves the sign. -/
theorem negative_trunc : x.trunc.negative = x.negative := by
  unfold trunc
  split <;> rfl

/-- A double without its fraction is its whole part. -/
theorem signedUnits_trunc : x.trunc.signedUnits = x.integerPart * (unitsPerOne : Nat) := by
  unfold signedUnits integerPart
  rw [negative_trunc, units_trunc]
  split
  · rw [Int.natCast_mul, Int.neg_mul]
  · rw [Int.natCast_mul]

/-- Cutting the fraction leaves the whole part. -/
theorem integerPart_trunc : x.trunc.integerPart = x.integerPart := by
  unfold integerPart
  rw [negative_trunc, units_trunc, Nat.mul_div_cancel _ unitsPerOne_pos]

/-- A double with no place behind the point has no fraction to cut. -/
theorem trunc_of_scale (h : 1074 ≤ x.scale) : x.trunc = x := by
  have hone := x.placesPerOne_of_scale h
  have hmantissa : Nat.pow 2 52 ≤ x.mantissa := x.full.resolve_left (by omega)
  have hpos : 0 < Nat.pow 2 52 := Nat.pow_pos (by decide)
  rw [trunc, dif_pos (by omega)]
  cases x
  simp only [Binary64.mk.injEq, true_and, and_true] at hone ⊢
  rw [hone, Nat.mod_one, Nat.sub_zero]

/-- The double of the least signed word is that word. -/
theorem signedUnits_ofWord_least :
    (ofWord (.least .signed)).signedUnits = WordKind.signed.least * (unitsPerOne : Nat) := by
  decide +kernel

/-- The double of the greatest signed word is one more than that word. -/
theorem signedUnits_ofWord_greatest :
    (ofWord (.greatest .signed)).signedUnits =
      (WordKind.signed.greatest + 1) * (unitsPerOne : Nat) := by
  decide +kernel

/-- Without its fraction a double lies between the doubles of the least and of the greatest
signed word if its whole part fits a signed word. -/
theorem trunc_between_iff :
    ofWord (.least .signed) ≤ x.trunc ∧ x.trunc < ofWord (.greatest .signed) ↔
      fitsSigned x.integerPart := by
  have hpos : (0 : Int) < (unitsPerOne : Nat) := Int.ofNat_lt.mpr unitsPerOne_pos
  change (ofWord (.least .signed)).signedUnits ≤ x.trunc.signedUnits ∧
    x.trunc.signedUnits < (ofWord (.greatest .signed)).signedUnits ↔ _
  rw [signedUnits_ofWord_least, signedUnits_ofWord_greatest, signedUnits_trunc,
    Int.mul_le_mul_iff_of_pos_right hpos, Int.mul_lt_mul_right hpos, Int.lt_add_one_iff,
    fitsSigned_iff]

end Cut

end Binary64

namespace Number

variable {n : Int} {h : inIntegerRange n} {x : Binary64}

/-- An integer is the word that holds it. -/
theorem toWord?_int {kind : WordKind} {word : Word kind} :
    (Number.int n h).toWord? kind = some word ↔ word.value = n := Word.ofInt?_eq_some_iff

/-- An integer is a word. -/
theorem isWord_int : (Number.int n h).isWord = true := by
  rw [isWord, Bool.or_eq_true, toWord?, toWord?, Word.ofInt?_isSome_iff, Word.ofInt?_isSome_iff]
  simp only [inIntegerRange, Bool.and_eq_true, decide_eq_true_eq] at h
  simp only [WordKind.least, WordKind.greatest]
  omega

/-- An integer has no fractional part. -/
theorem isIntegral_int : (Number.int n h).isIntegral = true := by
  rw [isIntegral, isWord_int]
  rfl

/-- A double has no fractional part if it is a whole number. -/
theorem isIntegral_float : (Number.float x).isIntegral = x.isInteger := rfl

/-- An integer is rounded already. -/
theorem truncate_int : (Number.int n h).truncate = .int n h := by
  rw [truncate, if_pos isWord_int]

/-- A double becomes an integer if its whole part fits a signed word. -/
theorem truncate_of_fitsSigned (hfits : fitsSigned x.integerPart) :
    ∃ inRange, (Number.float x).truncate = .int x.integerPart inRange := by
  have hword : (x.trunc.toWord .signed).value = x.integerPart := by
    rw [Binary64.toWord, Binary64.integerPart_trunc, Word.clamp_value (fitsSigned_iff.mp hfits)]
  have heq : (Number.float x).truncate = ofWord (x.trunc.toWord .signed) :=
    if_pos (x.trunc_between_iff.mpr hfits)
  refine ⟨hword ▸ inRange_of_word _, ?_⟩
  rw [heq, ofWord]
  simp only [hword]

/-- Every other double stays as it is. -/
theorem truncate_of_not_fitsSigned (hfits : ¬fitsSigned x.integerPart) :
    (Number.float x).truncate = .float x := by
  have hscale : 1074 ≤ x.scale := by
    refine Nat.le_of_not_lt fun hlt => hfits (x.fitsSigned_of_scale (Nat.le_of_lt hlt))
  have heq : (Number.float x).truncate = .float x.trunc :=
    if_neg (mt x.trunc_between_iff.mp hfits)
  rw [heq, x.trunc_of_scale hscale]

/-- Anything compares with a double as a double. -/
theorem numericallyEqual_float (a : Number) :
    a.numericallyEqual (.float x) = a.toBinary64.sameValue x := by
  unfold numericallyEqual
  cases a.toWord? .signed <;> cases a.toWord? .unsigned <;> rfl

/-- A double compares with anything as a double. -/
theorem numericallyEqual_of_float (a : Number) :
    (Number.float x).numericallyEqual a = x.sameValue a.toBinary64 := rfl

end Number

end Conformance
