import Conformance.Binary64
import Conformance.Word

/-!
# Doubles and whole numbers

Doubles are ordered by their values. The fraction of a double is dropped by clearing the
binary places behind the point, which leaves a double. An integer of a word becomes the
nearest double, and a double becomes the word nearest to its value rounded toward zero.
-/

namespace Conformance.Binary64

instance : LE Binary64 := ⟨fun x y => x.signedUnits ≤ y.signedUnits⟩

instance : LT Binary64 := ⟨fun x y => x.signedUnits < y.signedUnits⟩

instance (x y : Binary64) : Decidable (x ≤ y) :=
  inferInstanceAs (Decidable (x.signedUnits ≤ y.signedUnits))

instance (x y : Binary64) : Decidable (x < y) :=
  inferInstanceAs (Decidable (x.signedUnits < y.signedUnits))

/-- One, counted in units of the last place of the mantissa. Where the last place is not
behind the point, it is that place. -/
def placesPerOne (x : Binary64) : Nat := Nat.pow 2 (1074 - x.scale)

/-- Clearing the places behind the point leaves the first place, unless all are cleared. -/
theorem full_cleared {x : Binary64} (h : x.placesPerOne ≤ x.mantissa) :
    x.scale = 0 ∨ Nat.pow 2 52 ≤ x.mantissa - x.mantissa % x.placesPerOne := by
  refine x.full.imp_right fun hfull => ?_
  have hlt : Nat.pow 2 (1074 - x.scale) < Nat.pow 2 53 := Nat.lt_of_le_of_lt h x.mantissa_lt
  have hexponent : 1074 - x.scale ≤ 52 :=
    Nat.le_of_lt_succ ((Nat.pow_lt_pow_iff_right (by decide)).mp hlt)
  obtain ⟨more, hmore⟩ := Nat.le.dest hexponent
  have hsplit : Nat.pow 2 52 = x.placesPerOne * Nat.pow 2 more := by
    rw [← hmore]
    exact Nat.pow_add 2 _ _
  have hcleared : x.mantissa - x.mantissa % x.placesPerOne =
      x.placesPerOne * (x.mantissa / x.placesPerOne) := by
    have := Nat.div_add_mod x.mantissa x.placesPerOne
    omega
  rw [hcleared, hsplit]
  refine Nat.mul_le_mul_left _ ((Nat.le_div_iff_mul_le (Nat.pow_pos (by decide))).mpr ?_)
  rw [Nat.mul_comm]
  exact hsplit ▸ hfull

/-- The double rounded toward zero to a whole number, with its sign. -/
def trunc (x : Binary64) : Binary64 :=
  if h : x.placesPerOne ≤ x.mantissa then
    ⟨x.negative, x.mantissa - x.mantissa % x.placesPerOne, x.scale,
      Nat.lt_of_le_of_lt (Nat.sub_le _ _) x.mantissa_lt, x.scale_le, full_cleared h⟩
  else zero x.negative

/-- The double nearest to the integer of a word. No word lies beyond the greatest double. -/
def ofWord {kind : WordKind} (word : Word kind) : Binary64 :=
  (ofInt? word.value).getD (zero false)

/-- The word nearest to the value rounded toward zero. -/
def toWord (kind : WordKind) (x : Binary64) : Word kind := Word.clamp kind x.integerPart

end Conformance.Binary64
