import Conformance.Literal
import Conformance.Proofs.Rounding
import Conformance.Proofs.Words

/-!
# Numbers compared by value

Every number is a rational number exactly. Two integers, or two doubles, are numerically equal
if they have one value: two integers that are no words of one kind have different signs, and so
have the doubles that are compared for them. But an integer meets a double only after it is
rounded to one. So an
integer that lies between two doubles is equal to the one it rounds onto, which has another
value. Among the numbers that are doubles, integers or not, equality is equality of values.
-/

namespace Conformance

namespace Binary64

/-- Doubles are compared by their values. -/
theorem sameValue_iff (x y : Binary64) : x.sameValue y = true ↔ x.value = y.value := by
  unfold sameValue value
  rw [beq_iff_eq, div_left_inj' oneInUnits_pos.ne', Int.cast_inj]

/-- Which of two doubles stands first does not matter. -/
theorem sameValue_comm (x y : Binary64) : x.sameValue y = y.sameValue x := by
  rw [Bool.eq_iff_iff, sameValue_iff, sameValue_iff, eq_comm]

/-- A double is a whole number if it has as many units. -/
theorem value_eq_intCast_iff (x : Binary64) (n : ℤ) :
    x.value = n ↔ x.signedUnits = n * (unitsPerOne : ℤ) := by
  unfold value
  rw [div_eq_iff oneInUnits_pos.ne']
  unfold oneInUnits
  exact_mod_cast Iff.rfl

/-- Which double is nearest depends on its value only, not on the sign of a zero. -/
theorem NearestTo.congr {x y : Binary64} {q : ℚ} (h : x.NearestTo q) (hv : y.value = x.value) :
    y.NearestTo q := by
  refine ⟨fun z => ?_, fun z hne heq => ?_⟩
  · rw [hv]
    exact h.le z
  · rw [hv] at hne heq
    rw [(parts_eq_of_units_eq (units_eq_of_value_eq hv)).1]
    exact h.tie z hne heq

/-- One is a double, and so is its opposite. -/
theorem exists_value_eq_one (negative : Bool) :
    ∃ x : Binary64, x.value = (if negative then -1 else 1 : ℤ) := by
  refine ⟨⟨negative, 4503599627370496, 1022, by decide, by decide, .inr (by decide)⟩, ?_⟩
  rw [value_eq_intCast_iff]
  cases negative <;> decide +kernel

/-- Nearest to a number from one on is a positive double. -/
theorem NearestTo.value_pos {x : Binary64} {q : ℚ} (h : x.NearestTo q) (hq : 1 ≤ q) :
    0 < x.value := by
  obtain ⟨one, hone⟩ := exists_value_eq_one false
  have hle := h.le one
  rw [hone, if_neg Bool.false_ne_true, Int.cast_one, abs_sub_comm 1 q,
    abs_of_nonneg (sub_nonneg.mpr hq)] at hle
  have hdistance := neg_abs_le (x.value - q)
  linarith

/-- Nearest to a number up to minus one is a negative double. -/
theorem NearestTo.value_neg {x : Binary64} {q : ℚ} (h : x.NearestTo q) (hq : q ≤ -1) :
    x.value < 0 := by
  obtain ⟨one, hone⟩ := exists_value_eq_one true
  have hle := h.le one
  rw [hone, if_pos rfl, Int.cast_neg, Int.cast_one, abs_of_nonneg (sub_nonneg.mpr hq)] at hle
  have hdistance := le_abs_self (x.value - q)
  linarith

end Binary64

namespace Number

/-- The exact value of a number. -/
def value : Number → ℚ
  | .int n _ => n
  | .float x => x.value

/-- An integer that is no double rounds onto the double that is nearest to it. -/
inductive RoundsOnto : Number → Number → Prop
  /-- The value of the integer is that of no double, and this double is nearest. -/
  | between {n : ℤ} {h : inIntegerRange n} {x : Binary64}
    (hbetween : ∀ y : Binary64, y.value ≠ n) (hnearest : x.NearestTo n) :
    RoundsOnto (.int n h) (.float x)

/-- What an integer rounds onto has another value. -/
theorem RoundsOnto.value_ne {a b : Number} (h : a.RoundsOnto b) : a.value ≠ b.value := by
  obtain ⟨hbetween, _⟩ := h
  exact (hbetween _).symm

/-- A number whose value is that of a double, whichever its kind. -/
def IsDouble (n : Number) : Prop := ∃ x : Binary64, x.value = n.value

/-- Nothing that is a double is rounded. -/
theorem IsDouble.not_roundsOnto {a b : Number} (h : a.IsDouble) : ¬a.RoundsOnto b := by
  rintro ⟨hbetween, _⟩
  obtain ⟨x, hx⟩ := h
  exact hbetween x hx

/-- An integer becomes a double that is nearest to it. -/
theorem toBinary64_nearest (n : ℤ) (h : inIntegerRange n) :
    (Number.int n h).toBinary64.NearestTo n := by
  have hrounds := Binary64.ofInt?_rounds n
  obtain ⟨y, hy⟩ := Option.isSome_iff_exists.mp
    (hrounds.isSome_iff.mpr (Binary64.lt_limit_of_inIntegerRange h))
  have hto : (Number.int n h).toBinary64 = y := by
    change (Binary64.ofInt? n).getD _ = y
    rw [hy, Option.getD_some]
  rw [hto]
  exact hrounds.nearest y hy

/-- An integer becomes a double of its own value, or else one that it rounds onto. -/
theorem toBinary64_value_eq_iff (n : ℤ) (h : inIntegerRange n) (x : Binary64) :
    (Number.int n h).toBinary64.value = x.value ↔
      (n : ℚ) = x.value ∨ (Number.int n h).RoundsOnto (.float x) := by
  have hnearest := toBinary64_nearest n h
  constructor
  · intro heq
    by_cases hdouble : ∃ y : Binary64, y.value = n
    · obtain ⟨y, hy⟩ := hdouble
      rw [← hy] at hnearest ⊢
      exact .inl (hnearest.value_eq.symm.trans heq)
    · exact .inr ⟨fun y hy => hdouble ⟨y, hy⟩, hnearest.congr heq.symm⟩
  · rintro (heq | ⟨_, hx⟩)
    · rw [heq] at hnearest
      exact hnearest.value_eq
    · exact hnearest.unique hx

/-- The double of a negative integer is not that of a positive one. -/
theorem sameValue_of_signs {m n : ℤ} (hm : inIntegerRange m) (hn : inIntegerRange n)
    (hneg : m < 0) (hpos : 0 < n) :
    (Number.int m hm).toBinary64.sameValue (Number.int n hn).toBinary64 = false := by
  have hbelow := (toBinary64_nearest m hm).value_neg (by exact_mod_cast Int.le_sub_one_of_lt hneg)
  have habove := (toBinary64_nearest n hn).value_pos (by exact_mod_cast hpos)
  rw [Bool.eq_false_iff, ne_eq, Binary64.sameValue_iff]
  exact (hbelow.trans habove).ne

/-- Two integers are numerically equal if they are equal: those that are no words of one kind
have different signs. -/
theorem numericallyEqual_int {m n : ℤ} (hm : inIntegerRange m) (hn : inIntegerRange n) :
    (Number.int m hm).numericallyEqual (.int n hn) = (m == n) := by
  unfold numericallyEqual
  split
  · next v w hv hw => rw [toWord?_int.mp hv, toWord?_int.mp hw]
  next hsigned =>
  split
  · next v w hv hw => rw [toWord?_int.mp hv, toWord?_int.mp hw]
  next hunsigned =>
  have hneither : ∀ kind : WordKind,
      (∀ v w, (Number.int m hm).toWord? kind = some v → (Number.int n hn).toWord? kind = some w →
        False) →
      ¬((kind.least ≤ m ∧ m ≤ kind.greatest) ∧ (kind.least ≤ n ∧ n ≤ kind.greatest)) :=
    fun kind hnone ⟨hv, hw⟩ =>
      hnone ⟨m, hv.1, hv.2⟩ ⟨n, hw.1, hw.2⟩ (toWord?_int.mpr rfl) (toWord?_int.mpr rfl)
  have hs := hneither .signed hsigned
  have hu := hneither .unsigned hunsigned
  have hm' := hm
  have hn' := hn
  simp only [inIntegerRange, Bool.and_eq_true, decide_eq_true_eq] at hm' hn'
  simp only [WordKind.least, WordKind.greatest] at hs hu
  rcases lt_or_ge m 0 with hneg | hnonneg
  · have hne : m ≠ n := by omega
    rw [sameValue_of_signs hm hn hneg (by omega), beq_eq_false_iff_ne.mpr hne]
  · have hne : m ≠ n := by omega
    rw [Binary64.sameValue_comm, sameValue_of_signs hn hm (by omega) (by omega),
      beq_eq_false_iff_ne.mpr hne]

/-- Nothing rounds onto an integer. -/
theorem not_roundsOnto_int {a : Number} {n : Int} {h : inIntegerRange n} :
    ¬a.RoundsOnto (.int n h) := by
  rintro ⟨⟩

/-- A double rounds onto nothing. -/
theorem not_float_roundsOnto {x : Binary64} {b : Number} : ¬(Number.float x).RoundsOnto b := by
  rintro ⟨⟩

/-- Numbers are numerically equal if they have one value, or one of them is an integer that
rounds onto the other. -/
theorem numericallyEqual_iff (a b : Number) :
    a.numericallyEqual b = true ↔ a.value = b.value ∨ a.RoundsOnto b ∨ b.RoundsOnto a := by
  cases a with
  | int m hm =>
    cases b with
    | int n hn =>
      rw [numericallyEqual_int, beq_iff_eq, value, value, Int.cast_inj,
        or_iff_left (not_or.mpr ⟨not_roundsOnto_int, not_roundsOnto_int⟩)]
    | float y =>
      rw [numericallyEqual_float, Binary64.sameValue_iff, or_iff_left not_roundsOnto_int]
      exact toBinary64_value_eq_iff m hm y
  | float x =>
    cases b with
    | int n hn =>
      rw [numericallyEqual_of_float, Binary64.sameValue_iff, or_iff_right not_roundsOnto_int,
        eq_comm, @eq_comm _ (value _)]
      exact toBinary64_value_eq_iff n hn x
    | float y =>
      rw [numericallyEqual_float, Binary64.sameValue_iff,
        or_iff_left (not_or.mpr ⟨not_float_roundsOnto, not_float_roundsOnto⟩)]
      rfl

/-- Numbers are numerically equal exactly if they have one value, unless one of them rounds onto
the other. -/
theorem numericallyEqual_exact_iff (a b : Number) :
    (a.numericallyEqual b = true ↔ a.value = b.value) ↔ ¬a.RoundsOnto b ∧ ¬b.RoundsOnto a := by
  rw [numericallyEqual_iff, or_iff_left_iff_imp, ← not_or]
  constructor
  · intro h hrounds
    have hne : a.value ≠ b.value := hrounds.elim RoundsOnto.value_ne fun h => h.value_ne.symm
    exact hne (h hrounds)
  · exact fun h hrounds => absurd hrounds h

end Number

namespace Literal

/-- Among numbers that are doubles, of either kind, literals match by value, so this is an
equivalence. -/
theorem accepts_double_equivalence :
    Equivalence fun a b : {n : Number // n.IsDouble} =>
      (Literal.number a.1).accepts (.number b.1) = true := by
  have hvalue : ∀ a b : {n : Number // n.IsDouble},
      (Literal.number a.1).accepts (.number b.1) = true ↔ a.1.value = b.1.value :=
    fun a b => (Number.numericallyEqual_exact_iff a.1 b.1).mpr
      ⟨a.2.not_roundsOnto, b.2.not_roundsOnto⟩
  constructor
  · exact fun a => (hvalue a a).mpr rfl
  · exact fun {a b} h => (hvalue b a).mpr ((hvalue a b).mp h).symm
  · exact fun {a b c} h h' => (hvalue a c).mpr (((hvalue a b).mp h).trans ((hvalue b c).mp h'))

/-- A numeric literal matches the numbers of its value, the double that it rounds onto and the
integers that round onto it, and nothing else. So it matches by value exactly the numbers that
are in no such relation to it, and among numbers that are doubles matching is an equivalence. -/
theorem accepts_number_iff (a b : Number) :
    ((Literal.number a).accepts (.number b) = true ↔
        a.value = b.value ∨ a.RoundsOnto b ∨ b.RoundsOnto a) ∧
      (((Literal.number a).accepts (.number b) = true ↔ a.value = b.value) ↔
        ¬a.RoundsOnto b ∧ ¬b.RoundsOnto a) ∧
      Equivalence fun a b : {n : Number // n.IsDouble} =>
        (Literal.number a.1).accepts (.number b.1) = true :=
  ⟨Number.numericallyEqual_iff a b, Number.numericallyEqual_exact_iff a b,
    accepts_double_equivalence⟩

/-- `2 ^ 53` as an integer. The integer after it is the first that is no double. -/
def lastExact : Number := .int 9007199254740992 (by decide)

/-- `2 ^ 53` as a double. -/
def lastExactDouble : Number :=
  .float ⟨false, 4503599627370496, 1075, by decide, by decide, .inr (by decide)⟩

/-- `2 ^ 53 + 1`, half way between two doubles. -/
def firstInexact : Number := .int 9007199254740993 (by decide)

/-- `2 ^ 53` and the integer after it match one double, which has the value of the first, and
they do not match each other. -/
theorem lastExactDouble_matches_both :
    (Literal.number firstInexact).accepts (.number lastExactDouble) = true ∧
      firstInexact.value ≠ lastExactDouble.value ∧
      (Literal.number lastExact).accepts (.number lastExactDouble) = true ∧
      lastExact.value = lastExactDouble.value ∧
      (Literal.number firstInexact).accepts (.number lastExact) = false := by
  have hvalue : lastExactDouble.value = (9007199254740992 : ℤ) :=
    (Binary64.value_eq_intCast_iff _ _).mpr (by decide +kernel)
  refine ⟨by decide +kernel, ?_, by decide +kernel, hvalue.symm, by decide +kernel⟩
  rw [hvalue]
  exact Int.cast_injective.ne (by decide)

end Literal

end Conformance
