import Conformance.Proofs.Rounding
import Mathlib.Data.List.TakeWhile
import Mathlib.Data.Nat.Digits.Defs

/-!
# How numerals are spelled

The grammar of decimal numerals and their values, stated on their own. The reader splits a text
from the left, and since no part of a numeral begins with a character that the part before it
could take, it finds the one way in which the text is spelled.
-/

namespace Conformance

section Prefixes

variable {α : Type} {p : α → Bool} {ds rest : List α}

/-- The characters taken from a row end where one is not of their kind. -/
theorem takeWhile_append_stop (hd : ∀ c ∈ ds, p c = true) (hr : ∀ c ∈ rest.head?, p c = false) :
    (ds ++ rest).takeWhile p = ds := by
  rw [List.takeWhile_append_of_pos hd]
  cases rest with
  | nil => simp
  | cons c rest => rw [List.takeWhile_cons_of_neg (by simp [hr c rfl]), List.append_nil]

/-- The characters dropped from a row end where one is not of their kind. -/
theorem dropWhile_append_stop (hd : ∀ c ∈ ds, p c = true) (hr : ∀ c ∈ rest.head?, p c = false) :
    (ds ++ rest).dropWhile p = rest := by
  rw [List.dropWhile_append_of_pos hd]
  cases rest with
  | nil => rfl
  | cons c rest => exact List.dropWhile_cons_of_neg (by simp [hr c rfl])

/-- What is left of a row begins with a character of another kind. -/
theorem head?_dropWhile_false (p : α → Bool) (cs : List α) :
    ∀ c ∈ (cs.dropWhile p).head?, p c = false := by
  intro c hc
  have hnot := List.head?_dropWhile_not p cs
  rw [Option.mem_def.mp hc] at hnot
  simpa using hnot

end Prefixes

namespace Text

/-- A text is what is left of another without its blank margins. -/
structure Trimmed (cs core : List Char) : Prop where
  /-- What is gone are blank characters at both ends. -/
  margins : ∃ left right, cs = left ++ core ++ right ∧ (∀ c ∈ left, isBlank c = true) ∧
    ∀ c ∈ right, isBlank c = true
  /-- The first character that is left is not blank. -/
  head : ∀ c ∈ core.head?, isBlank c = false
  /-- The last character that is left is not blank. -/
  last : ∀ c ∈ core.getLast?, isBlank c = false

/-- Every text can be trimmed, in one way. -/
theorem trimmed_iff {cs core : List Char} : Trimmed cs core ↔ trimBlank cs = core := by
  constructor
  · rintro ⟨⟨left, right, rfl, hleft, hright⟩, hhead, hlast⟩
    unfold trimBlank
    by_cases hnil : core = []
    · have hblank : (left ++ core ++ right).dropWhile isBlank = [] := by
        rw [List.dropWhile_eq_nil_iff, hnil, List.append_nil]
        exact fun c hc => (List.mem_append.mp hc).elim (hleft c) (hright c)
      rw [hblank, hnil]
      rfl
    · have hfirst : ∀ c ∈ (core ++ right).head?, isBlank c = false := by
        rwa [List.head?_append_of_ne_nil _ hnil]
      have hlast' : ∀ c ∈ core.reverse.head?, isBlank c = false := by rwa [List.head?_reverse]
      have hright' : ∀ c ∈ right.reverse, isBlank c = true := by simpa using hright
      rw [List.append_assoc, dropWhile_append_stop hleft hfirst, List.reverse_append,
        dropWhile_append_stop hright' hlast', List.reverse_reverse]
  · rintro rfl
    have hleft := List.takeWhile_append_dropWhile (p := isBlank) (l := cs)
    have hfirst := head?_dropWhile_false isBlank cs
    unfold trimBlank
    generalize cs.dropWhile isBlank = rest at *
    have hright := List.takeWhile_append_dropWhile (p := isBlank) (l := rest.reverse)
    have hlast := head?_dropWhile_false isBlank rest.reverse
    generalize hcore : rest.reverse.dropWhile isBlank = core at *
    have hrest : rest = core.reverse ++ (rest.reverse.takeWhile isBlank).reverse := by
      rw [← List.reverse_append, hright, List.reverse_reverse]
    refine ⟨⟨cs.takeWhile isBlank, (rest.reverse.takeWhile isBlank).reverse, ?_,
      fun c => List.mem_takeWhile_imp, fun c hc => ?_⟩, fun c hc => ?_, ?_⟩
    · rw [List.append_assoc, ← hrest, hleft]
    · exact List.mem_takeWhile_imp (List.mem_reverse.mp hc)
    · refine hfirst c ?_
      rw [hrest]
      exact List.mem_head?_append_of_mem_head? hc
    · rwa [List.getLast?_reverse]

end Text

/-- The number that a row of digits denotes: each digit stands for ten times as much as the
one after it. -/
def rowValue (digits : List Char) : ℕ :=
  Nat.ofDigits 10 (digits.reverse.map fun c => c.toNat - '0'.toNat)

namespace Numeral

section Grammar

/-- A row of digits. -/
def DigitsOnly (ds : List Char) : Prop := ∀ c ∈ ds, c.isDigit = true

/-- How a sign is written, if there is one. -/
inductive SignText : Option Bool → List Char → Prop
  /-- No sign. -/
  | none : SignText none []
  /-- A plus. -/
  | plus : SignText (some false) ['+']
  /-- A minus. -/
  | minus : SignText (some true) ['-']

/-- How a point with the digits after it is written, if there is a point. -/
inductive FractionText : Option (List Char) → List Char → Prop
  /-- No point. -/
  | none : FractionText none []
  /-- A point, and digits or none. -/
  | point {ds : List Char} (hd : DigitsOnly ds) : FractionText (some ds) ('.' :: ds)

/-- How an exponent is written, if there is one. -/
inductive ExponentText : Option ℤ → List Char → Prop
  /-- No exponent. -/
  | none : ExponentText none []
  /-- A letter, a sign or none, and at least one digit. -/
  | power {mark : Char} {sign : Option Bool} {signText ds : List Char}
    (hmark : mark = 'e' ∨ mark = 'E') (hs : SignText sign signText) (hd : DigitsOnly ds)
    (hne : ds ≠ []) :
    ExponentText (some (if sign = some true then -(rowValue ds : ℤ) else rowValue ds))
      (mark :: (signText ++ ds))

/-- How a numeral is written: a sign or none, digits, a point with digits or none, and an
exponent or none, with at least one digit on one side of the point. -/
inductive Spelled : Numeral → List Char → Prop
  /-- The parts one after the other. -/
  | parts {sign : Option Bool} {whole signText fractionText exponentText : List Char}
    {fraction : Option (List Char)} {exponent : Option ℤ}
    (hs : SignText sign signText) (hw : DigitsOnly whole)
    (hf : FractionText fraction fractionText) (he : ExponentText exponent exponentText)
    (hne : whole ≠ [] ∨ fraction.getD [] ≠ []) :
    Spelled ⟨sign, whole, fraction, exponent⟩
      (signText ++ (whole ++ (fractionText ++ exponentText)))

/-- The exact value of a numeral. -/
def value (n : Numeral) : ℚ :=
  Binary64.withSign n.isNegative
    ((rowValue n.whole + rowValue (n.fraction.getD []) / 10 ^ (n.fraction.getD []).length) *
      10 ^ n.exponent.getD 0)

end Grammar

section Reading

variable {cs ds rest signText : List Char} {sign : Option Bool}

/-- A digit is no sign, no point and no letter. -/
theorem isDigit_ne {c d : Char} (hc : c.isDigit = true) (hd : d.isDigit = false) : c ≠ d := by
  rintro rfl
  rw [hc] at hd
  cases hd

/-- One more digit makes a row ten times as much, and the digit. -/
theorem rowValue_concat (ds : List Char) (c : Char) :
    rowValue (ds ++ [c]) = 10 * rowValue ds + (c.toNat - '0'.toNat) := by
  unfold rowValue
  rw [List.reverse_append, List.reverse_singleton, List.singleton_append, List.map_cons,
    Nat.ofDigits_cons, Nat.add_comm]

/-- The value that reading accumulates is the value of the row. -/
theorem digitsValue_eq (ds : List Char) : digitsValue ds = rowValue ds := by
  induction ds using List.reverseRecOn with
  | nil => rfl
  | append_singleton ds c ih =>
    have hstep : digitsValue (ds ++ [c]) = 10 * digitsValue ds + (c.toNat - '0'.toNat) := by
      unfold digitsValue
      rw [List.foldl_append]
      rfl
    rw [hstep, rowValue_concat, ih]

/-- The digits after a row of digits continue it. -/
theorem rowValue_append (ds more : List Char) :
    rowValue (ds ++ more) = rowValue ds * 10 ^ more.length + rowValue more := by
  unfold rowValue
  rw [List.reverse_append, List.map_append, Nat.ofDigits_append, List.length_map,
    List.length_reverse]
  ring

/-- What is split off as a sign is one. -/
theorem splitSign_sound (cs : List Char) :
    ∃ signText, SignText (splitSign cs).1 signText ∧ cs = signText ++ (splitSign cs).2 := by
  unfold splitSign
  split
  · exact ⟨_, .minus, rfl⟩
  · exact ⟨_, .plus, rfl⟩
  · exact ⟨_, .none, rfl⟩

/-- A sign is split off before anything that does not begin with one. -/
theorem splitSign_append (hs : SignText sign signText)
    (hr : ∀ c ∈ rest.head?, c ≠ '-' ∧ c ≠ '+') :
    splitSign (signText ++ rest) = (sign, rest) := by
  cases hs with
  | plus => rfl
  | minus => rfl
  | none =>
    rw [List.nil_append]
    unfold splitSign
    split
    · exact absurd rfl (hr _ rfl).1
    · exact absurd rfl (hr _ rfl).2
    · rfl

/-- What is split off as digits are digits. -/
theorem splitDigits_sound (cs : List Char) :
    DigitsOnly (splitDigits cs).1 ∧ cs = (splitDigits cs).1 ++ (splitDigits cs).2 :=
  ⟨fun _ => List.mem_takeWhile_imp, List.takeWhile_append_dropWhile.symm⟩

/-- Digits are split off before anything that does not begin with one. -/
theorem splitDigits_append (hd : DigitsOnly ds) (hr : ∀ c ∈ rest.head?, c.isDigit = false) :
    splitDigits (ds ++ rest) = (ds, rest) :=
  Prod.ext (takeWhile_append_stop hd hr) (dropWhile_append_stop hd hr)

/-- What is split off as a fraction is one. -/
theorem splitFraction_sound (cs : List Char) :
    ∃ fractionText, FractionText (splitFraction cs).1 fractionText ∧
      cs = fractionText ++ (splitFraction cs).2 := by
  unfold splitFraction
  split
  · next rest =>
    obtain ⟨hd, hrest⟩ := splitDigits_sound rest
    exact ⟨_, .point hd, congrArg ('.' :: ·) hrest⟩
  · exact ⟨_, .none, rfl⟩

/-- A fraction is split off before anything that begins neither with a point nor with a
digit. -/
theorem splitFraction_append {fraction : Option (List Char)} {fractionText : List Char}
    (hf : FractionText fraction fractionText)
    (hr : ∀ c ∈ rest.head?, c ≠ '.' ∧ c.isDigit = false) :
    splitFraction (fractionText ++ rest) = (fraction, rest) := by
  cases hf with
  | none =>
    rw [List.nil_append]
    unfold splitFraction
    split
    · exact absurd rfl (hr _ rfl).1
    · rfl
  | point hd =>
    have hsplit := splitDigits_append hd fun c hc => (hr c hc).2
    change (some (splitDigits (_ ++ rest)).1, (splitDigits (_ ++ rest)).2) = _
    rw [hsplit]

/-- A text that reads as an exponent is a sign or none and at least one digit. -/
theorem parseExponent?_sound {e : ℤ} (h : parseExponent? cs = some e) {mark : Char}
    (hmark : mark = 'e' ∨ mark = 'E') : ExponentText (some e) (mark :: cs) := by
  obtain ⟨signText, hs, hcs⟩ := splitSign_sound cs
  obtain ⟨hd, hrest⟩ := splitDigits_sound (splitSign cs).2
  unfold parseExponent? at h
  dsimp only at h
  generalize splitSign cs = signed at *
  generalize splitDigits signed.2 = split at *
  rw [digitsValue_eq] at h
  split at h
  · cases h
  · next hsome =>
    simp only [Bool.or_eq_true, Bool.not_eq_true', not_or, List.isEmpty_iff,
      Bool.not_eq_false] at hsome
    obtain ⟨hne, hnil⟩ := hsome
    rw [hrest, hnil, List.append_nil] at hcs
    rw [hcs]
    have hvalue : e = if signed.1 = some true then -(rowValue split.1 : ℤ)
        else rowValue split.1 := by
      split at h
      · next hminus =>
        rw [if_pos hminus]
        exact (Option.some.inj h).symm
      · next hplus =>
        rw [if_neg hplus]
        exact (Option.some.inj h).symm
    rw [hvalue]
    exact .power hmark hs hd hne

/-- A sign or none and at least one digit read as an exponent. -/
theorem parseExponent?_append (hs : SignText sign signText) (hd : DigitsOnly ds)
    (hne : ds ≠ []) :
    parseExponent? (signText ++ ds) =
      some (if sign = some true then -(rowValue ds : ℤ) else rowValue ds) := by
  have hsign := splitSign_append hs fun c hc => by
    have hc' := hd c (List.mem_of_mem_head? hc)
    exact ⟨isDigit_ne hc' (by decide), isDigit_ne hc' (by decide)⟩
  have hend : ∀ c ∈ ([] : List Char).head?, c.isDigit = false := nofun
  have hdigits := splitDigits_append hd hend
  rw [List.append_nil] at hdigits
  unfold parseExponent?
  rw [hsign]
  dsimp only
  rw [hdigits]
  dsimp only
  rw [if_neg (by simpa using hne), digitsValue_eq]
  split <;> rfl

/-- An exponent begins with a letter. -/
theorem ExponentText.head {exponent : Option ℤ} {exponentText : List Char}
    (he : ExponentText exponent exponentText) :
    ∀ c ∈ exponentText.head?, c ≠ '.' ∧ c.isDigit = false := by
  cases he with
  | none => exact nofun
  | power hmark =>
    intro c hc
    cases hc
    rcases hmark with rfl | rfl <;> decide

/-- A fraction and an exponent do not begin with a digit. -/
theorem head_fraction_exponent {fraction : Option (List Char)} {exponent : Option ℤ}
    {fractionText exponentText : List Char} (hf : FractionText fraction fractionText)
    (he : ExponentText exponent exponentText) :
    ∀ c ∈ (fractionText ++ exponentText).head?, c.isDigit = false := by
  cases hf with
  | none => exact fun c hc => (he.head c hc).2
  | point =>
    intro c hc
    cases hc
    decide

/-- A numeral without its sign begins with a digit or a point. -/
theorem head_unsigned {whole fractionText exponentText : List Char}
    {fraction : Option (List Char)} (hw : DigitsOnly whole)
    (hf : FractionText fraction fractionText) (hne : whole ≠ [] ∨ fraction.getD [] ≠ []) :
    ∀ c ∈ (whole ++ (fractionText ++ exponentText)).head?, c ≠ '-' ∧ c ≠ '+' := by
  intro c hc
  cases whole with
  | cons d whole =>
    have hc' := hw c (List.mem_of_mem_head? (l := d :: whole) hc)
    exact ⟨isDigit_ne hc' (by decide), isDigit_ne hc' (by decide)⟩
  | nil =>
    cases hf with
    | none => exact absurd rfl (hne.resolve_left fun h => h rfl)
    | point =>
      cases hc
      decide

/-- A text that reads as a numeral is spelled as the grammar says. -/
theorem spelled_of_parse? {n : Numeral} (h : parse? cs = some n) : n.Spelled cs := by
  obtain ⟨signText, hs, hcs⟩ := splitSign_sound cs
  obtain ⟨hw, hwhole⟩ := splitDigits_sound (splitSign cs).2
  obtain ⟨fractionText, hf, hrest⟩ := splitFraction_sound (splitDigits (splitSign cs).2).2
  unfold parse? at h
  dsimp only at h
  generalize splitSign cs = signed at *
  generalize splitDigits signed.2 = split at *
  generalize splitFraction split.2 = last at *
  obtain ⟨fraction, rest⟩ := last
  dsimp only at h hf hrest
  rw [hcs, hwhole, hrest]
  split at h
  · cases h
  next hsome =>
  have hne : split.1 ≠ [] ∨ fraction.getD [] ≠ [] := by
    simpa [Decidable.imp_iff_not_or] using hsome
  split at h
  · cases h
    exact .parts hs hw hf .none hne
  · next mark rest =>
    split at h
    · next hmark =>
      obtain ⟨e, he, rfl⟩ := Option.map_eq_some_iff.mp h
      exact .parts hs hw hf (parseExponent?_sound he hmark) hne
    · cases h

/-- A text that is spelled as the grammar says reads as the numeral that it spells. -/
theorem Spelled.parse?_eq {n : Numeral} (h : n.Spelled cs) : parse? cs = some n := by
  obtain @⟨sign, whole, signText, fractionText, exponentText, fraction, exponent, hs, hw, hf,
    he, hne⟩ := h
  have hunsigned : ∀ c ∈ (whole ++ (fractionText ++ exponentText)).head?, c ≠ '-' ∧ c ≠ '+' :=
    head_unsigned hw hf hne
  have hsign := splitSign_append hs hunsigned
  have hdigits := splitDigits_append hw (head_fraction_exponent hf he)
  have hfraction := splitFraction_append hf he.head
  unfold parse?
  rw [hsign]
  dsimp only
  rw [hdigits]
  dsimp only
  rw [hfraction]
  dsimp only
  rw [if_neg (by simpa [Decidable.imp_iff_not_or] using hne)]
  cases he with
  | none => rfl
  | power hmark hs hd hnonempty =>
    dsimp only
    rw [if_pos hmark, parseExponent?_append hs hd hnonempty]
    rfl

/-- The reader takes exactly the texts of the grammar. -/
theorem parse?_eq_some_iff {n : Numeral} : parse? cs = some n ↔ n.Spelled cs :=
  ⟨spelled_of_parse?, Spelled.parse?_eq⟩

end Reading

section Values

/-- The digits on both sides of the point are one row, with a lesser power of ten. -/
theorem value_eq (n : Numeral) :
    n.value = Binary64.withSign n.isNegative
      ((digitsValue (n.whole ++ n.fraction.getD []) : ℚ) *
        10 ^ (n.exponent.getD 0 - (n.fraction.getD []).length)) := by
  unfold value
  rw [digitsValue_eq, rowValue_append, zpow_sub₀ (by norm_num), zpow_natCast]
  congr 1
  push_cast
  field_simp

/-- A numeral becomes the double that is nearest to its value. -/
theorem toBinary64?_rounds (n : Numeral) : Binary64.Rounds n.toBinary64? n.value := by
  rw [value_eq]
  exact Binary64.ofDecimal?_rounds _ _ _

/-- A numeral without point and exponent denotes a whole number. -/
theorem value_of_isWhole {n : Numeral} (h : n.isWhole = true) : n.value = n.wholeValue := by
  obtain ⟨sign, whole, fraction, exponent⟩ := n
  simp only [isWhole, Bool.and_eq_true, Option.isNone_iff_eq_none] at h
  obtain ⟨rfl, rfl⟩ := h
  unfold value wholeValue Binary64.withSign
  rw [digitsValue_eq]
  have hempty : rowValue [] = 0 := rfl
  dsimp only [Option.getD_none]
  rw [hempty, Nat.cast_zero, zero_div, add_zero, zpow_zero, mul_one]
  split
  · rw [Int.cast_neg, Int.cast_natCast]
  · exact (Int.cast_natCast _).symm

/-- A numeral becomes the double that is nearest to its value and has its sign. -/
theorem toBinary64?_eq_some_iff {n : Numeral} {x : Binary64} :
    n.toBinary64? = some x ↔
      |n.value| < 2 ^ 1024 - 2 ^ 970 ∧ x.NearestTo n.value ∧ x.negative = n.isNegative := by
  have hrounds := n.toBinary64?_rounds
  constructor
  · intro h
    exact ⟨hrounds.isSome_iff.mp (by rw [h]; rfl), hrounds.nearest x h,
      Binary64.negative_of_ofDecimal? h⟩
  · rintro ⟨hlt, hx, hsign⟩
    obtain ⟨y, hy⟩ := Option.isSome_iff_exists.mp (hrounds.isSome_iff.mpr hlt)
    have hvalue : y.value = x.value := (hrounds.nearest y hy).unique hx
    have hsame : y.negative = x.negative := (Binary64.negative_of_ofDecimal? hy).trans hsign.symm
    rw [hy, Binary64.eq_of_value_eq hvalue hsame]

/-- A numeral that is written without point and exponent and denotes an integer of a 64-bit
word, signed or unsigned. -/
structure IsWord (n : Numeral) (k : ℤ) : Prop where
  /-- There is no point. -/
  fraction : n.fraction = none
  /-- There is no exponent. -/
  exponent : n.exponent = none
  /-- The value is the integer. -/
  value : n.value = k
  /-- The integer is at least the least one of a signed word. -/
  least : -2 ^ 63 ≤ k
  /-- The integer is at most the greatest one of an unsigned word. -/
  greatest : k < 2 ^ 64

/-- Such a numeral is whole, and the integer is in range. -/
theorem isWord_iff {n : Numeral} {k : ℤ} :
    n.IsWord k ↔ n.isWhole = true ∧ n.wholeValue = k ∧ inIntegerRange k = true := by
  have hrange : inIntegerRange k = true ↔ -2 ^ 63 ≤ k ∧ k < 2 ^ 64 := by
    simp only [inIntegerRange, Bool.and_eq_true, decide_eq_true_eq]
    omega
  have hwhole : n.isWhole = true ↔ n.fraction = none ∧ n.exponent = none := by
    simp only [isWhole, Bool.and_eq_true, Option.isNone_iff_eq_none]
  rw [hrange]
  constructor
  · rintro ⟨hf, he, hv, hl, hg⟩
    have hw := hwhole.mpr ⟨hf, he⟩
    rw [value_of_isWhole hw, Int.cast_inj] at hv
    exact ⟨hw, hv, hl, hg⟩
  · rintro ⟨hw, hv, hl, hg⟩
    exact ⟨(hwhole.mp hw).1, (hwhole.mp hw).2, by rw [value_of_isWhole hw, hv], hl, hg⟩

end Values

end Numeral

end Conformance
