import Conformance.Proofs.NumeralText
import Conformance.Proofs.Words

/-!
# Texts that are numbers

The texts that read as a number are the decimal numerals with blank margins whose value lies
below the limit from which rounding gives no double. The readers of signed words, of unsigned
words and of doubles take three languages that overlap: a word is a sign or none and digits, if
no digit on the way leaves the range, and only signed words can have a minus; a double is any
numeral, or a name of something that is not finite. One after the other they give the integer
of a word, of whichever kind, and otherwise the nearest double.
-/

namespace Conformance

namespace Numeral

variable {cs ds signText : List Char} {sign : Option Bool} {numeral : Numeral}

/-- A sign or none and at least one digit are a whole numeral. -/
theorem spelled_of_digits (hs : SignText sign signText) (hd : DigitsOnly ds) (hne : ds ≠ []) :
    Spelled ⟨sign, ds, none, none⟩ (signText ++ ds) := by
  have hspelled : Spelled ⟨sign, ds, none, none⟩ (signText ++ (ds ++ ([] ++ []))) :=
    .parts hs hd .none .none (.inl hne)
  rwa [List.append_nil, List.append_nil] at hspelled

/-- A whole numeral is a sign or none and at least one digit. -/
theorem Spelled.digits (h : numeral.Spelled cs) (hwhole : numeral.isWhole = true) :
    ∃ signText, SignText numeral.sign signText ∧ DigitsOnly numeral.whole ∧ numeral.whole ≠ [] ∧
      cs = signText ++ numeral.whole := by
  obtain @⟨_, whole, signText, fractionText, exponentText, fraction, exponent, hs, hw, hf, he,
    hne⟩ := h
  simp only [isWhole, Bool.and_eq_true, Option.isNone_iff_eq_none] at hwhole
  obtain ⟨rfl, rfl⟩ := hwhole
  cases hf
  cases he
  rw [List.append_nil, List.append_nil]
  exact ⟨signText, hs, hw, hne.resolve_right fun h => h rfl, rfl⟩

/-- A text spells one numeral at most. -/
theorem Spelled.unique {other : Numeral} (h : numeral.Spelled cs) (h' : other.Spelled cs) :
    numeral = other := Option.some.inj (h.parse?_eq.symm.trans h'.parse?_eq)

/-- Behind its sign a numeral begins with a digit or a point. -/
theorem Spelled.head_unsigned (h : numeral.Spelled cs) :
    (splitSign cs).1 = numeral.sign ∧
      ∃ c ∈ (splitSign cs).2.head?, c.isDigit = true ∨ c = '.' := by
  obtain @⟨sign, whole, signText, fractionText, exponentText, fraction, exponent, hs, hw, hf, he,
    hne⟩ := h
  rw [splitSign_append hs (Numeral.head_unsigned hw hf hne)]
  refine ⟨rfl, ?_⟩
  cases whole with
  | cons c whole => exact ⟨c, rfl, .inl (hw c List.mem_cons_self)⟩
  | nil =>
    cases hf with
    | none => exact absurd rfl (hne.resolve_left fun h => h rfl)
    | point => exact ⟨'.', rfl, .inr rfl⟩

end Numeral

namespace Word

variable {kind : WordKind} {cs ds signText : List Char} {sign : Option Bool} {negative : Bool}
  {word next : Word kind} {numeral : Numeral}

/-- A digit is appended if both steps stay in the range. -/
theorem appendDigit?_eq_some_iff {c : Char} :
    appendDigit? negative word c = some next ↔
      c.isDigit = true ∧ (kind.least ≤ 10 * word.value ∧ 10 * word.value ≤ kind.greatest) ∧
        next.value = if negative then 10 * word.value - (c.toNat - '0'.toNat : ℕ)
          else 10 * word.value + (c.toNat - '0'.toNat : ℕ) := by
  unfold appendDigit?
  by_cases hdigit : c.isDigit = true
  · rw [if_pos hdigit, Option.bind_eq_some_iff]
    simp only [ofInt?_eq_some_iff, hdigit, true_and]
    constructor
    · rintro ⟨shifted, hshifted, hnext⟩
      rw [hshifted] at hnext
      exact ⟨⟨hshifted ▸ shifted.least_le, hshifted ▸ shifted.le_greatest⟩, hnext⟩
    · rintro ⟨hrange, hnext⟩
      exact ⟨⟨_, hrange.1, hrange.2⟩, rfl, hnext⟩
  · rw [if_neg hdigit]
    exact iff_of_false nofun fun h => hdigit h.1

/-- Digits are read to a word exactly if their value is in its range: no step before the last
one is farther from zero. -/
theorem foldlM_appendDigit?_eq_some_iff :
    ds.foldlM (appendDigit? negative) (zero kind) = some word ↔
      Numeral.DigitsOnly ds ∧
        word.value = if negative then -(rowValue ds : ℤ) else rowValue ds := by
  induction ds using List.reverseRecOn generalizing word with
  | nil =>
    have hvalue : (if negative then -(rowValue [] : ℤ) else rowValue []) = 0 := by
      cases negative <;> rfl
    rw [hvalue, List.foldlM_nil]
    constructor
    · intro h
      cases h
      exact ⟨nofun, rfl⟩
    · exact fun h => congrArg some (Word.ext h.2.symm)
  | append_singleton ds c ih =>
    have hlast : ∀ from_ : Word kind, List.foldlM (appendDigit? negative) from_ [c] =
        appendDigit? negative from_ c := fun from_ => by
      rw [List.foldlM_cons]
      cases appendDigit? negative from_ c <;> rfl
    have hdigits : Numeral.DigitsOnly (ds ++ [c]) ↔
        Numeral.DigitsOnly ds ∧ c.isDigit = true := by
      simp only [Numeral.DigitsOnly, List.forall_mem_append, List.forall_mem_singleton]
    rw [List.foldlM_append, hdigits, Numeral.rowValue_concat]
    change ((ds.foldlM (appendDigit? negative) (zero kind)).bind _) = _ ↔ _
    rw [Option.bind_eq_some_iff]
    simp only [hlast, ih, appendDigit?_eq_some_iff]
    generalize rowValue ds = row
    generalize c.toNat - '0'.toNat = digit
    have hzero := kind.zero_inRange
    have hleast := word.least_le
    have hgreatest := word.le_greatest
    constructor
    · rintro ⟨before, ⟨hd, hbefore⟩, hc, _, hword⟩
      refine ⟨⟨hd, hc⟩, ?_⟩
      rw [hword, hbefore]
      cases negative
      · simp
      · simp only [if_true]
        omega
    · rintro ⟨⟨hd, hc⟩, hword⟩
      cases negative
      · simp only [Bool.false_eq_true, if_false] at hword ⊢
        exact ⟨⟨row, by omega, by omega⟩, ⟨hd, rfl⟩, hc, by dsimp only; omega, by
          dsimp only; omega⟩
      · simp only [if_true] at hword ⊢
        exact ⟨⟨-row, by omega, by omega⟩, ⟨hd, rfl⟩, hc, by dsimp only; omega, by
          dsimp only; omega⟩

/-- What is split off as a sign is one that the kind of words can have. -/
theorem splitSign_sound (kind : WordKind) (cs : List Char) :
    ∃ sign signText, Numeral.SignText sign signText ∧ cs = signText ++ (splitSign kind cs).2 ∧
      ((splitSign kind cs).1 = true ↔ sign = some true) ∧ (sign = some true → kind = .signed) := by
  unfold splitSign
  split
  · exact ⟨_, _, .plus, rfl, by simp, nofun⟩
  · split
    · next hkind => exact ⟨_, _, .minus, rfl, by simp, fun _ => hkind⟩
    · exact ⟨_, _, .none, rfl, by simp, nofun⟩
  · exact ⟨_, _, .none, rfl, by simp, nofun⟩

/-- A sign is split off before digits. -/
theorem splitSign_append (hs : Numeral.SignText sign signText)
    (hkind : sign = some true → kind = .signed) (hd : Numeral.DigitsOnly ds) :
    splitSign kind (signText ++ ds) = (decide (sign = some true), ds) := by
  cases hs with
  | plus => rfl
  | minus => exact if_pos (hkind rfl)
  | none =>
    rw [List.nil_append]
    unfold splitSign
    split
    · exact absurd (hd '+' List.mem_cons_self) (by decide)
    · exact absurd (hd '-' List.mem_cons_self) (by decide)
    · rfl

/-- A text reads as a word if it spells a whole numeral with a sign that the kind of words can
have, and with the value of the word. -/
theorem parse?_eq_some_iff :
    parse? kind cs = some word ↔
      ∃ numeral : Numeral, numeral.Spelled cs ∧ numeral.isWhole = true ∧
        (numeral.sign = some true → kind = .signed) ∧ word.value = numeral.wholeValue := by
  unfold parse?
  constructor
  · obtain ⟨sign, signText, hs, hcs, hnegative, hkind⟩ := splitSign_sound kind cs
    generalize splitSign kind cs = split at *
    intro h
    dsimp only at h
    split at h
    · cases h
    · next hne =>
      obtain ⟨hd, hvalue⟩ := foldlM_appendDigit?_eq_some_iff.mp h
      have hne' : split.2 ≠ [] := fun hnil => hne (List.isEmpty_iff.mpr hnil)
      refine ⟨⟨sign, split.2, none, none⟩, ?_, rfl, hkind, ?_⟩
      · rw [hcs]
        exact Numeral.spelled_of_digits hs hd hne'
      · rw [hvalue, Numeral.wholeValue, Numeral.isNegative, Numeral.digitsValue_eq]
        simp only [hnegative, decide_eq_true_eq]
  · rintro ⟨numeral, hspelled, hwhole, hkind, hvalue⟩
    obtain ⟨signText, hs, hd, hne, rfl⟩ := hspelled.digits hwhole
    rw [splitSign_append hs hkind hd]
    dsimp only
    rw [if_neg fun h => hne (List.isEmpty_iff.mp h), foldlM_appendDigit?_eq_some_iff]
    refine ⟨hd, ?_⟩
    rw [hvalue, Numeral.wholeValue, Numeral.isNegative, Numeral.digitsValue_eq]

/-- A text that spells a numeral reads as a word if the numeral is whole, with a sign that the
kind of words can have, and with the value of the word. -/
theorem parse?_of_spelled (h : numeral.Spelled cs) :
    parse? kind cs = some word ↔ numeral.isWhole = true ∧
      (numeral.sign = some true → kind = .signed) ∧ word.value = numeral.wholeValue := by
  rw [parse?_eq_some_iff]
  constructor
  · rintro ⟨other, hother, hword⟩
    rwa [h.unique hother]
  · exact fun hword => ⟨numeral, h, hword⟩

end Word

namespace Extended

variable {cs : List Char} {numeral : Numeral}

/-- A digit and a point are the same in lower case. -/
theorem toLower_eq {c : Char} (h : c.isDigit = true ∨ c = '.') : c.toLower = c := by
  have hupper : ¬(c.val ≥ 'A'.val ∧ c.val ≤ 'Z'.val) := by
    rcases h with h | rfl
    · simp only [Char.isDigit, Bool.and_eq_true, decide_eq_true_eq] at h
      grind
    · decide
  exact dif_neg hupper

/-- A numeral is read as a double, rounded, and only a finite one is a number. -/
theorem parse?_of_spelled (h : numeral.Spelled cs) :
    (parse? (String.ofList cs)).bind Number.ofExtended? = numeral.toBinary64?.map .float := by
  obtain ⟨hsign, c, hc, hhead⟩ := h.head_unsigned
  have hname : ∀ (name : String) (first : Char), name.toList.head? = some first →
      first.isDigit = false → first ≠ '.' →
      String.ofList ((Numeral.splitSign cs).2.map Char.toLower) ≠ name := by
    rintro name first hfirst hdigit hpoint rfl
    rw [String.toList_ofList, List.head?_map, hc, Option.map_some, toLower_eq hhead] at hfirst
    cases hfirst
    rcases hhead with hd | rfl
    · rw [hd] at hdigit
      cases hdigit
    · exact hpoint rfl
  have hinf : ¬(String.ofList ((Numeral.splitSign cs).2.map Char.toLower) = "inf" ∨
      String.ofList ((Numeral.splitSign cs).2.map Char.toLower) = "infinity") :=
    not_or.mpr ⟨hname "inf" 'i' rfl rfl (by decide), hname "infinity" 'i' rfl rfl (by decide)⟩
  have hnan : String.ofList ((Numeral.splitSign cs).2.map Char.toLower) ≠ "nan" :=
    hname "nan" 'n' rfl rfl (by decide)
  unfold parse?
  rw [String.toList_ofList]
  dsimp only
  rw [if_neg hinf, if_neg hnan, h.parse?_eq, Option.map_some, Option.bind_some]
  cases numeral.toBinary64? <;> rfl

/-- What is no numeral is no finite double, whether it is a name or not. -/
theorem parse?_of_not_numeral (h : Numeral.parse? cs = none) :
    (parse? (String.ofList cs)).bind Number.ofExtended? = none := by
  unfold parse?
  rw [String.toList_ofList, h]
  dsimp only
  split
  · rfl
  · split <;> rfl

end Extended

namespace Number

section Texts

variable {text : String} {core : List Char} {numeral : Numeral}

/-- An integer of a 64-bit word is kept. -/
theorem ofNumeral?_of_isWord {k : ℤ} (h : numeral.IsWord k) :
    ∃ inRange, ofNumeral? numeral numeral.isWhole = some (.int k inRange) := by
  obtain ⟨hw, rfl, hr⟩ := Numeral.isWord_iff.mp h
  refine ⟨hr, ?_⟩
  unfold ofNumeral? ofInt?
  rw [if_pos hw, dif_pos hr]

/-- Every other numeral is rounded. -/
theorem ofNumeral?_of_not_isWord (h : ∀ k, ¬numeral.IsWord k) :
    ofNumeral? numeral numeral.isWhole = numeral.toBinary64?.map .float := by
  unfold ofNumeral? ofInt?
  by_cases hw : numeral.isWhole = true
  · rw [if_pos hw, dif_neg fun hr => h _ (Numeral.isWord_iff.mpr ⟨hw, rfl, hr⟩)]
  · rw [if_neg hw]

/-- A numeral is written as an integer of a 64-bit word exactly if a word of one kind or the
other is read from it. -/
theorem exists_word_iff (h : numeral.Spelled core) {k : ℤ} :
    numeral.IsWord k ↔ (∃ word, Word.parse? .signed core = some word ∧ word.value = k) ∨
      ∃ word, Word.parse? .unsigned core = some word ∧ word.value = k := by
  simp only [Word.parse?_of_spelled h, Numeral.isWord_iff]
  constructor
  · rintro ⟨hw, rfl, hr⟩
    simp only [inIntegerRange, Bool.and_eq_true, decide_eq_true_eq] at hr
    by_cases hfits : fitsSigned numeral.wholeValue
    · obtain ⟨hl, hg⟩ := fitsSigned_iff.mp hfits
      exact .inl ⟨⟨_, hl, hg⟩, ⟨hw, fun _ => trivial, rfl⟩, rfl⟩
    · -- What no signed word holds is positive, so there is no minus.
      have hlarge : 9223372036854775808 ≤ numeral.wholeValue := by
        unfold fitsSigned at hfits
        omega
      have hsign : numeral.sign ≠ some true := by
        intro hminus
        rw [Numeral.wholeValue, Numeral.isNegative, hminus] at hlarge
        simp only [decide_true, if_true] at hlarge
        omega
      have hl : WordKind.unsigned.least ≤ numeral.wholeValue := by
        change 0 ≤ _
        omega
      have hg : numeral.wholeValue ≤ WordKind.unsigned.greatest := by
        change _ ≤ (18446744073709551615 : ℤ)
        omega
      exact .inr ⟨⟨_, hl, hg⟩, ⟨hw, fun hminus => absurd hminus hsign, rfl⟩, rfl⟩
  · rintro (⟨word, ⟨hw, _, hv⟩, rfl⟩ | ⟨word, ⟨hw, _, hv⟩, rfl⟩) <;>
      exact ⟨hw, hv.symm, inRange_of_word word⟩

/-- The three readers, one after the other, read what a numeral denotes: the integer of a word,
or else the nearest double. -/
theorem parse?_eq_ofNumeral? (h : Text.Trimmed text.toList core) :
    parse? text =
      (Numeral.parse? core).bind fun numeral => ofNumeral? numeral numeral.isWhole := by
  unfold parse?
  rw [Text.trimmed_iff.mp h]
  dsimp only
  cases hnumeral : Numeral.parse? core with
  | none =>
    have hword : ∀ kind, Word.parse? kind core = none := by
      intro kind
      rw [Option.eq_none_iff_forall_ne_some]
      intro word hword
      obtain ⟨numeral, hspelled, _⟩ := Word.parse?_eq_some_iff.mp hword
      rw [hspelled.parse?_eq] at hnumeral
      cases hnumeral
    rw [hword, hword, Extended.parse?_of_not_numeral hnumeral, ite_self]
    rfl
  | some numeral =>
    have hspelled := Numeral.parse?_eq_some_iff.mp hnumeral
    have hempty : ¬core.isEmpty = true := by
      intro hnil
      rw [List.isEmpty_iff.mp hnil] at hnumeral
      cases hnumeral
    have hread : ∀ {kind} {word : Word kind}, Word.parse? kind core = some word →
        some (ofWord word) = ofNumeral? numeral numeral.isWhole := by
      intro kind word hword
      have hisWord : numeral.IsWord word.value := by
        cases kind
        · exact (exists_word_iff hspelled).mpr (.inl ⟨word, hword, rfl⟩)
        · exact (exists_word_iff hspelled).mpr (.inr ⟨word, hword, rfl⟩)
      obtain ⟨_, heq⟩ := ofNumeral?_of_isWord hisWord
      exact heq.symm
    rw [if_neg hempty, Option.bind_some]
    cases hsigned : Word.parse? .signed core with
    | some word => exact hread hsigned
    | none =>
      cases hunsigned : Word.parse? .unsigned core with
      | some word => exact hread hunsigned
      | none =>
        have hnot : ∀ k, ¬numeral.IsWord k := by
          intro k hk
          rw [exists_word_iff hspelled, hsigned, hunsigned] at hk
          rcases hk with ⟨_, h, _⟩ | ⟨_, h, _⟩ <;> cases h
        rw [ofNumeral?_of_not_isWord hnot]
        exact Extended.parse?_of_spelled hspelled

/-- A text reads as the number of the numeral that it spells between its margins. -/
theorem parse?_eq_some_iff (h : Text.Trimmed text.toList core) {n : Number} :
    parse? text = some n ↔
      ∃ numeral : Numeral, numeral.Spelled core ∧
        ofNumeral? numeral numeral.isWhole = some n := by
  rw [parse?_eq_ofNumeral? h, Option.bind_eq_some_iff]
  exact exists_congr fun numeral => and_congr_left fun _ => Numeral.parse?_eq_some_iff

/-- A numeral is a number if its value lies below the limit. -/
theorem ofNumeral?_isSome_iff :
    (∃ n, ofNumeral? numeral numeral.isWhole = some n) ↔
      |numeral.value| < 2 ^ 1024 - 2 ^ 970 := by
  by_cases h : ∃ k, numeral.IsWord k
  · obtain ⟨k, hk⟩ := h
    obtain ⟨hr, heq⟩ := ofNumeral?_of_isWord hk
    refine iff_of_true ⟨_, heq⟩ ?_
    rw [hk.value]
    exact Binary64.lt_limit_of_inIntegerRange hr
  · rw [ofNumeral?_of_not_isWord (not_exists.mp h), ← numeral.toBinary64?_rounds.isSome_iff,
      ← Option.isSome_iff_exists, Option.isSome_map]

/-- A numeral is an integer if it is written as one of a 64-bit word. -/
theorem ofNumeral?_eq_int_iff {k : ℤ} :
    (∃ inRange, ofNumeral? numeral numeral.isWhole = some (.int k inRange)) ↔
      numeral.IsWord k := by
  refine ⟨fun ⟨hr, heq⟩ => ?_, ofNumeral?_of_isWord⟩
  by_cases h : ∃ l, numeral.IsWord l
  · obtain ⟨l, hl⟩ := h
    obtain ⟨_, heq'⟩ := ofNumeral?_of_isWord hl
    cases heq.symm.trans heq'
    exact hl
  · rw [ofNumeral?_of_not_isWord (not_exists.mp h)] at heq
    obtain ⟨_, _, hfloat⟩ := Option.map_eq_some_iff.mp heq
    cases hfloat

/-- A numeral is a double if it is not written as an integer of a 64-bit word. -/
theorem ofNumeral?_eq_float_iff {x : Binary64} :
    ofNumeral? numeral numeral.isWhole = some (.float x) ↔
      (∀ k, ¬numeral.IsWord k) ∧ numeral.toBinary64? = some x := by
  by_cases h : ∃ k, numeral.IsWord k
  · obtain ⟨k, hk⟩ := h
    obtain ⟨_, heq⟩ := ofNumeral?_of_isWord hk
    rw [heq]
    exact iff_of_false nofun fun hnot => hnot.1 k hk
  · have hnot := not_exists.mp h
    rw [ofNumeral?_of_not_isWord hnot, Option.map_eq_some_iff]
    constructor
    · rintro ⟨y, hy, hfloat⟩
      cases hfloat
      exact ⟨hnot, hy⟩
    · rintro ⟨_, hx⟩
      exact ⟨x, hx, rfl⟩

/-- The texts that read as a number are the decimal numerals with blank margins whose value
lies below the limit. Written as an integer of a 64-bit word the number is that integer, and
otherwise the nearest double with the sign as written. -/
theorem parse?_reads_decimals (h : Text.Trimmed text.toList core) :
    ((∃ n, parse? text = some n) ↔
        ∃ numeral : Numeral, numeral.Spelled core ∧ |numeral.value| < 2 ^ 1024 - 2 ^ 970) ∧
      (∀ k : ℤ, (∃ inRange, parse? text = some (.int k inRange)) ↔
        ∃ numeral : Numeral, numeral.Spelled core ∧ numeral.IsWord k) ∧
      ∀ x : Binary64, parse? text = some (.float x) ↔
        ∃ numeral : Numeral, numeral.Spelled core ∧ (∀ k, ¬numeral.IsWord k) ∧
          |numeral.value| < 2 ^ 1024 - 2 ^ 970 ∧ x.NearestTo numeral.value ∧
            x.negative = numeral.isNegative := by
  refine ⟨?_, fun k => ?_, fun x => ?_⟩
  · simp only [parse?_eq_some_iff h, ← ofNumeral?_isSome_iff]
    constructor
    · rintro ⟨n, numeral, hs, hn⟩
      exact ⟨numeral, hs, n, hn⟩
    · rintro ⟨numeral, hs, n, hn⟩
      exact ⟨n, numeral, hs, hn⟩
  · simp only [parse?_eq_some_iff h, ← ofNumeral?_eq_int_iff]
    constructor
    · rintro ⟨inRange, numeral, hs, hn⟩
      exact ⟨numeral, hs, inRange, hn⟩
    · rintro ⟨numeral, hs, inRange, hn⟩
      exact ⟨inRange, numeral, hs, hn⟩
  · rw [parse?_eq_some_iff h]
    simp only [ofNumeral?_eq_float_iff, Numeral.toBinary64?_eq_some_iff]

/-- A sign and leading zeros are read, and the margins are not. -/
theorem paddedSeven_is_read :
    Text.Trimmed "\t +007\n".toList "+007".toList ∧
      ∃ inRange, parse? "\t +007\n" = some (.int 7 inRange) := by
  have htrimmed : Text.Trimmed "\t +007\n".toList "+007".toList :=
    Text.trimmed_iff.mpr (by decide)
  have hspelled : Numeral.Spelled ⟨some false, ['0', '0', '7'], none, none⟩ "+007".toList :=
    Numeral.parse?_eq_some_iff.mp rfl
  have hword : Numeral.IsWord ⟨some false, ['0', '0', '7'], none, none⟩ 7 :=
    Numeral.isWord_iff.mpr (by decide)
  exact ⟨htrimmed, ((parse?_reads_decimals htrimmed).2.1 7).mpr ⟨_, hspelled, hword⟩⟩

end Texts

end Number

end Conformance
