import Conformance.Text.Quoted

/-!
# Reading quoted text

Text in quotes can be read back wherever it stands. A character is written as itself or as
an escape that says where it ends, and none is written with a quote in front, so that the
first quote that does not belong to an escape ends the text.
-/

namespace Conformance.Text

/-- The value of a hexadecimal digit in lower case. -/
def hexValue (c : Char) : Nat :=
  if c.isDigit then c.toNat - '0'.toNat else c.toNat - 'a'.toNat + 10

/-- The character that a mark behind a backslash stands for. -/
def ofMark (mark : Char) : Char :=
  match mark with
  | 't' => '\t'
  | 'r' => '\r'
  | 'n' => '\n'
  | '0' => '\x00'
  | mark => mark

/-- A character in front of a text that was read. -/
def inFront (c : Char) : Option (List Char × List Char) → Option (List Char × List Char) :=
  Option.map fun (text, rest) => (c :: text, rest)

/-- Where a reader of quoted text stands. -/
inductive QuoteState where
  /-- Between characters. -/
  | between
  /-- Behind a backslash. -/
  | escape
  /-- In the number of a hexadecimal escape, of which the digits so far have a value. -/
  | code (value : Nat)

/-- Reads text up to the quote that ends it, and gives it together with what stands behind
that quote. -/
def unquote? : QuoteState → List Char → Option (List Char × List Char)
  | _, [] => none
  | .between, c :: rest =>
    if c = '"' then some ([], rest)
    else if c = '\\' then unquote? .escape rest
    else inFront c (unquote? .between rest)
  | .escape, mark :: rest =>
    if mark = 'u' then unquote? (.code 0) rest
    else inFront (ofMark mark) (unquote? .between rest)
  | .code value, c :: rest =>
    if c = '\x7b' then unquote? (.code 0) rest
    else if c = '\x7d' then inFront (Char.ofNat value) (unquote? .between rest)
    else unquote? (.code (16 * value + hexValue c)) rest

/-- A hexadecimal digit has its value, and it is no brace. -/
theorem hexValue_digitChar : ∀ d < 16, hexValue (Nat.digitChar d) = d ∧
    Nat.digitChar d ≠ '\x7b' ∧ Nat.digitChar d ≠ '\x7d' := by decide

/-- A hexadecimal digit continues the number of an escape. -/
theorem unquote?_digit {d : Nat} (h : d < 16) (value : Nat) (rest : List Char) :
    unquote? (.code value) (Nat.digitChar d :: rest) =
      unquote? (.code (16 * value + d)) rest := by
  obtain ⟨hvalue, hopening, hclosing⟩ := hexValue_digitChar d h
  rw [unquote?, if_neg hopening, if_neg hclosing, hvalue]

/-- The digits of a number are read to the number. -/
theorem unquote?_toDigits (n : Nat) (rest : List Char) :
    unquote? (.code 0) (Nat.toDigits 16 n ++ rest) = unquote? (.code n) rest := by
  induction n using Nat.strongRecOn generalizing rest with
  | _ n ih =>
    rw [Nat.toDigits_eq_if (by decide)]
    by_cases hn : n < 16
    · rw [if_pos hn, List.singleton_append, unquote?_digit hn, Nat.mul_zero, Nat.zero_add]
    · have hdigit : n % 16 < 16 := Nat.mod_lt n (by decide)
      rw [if_neg hn, List.append_assoc, List.singleton_append, ih (n / 16) (by omega),
        unquote?_digit hdigit, Nat.div_add_mod]

/-- A hexadecimal escape is read to its character. -/
theorem unquote?_hexEscape (c : Char) (rest : List Char) :
    unquote? .between (hexEscape c ++ rest) = inFront c (unquote? .between rest) := by
  have hescape : hexEscape c ++ rest =
      '\\' :: 'u' :: '\x7b' :: (Nat.toDigits 16 c.toNat ++ '\x7d' :: rest) := by
    simp [hexEscape]
  have hopening : ∀ digits, unquote? .between ('\\' :: 'u' :: '\x7b' :: digits) =
      unquote? (.code 0) digits := fun _ => rfl
  have hclosing : unquote? (.code c.toNat) ('\x7d' :: rest) =
      inFront (Char.ofNat c.toNat) (unquote? .between rest) := rfl
  rw [hescape, hopening, unquote?_toDigits, hclosing, Char.ofNat_toNat]

/-- A character is read as it is written. -/
theorem unquote?_quoteChar (c : Char) (rest : List Char) :
    unquote? .between (quoteChar c ++ rest) = inFront c (unquote? .between rest) := by
  unfold quoteChar
  split
  case h_7 hquote hbackslash _ _ _ _ =>
    split
    · exact unquote?_hexEscape c rest
    · rw [List.singleton_append, unquote?, if_neg hquote, if_neg hbackslash]
  all_goals rfl

/-- Quoted text is read up to its closing quote, whatever stands behind it. -/
theorem unquote?_quoteChars (cs rest : List Char) :
    unquote? .between (cs.flatMap quoteChar ++ '"' :: rest) = some (cs, rest) := by
  induction cs with
  | nil => rfl
  | cons c cs ih =>
    rw [List.flatMap_cons, List.append_assoc, unquote?_quoteChar, ih]
    rfl

/-- A text in quotes begins with a quote and goes on as what is read. -/
theorem toList_quote_append (text : String) (rest : List Char) :
    (quote text).toList ++ rest = '"' :: (text.toList.flatMap quoteChar ++ '"' :: rest) := by
  rw [quote, String.toList_ofList, quoteChars, List.cons_append, List.cons_append,
    List.append_assoc, List.singleton_append]

end Conformance.Text
