import Conformance.Json

/-!
# Reading JSON text

The grammar is that of RFC 8259, with white space between tokens. A number
without point and exponent is an integer when it is in range, except `-0`,
which is a double; every other number is the nearest double. A key that
occurs twice keeps its first place and its last value.
-/

namespace Conformance.Json

/-- Drops the blanks that JSON allows between tokens. -/
def skipBlanks (cs : List Char) : List Char :=
  cs.dropWhile fun c => c = ' ' || c = '\t' || c = '\n' || c = '\r'

/-- Whether a character may belong to a number. -/
def isNumberChar (c : Char) : Bool :=
  c.isDigit || c = '-' || c = '+' || c = '.' || c = 'e' || c = 'E'

/-- Whether a numeral follows the narrower grammar of JSON: no plus sign, no
leading zero, digits on both sides of a point. -/
def isJsonNumeral (n : Numeral) : Bool :=
  n.sign ≠ some false && !n.whole.isEmpty && (n.whole.length = 1 || n.whole.head? ≠ some '0')
    && n.fraction ≠ some []

/-- Whether a numeral denotes an integer in JSON text: it is whole, and is not
zero with a minus sign. -/
def denotesInteger (n : Numeral) : Bool :=
  n.isWhole && !(n.isNegative && n.wholeValue = 0)

/-- Reads a number token. -/
def readNumber? (cs : List Char) : Option (Json × List Char) := do
  let numeral ← Numeral.parse? (cs.takeWhile isNumberChar)
  if isJsonNumeral numeral then
    let value ← Number.ofNumeral? numeral (denotesInteger numeral)
    some (.number value, cs.dropWhile isNumberChar)
  else none

/-- The value of a hexadecimal digit. -/
def hexDigit? (c : Char) : Option Nat :=
  if c.isDigit then some (c.toNat - '0'.toNat)
  else if 'a' ≤ c ∧ c ≤ 'f' then some (c.toNat - 'a'.toNat + 10)
  else if 'A' ≤ c ∧ c ≤ 'F' then some (c.toNat - 'A'.toNat + 10)
  else none

/-- Reads the four digits of a hexadecimal escape. -/
def readHex? : List Char → Option (Nat × List Char)
  | a :: b :: c :: d :: rest => do
    let a ← hexDigit? a
    let b ← hexDigit? b
    let c ← hexDigit? c
    let d ← hexDigit? d
    some (((a * 16 + b) * 16 + c) * 16 + d, rest)
  | _ => none

/-- The character of a code point that is no surrogate. -/
def charOf? (n : Nat) : Option Char :=
  if h : n.isValidChar then some (Char.ofNatAux n h) else none

/-- Reads what follows the `u` of a hexadecimal escape; a high surrogate takes
the low one from a second escape. -/
def readUnicode? (cs : List Char) : Option (Char × List Char) := do
  let (high, rest) ← readHex? cs
  if 0xD800 ≤ high ∧ high < 0xDC00 then
    match rest with
    | '\\' :: 'u' :: rest =>
      let (low, rest) ← readHex? rest
      if 0xDC00 ≤ low ∧ low < 0xE000 then
        let c ← charOf? (0x10000 + (high - 0xD800) * 0x400 + (low - 0xDC00))
        some (c, rest)
      else none
    | _ => none
  else
    let c ← charOf? high
    some (c, rest)

/-- Reads what follows the backslash of an escape. -/
def readEscape? : List Char → Option (Char × List Char)
  | '"' :: rest => some ('"', rest)
  | '\\' :: rest => some ('\\', rest)
  | '/' :: rest => some ('/', rest)
  | 'b' :: rest => some ('\x08', rest)
  | 'f' :: rest => some ('\x0c', rest)
  | 'n' :: rest => some ('\n', rest)
  | 'r' :: rest => some ('\r', rest)
  | 't' :: rest => some ('\t', rest)
  | 'u' :: rest => readUnicode? rest
  | _ => none

/-- Reads the rest of a string after its opening quote; `seen` holds the
characters read so far, last first. -/
def readString? : Nat → List Char → List Char → Option (String × List Char)
  | 0, _, _ => none
  | _ + 1, _, [] => none
  | fuel + 1, seen, c :: rest =>
    if c = '"' then some (String.ofList seen.reverse, rest)
    else if c = '\\' then do
      let (e, rest) ← readEscape? rest
      readString? fuel (e :: seen) rest
    else if c.toNat < 0x20 then none
    else readString? fuel (c :: seen) rest

mutual

/-- Reads one value after blanks, and returns what follows it. -/
def readValue? : Nat → List Char → Option (Json × List Char)
  | 0, _ => none
  | fuel + 1, cs =>
    match skipBlanks cs with
    | 'n' :: 'u' :: 'l' :: 'l' :: rest => some (.null, rest)
    | 't' :: 'r' :: 'u' :: 'e' :: rest => some (.bool true, rest)
    | 'f' :: 'a' :: 'l' :: 's' :: 'e' :: rest => some (.bool false, rest)
    | '"' :: rest => do
      let (text, rest) ← readString? (rest.length + 1) [] rest
      some (.string text, rest)
    | '[' :: rest =>
      match skipBlanks rest with
      | ']' :: rest => some (.array [], rest)
      | rest => do
        let (items, rest) ← readItems? fuel rest
        some (.array items, rest)
    | '\x7b' :: rest =>
      match skipBlanks rest with
      | '\x7d' :: rest => some (.object [], rest)
      | rest => do
        let (entries, rest) ← readEntries? fuel rest
        some (.object (entries.foldl (fun es (k, v) => Entries.insert k v es) []), rest)
    | cs => readNumber? cs

/-- Reads list items up to the closing bracket. -/
def readItems? : Nat → List Char → Option (List Json × List Char)
  | 0, _ => none
  | fuel + 1, cs => do
    let (value, rest) ← readValue? fuel cs
    match skipBlanks rest with
    | ',' :: rest => do
      let (items, rest) ← readItems? fuel rest
      some (value :: items, rest)
    | ']' :: rest => some ([value], rest)
    | _ => none

/-- Reads entries up to the closing brace. -/
def readEntries? : Nat → List Char → Option (List (String × Json) × List Char)
  | 0, _ => none
  | fuel + 1, cs => do
    match skipBlanks cs with
    | '"' :: rest => do
      let (key, rest) ← readString? (rest.length + 1) [] rest
      match skipBlanks rest with
      | ':' :: rest => do
        let (value, rest) ← readValue? fuel rest
        match skipBlanks rest with
        | ',' :: rest => do
          let (entries, rest) ← readEntries? fuel rest
          some ((key, value) :: entries, rest)
        | '\x7d' :: rest => some ([(key, value)], rest)
        | _ => none
      | _ => none
    | _ => none

end

/-- Reads a whole text as one JSON value with blanks around it. Each step of
the reader takes a character, so the length bounds the steps. -/
def parse? (text : String) : Option Json := do
  let cs := text.toList
  let (value, rest) ← readValue? (2 * cs.length + 2) cs
  if (skipBlanks rest).isEmpty then some value else none

end Conformance.Json
