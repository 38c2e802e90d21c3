import Conformance.Binary64.Extended
import Conformance.Binary64.Shortest
import Conformance.Binary64.Whole
import Conformance.Text.Blank

/-!
# Numbers of the JSON data model

A number is an integer that fits a signed or an unsigned 64-bit word, or a
finite double. The two kinds are different data, so `1` is not `1.0`; only
the numeric comparison `numericallyEqual` looks across them. Text is read as
a word, of one kind or the other, before it is read as a double.
-/

namespace Conformance

/-- The integers from `-2 ^ 63` up to, but not including, `2 ^ 64`. -/
def inIntegerRange (n : Int) : Bool := -9223372036854775808 ≤ n && n < 18446744073709551616

/-- The integers from `-2 ^ 63` up to, but not including, `2 ^ 63`: those of a signed
64-bit word. -/
def fitsSigned (n : Int) : Prop := -9223372036854775808 ≤ n ∧ n < 9223372036854775808

instance (n : Int) : Decidable (fitsSigned n) := inferInstanceAs (Decidable (_ ∧ _))

/-- A JSON number: a 64-bit integer or a finite double. -/
inductive Number where
  /-- An integer of one of the two 64-bit ranges. -/
  | int (value : Int) (inRange : inIntegerRange value)
  /-- A finite double. -/
  | float (value : Binary64)
  deriving DecidableEq

namespace Number

/-- The integer number of this value, if it is in range. -/
def ofInt? (n : Int) : Option Number :=
  if h : inIntegerRange n then some (.int n h) else none

/-- The integer of a word fits one of the two kinds. -/
theorem inRange_of_word {kind : WordKind} (word : Word kind) : inIntegerRange word.value := by
  have hl := word.least_le
  have hg := word.le_greatest
  cases kind <;> simp only [WordKind.least, WordKind.greatest] at hl hg <;>
    simp only [inIntegerRange, Bool.and_eq_true, decide_eq_true_eq] <;> omega

/-- The integer number of a word. -/
def ofWord {kind : WordKind} (word : Word kind) : Number := .int word.value (inRange_of_word word)

/-- The number of a double, if it is finite. -/
def ofExtended? : Extended → Option Number
  | .finite x => some (.float x)
  | .other _ => none

/-- The number as a word, if it is an integer of that kind of words. -/
def toWord? (kind : WordKind) : Number → Option (Word kind)
  | .int n _ => Word.ofInt? kind n
  | .float _ => none

/-- Whether the number is an integer, of one kind of words or the other. -/
def isWord (n : Number) : Bool := (n.toWord? .signed).isSome || (n.toWord? .unsigned).isSome

/-- The number as a double, rounded to nearest. -/
def toBinary64 : Number → Binary64
  | .int n _ => (Binary64.ofInt? n).getD (.zero false)
  | .float x => x

/-- Equality of data: same kind and same value. -/
def sameData : Number → Number → Bool
  | .int a _, .int b _ => a == b
  | .float x, .float y => x.sameValue y
  | _, _ => false

/-- Equality across the kinds: two signed words compare exactly, and so do two
unsigned ones; any other pair compares as doubles. -/
def numericallyEqual (a b : Number) : Bool :=
  match a.toWord? .signed, b.toWord? .signed with
  | some m, some n => m.value == n.value
  | _, _ =>
    match a.toWord? .unsigned, b.toWord? .unsigned with
    | some m, some n => m.value == n.value
    | _, _ => a.toBinary64.sameValue b.toBinary64

/-- Whether the number has no fractional part. -/
def isIntegral (n : Number) : Bool := n.isWord || n.toBinary64.isInteger

/-- The number rounded toward zero. An integer stays as it is. A double loses its
fraction; between the doubles of the least and of the greatest signed word it
becomes a signed word, and otherwise it stays a double. -/
def truncate (n : Number) : Number :=
  if n.isWord then n
  else
    let truncated := n.toBinary64.trunc
    if Binary64.ofWord (.least .signed) ≤ truncated ∧
        truncated < Binary64.ofWord (.greatest .signed) then
      ofWord (truncated.toWord .signed)
    else (ofExtended? (.finite truncated)).getD n

/-- The number that a numeral denotes: the exact integer, where integers are
asked for and the value is in range, else the nearest double. -/
def ofNumeral? (numeral : Numeral) (asInteger : Bool) : Option Number :=
  match if asInteger then ofInt? numeral.wholeValue else none with
  | some exact => some exact
  | none => numeral.toBinary64?.map .float

/-- Reads a number from text with blank margins: as a signed word, else as an
unsigned one, else as a double, which has to be finite. -/
def parse? (text : String) : Option Number :=
  let trimmed := Text.trimBlank text.toList
  if trimmed.isEmpty then none
  else
    match Word.parse? .signed trimmed with
    | some word => some (ofWord word)
    | none =>
      match Word.parse? .unsigned trimmed with
      | some word => some (ofWord word)
      | none => (Extended.parse? (String.ofList trimmed)).bind ofExtended?

/-- Where positional notation ends: the powers of ten of the first digit for
which it is used. -/
structure PositionalRange where
  /-- The least power written positionally. -/
  least : Int
  /-- The greatest power written positionally. -/
  greatest : Int

/-- Doubles from `0.00001` to below `10 ^ 16` are written positionally. -/
def positionalRange : PositionalRange := ⟨-5, 15⟩

/-- Writes a double by its shortest digits: positionally with at least one
digit after the point, or as `d.ddde+XX` outside the positional range. -/
def renderFloat (x : Binary64) : String :=
  let shortest := x.shortest
  let digits := Nat.toDigits 10 shortest.digits
  let first : Int := if x.mantissa = 0 then 0 else shortest.exponent + (digits.length : Int) - 1
  let sign := if x.negative then "-" else ""
  let orZero (cs : List Char) : List Char := if cs.isEmpty then ['0'] else cs
  if first < positionalRange.least ∨ positionalRange.greatest < first then
    let fraction := if digits.length ≤ 1 then [] else '.' :: digits.drop 1
    let exponentSign := if first < 0 then "-" else "+"
    sign ++ String.ofList (digits.take 1 ++ fraction) ++ "e" ++ exponentSign
      ++ toString first.natAbs
  else if first < 0 then
    sign ++ "0." ++ String.ofList (List.replicate (-first - 1).toNat '0' ++ digits)
  else
    let width := first.toNat + 1
    let whole := digits.take width ++ List.replicate (width - digits.length) '0'
    sign ++ String.ofList whole ++ "." ++ String.ofList (orZero (digits.drop width))

/-- The text of a number. -/
def render : Number → String
  | .int n _ => toString n
  | .float x => renderFloat x

end Number

end Conformance
