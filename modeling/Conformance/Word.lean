/-!
# 64-bit words

A word is signed or unsigned, and it holds the integers of one range. Arithmetic is checked:
it gives no word where the result leaves the range. A word is read from text digit by digit,
away from zero on the side of its sign, and every step is checked.
-/

namespace Conformance

/-- The two kinds of 64-bit words. -/
inductive WordKind where
  /-- Words with a sign. -/
  | signed
  /-- Words without a sign. -/
  | unsigned
  deriving DecidableEq

namespace WordKind

/-- The least integer of a word. -/
def least : WordKind → Int
  | .signed => -9223372036854775808
  | .unsigned => 0

/-- The greatest integer of a word. -/
def greatest : WordKind → Int
  | .signed => 9223372036854775807
  | .unsigned => 18446744073709551615

/-- Zero is an integer of every word. -/
theorem zero_inRange (kind : WordKind) : kind.least ≤ 0 ∧ 0 ≤ kind.greatest := by
  cases kind <;> decide

end WordKind

/-- A word with its integer. -/
@[ext]
structure Word (kind : WordKind) where
  /-- The integer. -/
  value : Int
  least_le : kind.least ≤ value
  le_greatest : value ≤ kind.greatest
  deriving DecidableEq

namespace Word

variable {kind : WordKind}

/-- Zero. -/
def zero (kind : WordKind) : Word kind := ⟨0, kind.zero_inRange.1, kind.zero_inRange.2⟩

/-- The least word. -/
def least (kind : WordKind) : Word kind :=
  ⟨kind.least, Int.le_refl _, Int.le_trans kind.zero_inRange.1 kind.zero_inRange.2⟩

/-- The greatest word. -/
def greatest (kind : WordKind) : Word kind :=
  ⟨kind.greatest, Int.le_trans kind.zero_inRange.1 kind.zero_inRange.2, Int.le_refl _⟩

/-- The word of an integer; none outside the range. -/
def ofInt? (kind : WordKind) (n : Int) : Option (Word kind) :=
  if h : kind.least ≤ n ∧ n ≤ kind.greatest then some ⟨n, h.1, h.2⟩ else none

/-- The word nearest to an integer: outside the range the least or the greatest one. -/
def clamp (kind : WordKind) (n : Int) : Word kind :=
  if h : kind.least ≤ n ∧ n ≤ kind.greatest then ⟨n, h.1, h.2⟩
  else if n < kind.least then least kind
  else greatest kind

/-- A word with one more decimal digit behind those that it has. The digit counts away from
zero; none when a step leaves the range, or for a character that is no digit. -/
def appendDigit? (negative : Bool) (word : Word kind) (c : Char) : Option (Word kind) :=
  if c.isDigit then
    (ofInt? kind (10 * word.value)).bind fun shifted =>
      let digit : Int := (c.toNat - '0'.toNat : Nat)
      ofInt? kind (if negative then shifted.value - digit else shifted.value + digit)
  else none

/-- Splits off a leading sign: true for a minus. Only signed words can have a minus; for
the others it stays in front of the digits, where it is refused. -/
def splitSign (kind : WordKind) : List Char → Bool × List Char
  | '+' :: rest => (false, rest)
  | '-' :: rest => if kind = .signed then (true, rest) else (false, '-' :: rest)
  | rest => (false, rest)

/-- Reads the whole text as a word: a sign or none, and at least one digit. -/
def parse? (kind : WordKind) (cs : List Char) : Option (Word kind) :=
  let (negative, digits) := splitSign kind cs
  if digits.isEmpty then none else digits.foldlM (appendDigit? negative) (zero kind)

end Word

end Conformance
