import Conformance.Text.Unprintable

/-!
# Quoted text

Text between double quotes in which every character that has no glyph of its
own, every quote and every backslash is written as an escape, so that the
written form can be read at sight and pasted back.
-/

namespace Conformance.Text

/-- The hexadecimal escape of a character, in lower case without padding. -/
def hexEscape (c : Char) : List Char :=
  '\\' :: 'u' :: '\x7b' :: Nat.toDigits 16 c.toNat ++ ['\x7d']

/-- A character as it stands between the quotes. -/
def quoteChar (c : Char) : List Char :=
  match c with
  | '"' => ['\\', '"']
  | '\\' => ['\\', '\\']
  | '\t' => ['\\', 't']
  | '\r' => ['\\', 'r']
  | '\n' => ['\\', 'n']
  | '\x00' => ['\\', '0']
  | c => if isUnprintable c then hexEscape c else [c]

/-- The characters of a text in quotes. -/
def quoteChars (cs : List Char) : List Char := '"' :: cs.flatMap quoteChar ++ ['"']

/-- The text in quotes. -/
def quote (text : String) : String := String.ofList (quoteChars text.toList)

end Conformance.Text
