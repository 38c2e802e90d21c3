import Conformance.Binary64.Extended
import Conformance.Json.Writer
import Conformance.Text.Quoted

/-!
# Literals

The constant that a literal schema requires: a number, a text or a truth
value. A literal matches values of its own kind only, and numbers are
compared by value across integers and doubles.
-/

namespace Conformance

/-- A fixed number, text or truth value. -/
inductive Literal where
  /-- A numeric constant. -/
  | number (value : Number)
  /-- A textual constant. -/
  | string (value : String)
  /-- A truth value. -/
  | bool (value : Bool)
  deriving DecidableEq

namespace Literal

/-- The literal as a JSON value. -/
def toJson : Literal → Json
  | .number n => .number n
  | .string s => .string s
  | .bool b => .bool b

/-- Whether a value equals the literal. -/
def accepts : Literal → Json → Bool
  | .number expected, .number actual => expected.numericallyEqual actual
  | .string expected, .string actual => expected == actual
  | .bool expected, .bool actual => expected == actual
  | _, _ => false

/-- Equality of literals as data: an integer is not a double. -/
def sameData : Literal → Literal → Bool
  | .number a, .number b => a.sameData b
  | .string a, .string b => a == b
  | .bool a, .bool b => a == b
  | _, _ => false

/-- The text of a literal in type expressions: a number as in JSON, a text in
quotes. -/
def render : Literal → String
  | .number n => n.render
  | .string s => Text.quote s
  | .bool b => if b then "true" else "false"

end Literal

end Conformance
