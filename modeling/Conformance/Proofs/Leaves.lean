import Conformance.Proofs.SameData
import Conformance.Settings

/-!
# Verdicts of the built-in policies

Each built-in policy decides a leaf by the value alone. A refusal says what was
found in the value, never anything else. What a leaf accepts is a scalar and so
is the output, which the same leaf accepts again as it is.
-/

namespace Conformance

/-- What a refusal says about the value that was refused. -/
inductive Refusal (value : Json) : Cause → Prop
  /-- The kind of the value is not the expected one. -/
  | kind (expected : String) : Refusal value (.typeMismatch expected value.kind)
  /-- The value is the empty text. -/
  | emptyText (expected : String) (h : value = .string "") :
    Refusal value (.typeMismatch expected "empty string")
  /-- The value is a number with a fractional part. -/
  | fraction (expected : String) {n : Number} (h : value = .number n) (hn : n.isIntegral = false) :
    Refusal value (.typeMismatch expected "fractional number")
  /-- The value differs from a constant. -/
  | constant {constant : Literal} (h : constant.accepts value = false) :
    Refusal value (.literalMismatch constant value.describe)
  /-- The value is a text that does not read as anything expected. -/
  | unreadable (target : String) {text : String} (h : value = .string text) :
    Refusal value (.coercionFailed target text)

namespace Policy

variable {value : Json} {cause : Cause}

/-- Identifiers are refused for their kind, or for being empty. -/
theorem acceptNonEmptyText_refusal (h : acceptNonEmptyText value = .error cause) :
    Refusal value cause := by
  unfold acceptNonEmptyText at h
  split at h
  · split at h
    · next text he =>
      cases h
      have hempty : text = "" := by simpa using he
      exact .emptyText _ (by rw [hempty])
    · cases h
  · cases h
    exact .kind _

/-- Constants refuse what differs from them. -/
theorem acceptLiteral_refusal {constant : Literal}
    (h : acceptLiteral constant value = .error cause) : Refusal value cause := by
  unfold acceptLiteral at h
  split at h
  · cases h
  · next ha =>
    cases h
    exact .constant (by simpa using ha)

/-- Integers are refused for their kind, or for a fractional part. -/
theorem strictInt_refusal (h : strictInt value = .error cause) : Refusal value cause := by
  unfold strictInt at h
  split at h
  · split at h
    · cases h
    · next n hn =>
      cases h
      exact .fraction _ rfl (by simpa using hn)
  · cases h
    exact .kind _

/-- The strict policy refuses the other kinds of leaves by kind alone. -/
theorem strict_refusal_of_kind {read : Json → Verdict}
    (hread : read = strictNumber ∨ read = strictString ∨ read = strictBoolean)
    (h : read value = .error cause) : Refusal value cause := by
  rcases hread with rfl | rfl | rfl <;> cases value <;> cases h <;> exact .kind _

/-- Every refusal of the strict policy speaks of the value. -/
theorem strict_refusal {leaf : Leaf} (h : strict.check leaf value = .error cause) :
    Refusal value cause := by
  cases leaf with
  | number => exact strict_refusal_of_kind (.inl rfl) h
  | int => exact strictInt_refusal h
  | float => exact strict_refusal_of_kind (.inl rfl) h
  | string => exact strict_refusal_of_kind (.inr (.inl rfl)) h
  | boolean => exact strict_refusal_of_kind (.inr (.inr rfl)) h
  | id => exact acceptNonEmptyText_refusal h
  | literal constant => exact acceptLiteral_refusal h

/-- Numbers read from text are refused for the kind or for the text. -/
theorem lenientNumber_refusal (h : lenientNumber value = .error cause) : Refusal value cause := by
  unfold lenientNumber at h
  split at h
  · cases h
  · split at h
    · cases h
    · cases h
      exact .unreadable _ rfl
  · cases h
    exact .kind _

/-- Integers read from text are refused for the kind or for the text. -/
theorem lenientInt_refusal (h : lenientInt value = .error cause) : Refusal value cause := by
  unfold lenientInt at h
  split at h
  · cases h
  · split at h
    · cases h
    · cases h
      exact .unreadable _ rfl
  · cases h
    exact .kind _

/-- Truth values read from text are refused for the kind or for the text. -/
theorem lenientBoolean_refusal (h : lenientBoolean value = .error cause) :
    Refusal value cause := by
  unfold lenientBoolean at h
  split at h
  · cases h
  · split at h
    · cases h
    · split at h
      · cases h
      · cases h
        exact .unreadable _ rfl
  · cases h
    exact .kind _

/-- Every refusal of the policy that reads text speaks of the value. -/
theorem nonStrict_refusal {leaf : Leaf} (h : nonStrict.check leaf value = .error cause) :
    Refusal value cause := by
  cases leaf with
  | number => exact lenientNumber_refusal h
  | int => exact lenientInt_refusal h
  | float => exact lenientNumber_refusal h
  | string => exact strict_refusal_of_kind (.inr (.inl rfl)) h
  | boolean => exact lenientBoolean_refusal h
  | id => exact acceptNonEmptyText_refusal h
  | literal constant => exact acceptLiteral_refusal h

end Policy

/-- A built-in policy refuses a leaf for what the value is. -/
theorem PolicyKind.refusal {kind : PolicyKind} {leaf : Leaf} {value : Json} {cause : Cause}
    (h : kind.policy.check leaf value = .error cause) : Refusal value cause := by
  cases kind with
  | strict => exact Policy.strict_refusal h
  | nonStrict => exact Policy.nonStrict_refusal h

/-- Whether the value is a truth value, a number or a text. -/
def Json.isScalar : Json → Bool
  | .bool _ | .number _ | .string _ => true
  | _ => false

/-- A way to read a leaf that takes scalars to scalars, and settles: what it gives, it
accepts again and gives again, as data. -/
def Settling (read : Json → Verdict) : Prop :=
  ∀ value output, read value = .ok output → value.isScalar ∧ output.isScalar ∧
    ∀ u : Json, u.Same output → ∃ again, read u = .ok again ∧ again.Same output

namespace Policy

theorem strictNumber_settling : Settling strictNumber := by
  intro value output h
  cases value with
  | number n =>
    cases h
    refine ⟨rfl, rfl, fun u hu => ?_⟩
    obtain ⟨m, rfl, hm⟩ := hu.exists_number
    exact ⟨.number m, rfl, hm⟩
  | _ => cases h

theorem strictInt_settling : Settling strictInt := by
  intro value output h
  cases value with
  | number n =>
    unfold strictInt at h
    dsimp only at h
    split at h
    · next hn =>
      cases h
      refine ⟨rfl, rfl, fun u hu => ?_⟩
      obtain ⟨m, rfl, hm⟩ := hu.exists_number
      have hi : m.isIntegral := by rw [Number.isIntegral_congr hm, hn]
      exact ⟨.number m, by simp [strictInt, hi], hm⟩
    · cases h
  | _ => cases h

theorem strictString_settling : Settling strictString := by
  intro value output h
  cases value with
  | string text =>
    cases h
    refine ⟨rfl, rfl, fun u hu => ?_⟩
    cases hu.eq_string
    exact ⟨.string text, rfl, hu⟩
  | _ => cases h

theorem strictBoolean_settling : Settling strictBoolean := by
  intro value output h
  cases value with
  | bool b =>
    cases h
    refine ⟨rfl, rfl, fun u hu => ?_⟩
    cases hu.eq_bool
    exact ⟨.bool b, rfl, hu⟩
  | _ => cases h

theorem acceptNonEmptyText_settling : Settling acceptNonEmptyText := by
  intro value output h
  cases value with
  | string text =>
    have hout : output = .string text := by
      unfold acceptNonEmptyText at h
      dsimp only at h
      split at h <;> cases h
      rfl
    subst hout
    refine ⟨rfl, rfl, fun u hu => ?_⟩
    cases hu.eq_string
    exact ⟨.string text, h, hu⟩
  | _ => cases h

theorem acceptLiteral_settling (constant : Literal) : Settling (acceptLiteral constant) := by
  intro value output h
  unfold acceptLiteral at h
  split at h
  · next ha =>
    cases h
    cases value with
    | number n =>
      refine ⟨rfl, rfl, fun u hu => ?_⟩
      obtain ⟨m, rfl, hm⟩ := hu.exists_number
      have hc : constant.accepts (.number m) := by
        cases constant with
        | number expected =>
          have ha : expected.numericallyEqual n := ha
          rw [← Number.numericallyEqual_congr expected hm] at ha
          exact ha
        | _ => cases ha
      exact ⟨.number m, by rw [acceptLiteral, if_pos hc], hm⟩
    | string text =>
      refine ⟨rfl, rfl, fun u hu => ?_⟩
      cases hu.eq_string
      exact ⟨.string text, by rw [acceptLiteral, if_pos ha], hu⟩
    | bool b =>
      refine ⟨rfl, rfl, fun u hu => ?_⟩
      cases hu.eq_bool
      exact ⟨.bool b, by rw [acceptLiteral, if_pos ha], hu⟩
    | null | array | object => cases constant <;> cases ha
  · cases h

theorem lenientNumber_settling : Settling lenientNumber := by
  intro value output h
  have hout : value.isScalar ∧ ∃ n, output = .number n := by
    unfold lenientNumber at h
    split at h
    · cases h
      exact ⟨rfl, _, rfl⟩
    · split at h
      · cases h
        exact ⟨rfl, _, rfl⟩
      · cases h
    · cases h
  obtain ⟨hvalue, n, rfl⟩ := hout
  refine ⟨hvalue, rfl, fun u hu => ?_⟩
  obtain ⟨m, rfl, hm⟩ := hu.exists_number
  exact ⟨.number m, rfl, hm⟩

theorem lenientInt_settling : Settling lenientInt := by
  intro value output h
  have hout : value.isScalar ∧ ∃ n : Number, output = .number n.truncate := by
    unfold lenientInt at h
    split at h
    · cases h
      exact ⟨rfl, _, rfl⟩
    · split at h
      · cases h
        exact ⟨rfl, _, rfl⟩
      · cases h
    · cases h
  obtain ⟨hvalue, n, rfl⟩ := hout
  refine ⟨hvalue, rfl, fun u hu => ?_⟩
  obtain ⟨m, rfl, hm⟩ := hu.exists_number
  have ht := Number.truncate_congr hm
  rw [Number.truncate_truncate] at ht
  exact ⟨.number m.truncate, rfl, ht⟩

theorem lenientBoolean_settling : Settling lenientBoolean := by
  intro value output h
  have hout : value.isScalar ∧ ∃ b, output = .bool b := by
    unfold lenientBoolean at h
    split at h
    · cases h
      exact ⟨rfl, _, rfl⟩
    · split at h
      · cases h
        exact ⟨rfl, _, rfl⟩
      · split at h <;> cases h
        exact ⟨rfl, _, rfl⟩
    · cases h
  obtain ⟨hvalue, b, rfl⟩ := hout
  refine ⟨hvalue, rfl, fun u hu => ?_⟩
  cases hu.eq_bool
  exact ⟨.bool b, rfl, hu⟩

/-- The strict policy settles at every leaf. -/
theorem strict_settling (leaf : Leaf) : Settling (strict.check leaf) := by
  cases leaf with
  | number | float => exact strictNumber_settling
  | int => exact strictInt_settling
  | string => exact strictString_settling
  | boolean => exact strictBoolean_settling
  | id => exact acceptNonEmptyText_settling
  | literal constant => exact acceptLiteral_settling constant

/-- The policy that reads text settles at every leaf. -/
theorem nonStrict_settling (leaf : Leaf) : Settling (nonStrict.check leaf) := by
  cases leaf with
  | number | float => exact lenientNumber_settling
  | int => exact lenientInt_settling
  | string => exact strictString_settling
  | boolean => exact lenientBoolean_settling
  | id => exact acceptNonEmptyText_settling
  | literal constant => exact acceptLiteral_settling constant

end Policy

/-- The built-in policies settle at every leaf. -/
theorem PolicyKind.settling (kind : PolicyKind) (leaf : Leaf) :
    Settling (kind.policy.check leaf) := by
  cases kind with
  | strict => exact Policy.strict_settling leaf
  | nonStrict => exact Policy.nonStrict_settling leaf

end Conformance
