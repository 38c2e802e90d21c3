import Conformance.Proofs.Repetition

/-!
# Idempotence

Under the built-in policies the check of an output gives the output again, as data,
wherever no union turns back. A union of leaves never does: what one of them gives,
the earlier ones still reject or give as it is. A union of objects may, because the
output of one member has lost what made an earlier one reject.
-/

namespace Conformance

namespace Policy

variable {value output : Json}

/-- Identifiers are accepted as they are. -/
theorem acceptNonEmptyText_unchanged (h : acceptNonEmptyText value = .ok output) :
    output = value := by
  unfold acceptNonEmptyText at h
  split at h
  · split at h <;> cases h
    rfl
  · cases h

/-- Constants are accepted as they are. -/
theorem acceptLiteral_unchanged {constant : Literal}
    (h : acceptLiteral constant value = .ok output) : output = value := by
  unfold acceptLiteral at h
  split at h <;> cases h
  rfl

/-- The strict policy changes no value. -/
theorem strict_unchanged (leaf : Leaf) (h : strict.check leaf value = .ok output) :
    output = value := by
  cases leaf with
  | number | float =>
    cases value with
    | number n =>
      cases h
      rfl
    | _ => cases h
  | string =>
    cases value with
    | string text =>
      cases h
      rfl
    | _ => cases h
  | boolean =>
    cases value with
    | bool b =>
      cases h
      rfl
    | _ => cases h
  | int =>
    change strictInt value = .ok output at h
    unfold strictInt at h
    split at h
    · split at h <;> cases h
      rfl
    · cases h
  | id => exact acceptNonEmptyText_unchanged h
  | literal constant => exact acceptLiteral_unchanged h

/-- The policy that reads text changes texts, and numbers that are to be integers. -/
theorem nonStrict_changes {leaf : Leaf} (h : nonStrict.check leaf value = .ok output) :
    output = value ∨ (∃ text, value = .string text) ∨ leaf = .int ∧ ∃ n, value = .number n := by
  cases leaf with
  | number | float =>
    cases value with
    | string text => exact .inr (.inl ⟨text, rfl⟩)
    | number n =>
      cases h
      exact .inl rfl
    | _ => cases h
  | int =>
    cases value with
    | string text => exact .inr (.inl ⟨text, rfl⟩)
    | number n => exact .inr (.inr ⟨rfl, n, rfl⟩)
    | _ => cases h
  | boolean =>
    cases value with
    | string text => exact .inr (.inl ⟨text, rfl⟩)
    | bool b =>
      cases h
      exact .inl rfl
    | _ => cases h
  | string => exact .inl (strict_unchanged .string h)
  | id => exact .inl (acceptNonEmptyText_unchanged h)
  | literal constant => exact .inl (acceptLiteral_unchanged h)

/-- A text that reads as a number reads as an integer. -/
theorem lenientInt_of_lenientNumber (h : lenientNumber value = .ok output) :
    output = value ∨ (∃ n, output = .number n) ∧ ∃ whole, lenientInt value = .ok whole := by
  unfold lenientNumber at h
  split at h
  · cases h
    exact .inl rfl
  · split at h
    · next n hn =>
      cases h
      exact .inr ⟨⟨n, rfl⟩, .number n.truncate, by simp only [lenientInt, hn]⟩
    · cases h
  · cases h

/-- What reads as an integer is a number. -/
theorem lenientInt_number (h : lenientInt value = .ok output) : ∃ n, output = .number n := by
  unfold lenientInt at h
  split at h
  · cases h
    exact ⟨_, rfl⟩
  · split at h <;> cases h
    exact ⟨_, rfl⟩
  · cases h

/-- What reads as a truth value is one. -/
theorem lenientBoolean_bool (h : lenientBoolean value = .ok output) : ∃ b, output = .bool b := by
  unfold lenientBoolean at h
  split at h
  · cases h
    exact ⟨_, rfl⟩
  · split at h
    · cases h
      exact ⟨_, rfl⟩
    · split at h <;> cases h
      exact ⟨_, rfl⟩
  · cases h

/-- What becomes a number under the policy that reads text could have been read as an
integer; anything else becomes a truth value or stays what it is. -/
theorem nonStrict_becomes {leaf : Leaf} (h : nonStrict.check leaf value = .ok output) :
    output = value ∨ (∃ b, output = .bool b) ∨
      (∃ n, output = .number n) ∧ ∃ whole, lenientInt value = .ok whole := by
  cases leaf with
  | number | float => exact (lenientInt_of_lenientNumber h).imp_right .inr
  | int => exact .inr (.inr ⟨lenientInt_number h, output, h⟩)
  | boolean => exact .inr (.inl (lenientBoolean_bool h))
  | string => exact .inl (strict_unchanged .string h)
  | id => exact .inl (acceptNonEmptyText_unchanged h)
  | literal constant => exact .inl (acceptLiteral_unchanged h)

/-- Where an earlier leaf rejects a value, it gives what a later leaf made of the value as
it is, if it accepts that. -/
theorem nonStrict_turn {earlier leaf : Leaf} {u other : Json} {cause : Cause}
    (hearlier : nonStrict.check earlier value = .error cause)
    (h : nonStrict.check leaf value = .ok output) (hu : u.Same output)
    (hother : nonStrict.check earlier u = .ok other) : other.Same output := by
  rcases nonStrict_changes hother with rfl | ⟨text, rfl⟩ | ⟨rfl, n, rfl⟩
  · exact hu
  · -- a text stands for itself, so the value is the same text, which was rejected
    cases output with
    | string s =>
      cases hu.eq_string
      rcases nonStrict_becomes h with rfl | ⟨b, hb⟩ | ⟨⟨n, hn⟩, _⟩
      · rw [hother] at hearlier
        cases hearlier
      · cases hb
      · cases hn
    | _ => cases hu
  · -- a number came from something that reads as an integer, which was rejected
    cases output with
    | number m =>
      have hwhole : ∃ whole, lenientInt value = .ok whole := by
        rcases nonStrict_becomes h with rfl | ⟨b, hb⟩ | ⟨_, hwhole⟩
        · exact ⟨_, rfl⟩
        · cases hb
        · exact hwhole
      obtain ⟨whole, hwhole⟩ := hwhole
      change lenientInt value = .error cause at hearlier
      rw [hwhole] at hearlier
      cases hearlier
    | _ => cases hu

end Policy

/-- Where an earlier leaf rejects a value, it gives what a later leaf made of the value as
it is, if it accepts that. -/
theorem PolicyKind.turn (kind : PolicyKind) {earlier leaf : Leaf} {value output u other : Json}
    {cause : Cause} (hearlier : kind.policy.check earlier value = .error cause)
    (h : kind.policy.check leaf value = .ok output) (hu : u.Same output)
    (hother : kind.policy.check earlier u = .ok other) : other.Same output := by
  cases kind with
  | strict =>
    rw [Policy.strict_unchanged earlier hother]
    exact hu
  | nonStrict => exact Policy.nonStrict_turn hearlier h hu hother

/-- No union turns back in a graph whose unions have leaves for members. -/
theorem Grounds.settled_of_leaves {grounds : Grounds} {root : Schema} (document result : Json)
    (kind : PolicyKind) (hpolicy : grounds.policy = kind.policy)
    (hleaves : ∀ members, Schema.Reaches grounds.targets root (.union members) →
      ∀ member ∈ members, ∃ leaf, member = .leaf leaf) : grounds.Settled root document result := by
  intro before member after value u depth entered output hmeets hbefore haccept _ hb earlier he
    other hother
  have hall := hleaves _ hmeets.reaches
  obtain ⟨leaf, rfl⟩ := hall member (by simp)
  obtain ⟨first, rfl⟩ := hall earlier (by simp [he])
  have hrejected := hbefore _ he
  simp only [accept, hpolicy] at haccept hother hrejected
  cases hc : kind.policy.check leaf value with
  | error cause =>
    rw [hc] at haccept
    cases haccept
  | ok accepted =>
    rw [hc] at haccept
    cases haccept
    cases hf : kind.policy.check first value with
    | ok refused =>
      rw [hf] at hrejected
      cases hrejected
    | error cause =>
      cases ho : kind.policy.check first u with
      | error cause =>
        rw [ho] at hother
        cases hother
      | ok again =>
        rw [ho] at hother
        cases hother
        obtain ⟨_, hscalar, _⟩ := kind.settling leaf value output hc
        have hsame : u.Same output :=
          hb.1.same_of_not_object fun kept heq => by rw [heq] at hscalar; cases hscalar
        exact kind.turn hf hc hsame ho

/-- The check of an output gives the output again, as data, if no union that the check of
the value came to turns back on what the output has in its place. Without unions, or with unions
of leaves only, none turns back. -/
theorem validate_idempotent (schema : Schema) (settings : Settings) (session : Session)
    (value output : Json) (hkeys : value.DistinctKeys)
    (hfields : schema.DistinctFields session.store.target?)
    (h : ((Validator.ofSettings schema settings).validate value session).1 = .ok output) :
    (((Validator.ofSettings schema settings).grounds session.store).Settled schema value output →
      ∃ again, ((Validator.ofSettings schema settings).validate output
          ((Validator.ofSettings schema settings).validate value session).2).1 = .ok again ∧
        again.sameData output) ∧
    ((∀ members, Schema.Reaches session.store.target? schema (.union members) →
        ∀ member ∈ members, ∃ leaf, member = .leaf leaf) →
      ((Validator.ofSettings schema settings).grounds session.store).Settled schema value
        output) := by
  refine ⟨fun hsettled => ?_, fun hleaves => ?settled⟩
  case settled => exact Grounds.settled_of_leaves value output settings.policy rfl hleaves
  obtain ⟨_, ht⟩ := (Validator.ofSettings schema settings).validate_gives value session
  have hflat : settings.policy.policy.Flat := settings.policy.policy_flat
  have haccept := (Validator.validate_eq_ok_iff _ value output session).mp h
  have htrims := Grounds.accept_trims hflat haccept
  have hdistinct := Grounds.accept_distinctKeys hflat hfields .root hkeys haccept
  have hbetween := (Json.Same.refl hdistinct).between hdistinct hdistinct htrims
  obtain ⟨again, ha, hsame⟩ := (repeating_inductive rfl hflat hfields hsettled).holds schema value 0
    [] output haccept output .start hkeys hdistinct hbetween
  refine ⟨again, ?_, hsame⟩
  rw [Validator.validate_eq_ok_iff, Rules.grounds_congr _ ht]
  exact ha

/-- A number or a text. -/
def numberOrText : Schema := .union [.leaf .number, .leaf .string]

/-- A text that reads as a number becomes one, and stays one. -/
theorem numberOrText_idempotent :
    ∃ again, ((Validator.ofSettings numberOrText { policy := .nonStrict }).validate
        (.number (.int 10 rfl)) ((Validator.ofSettings numberOrText { policy := .nonStrict }).validate
          (.string "10") ⟨.empty, #[]⟩).2).1 = .ok again ∧
      again.sameData (.number (.int 10 rfl)) := by
  have hreach : ∀ schema, Schema.Reaches Store.empty.target? numberOrText schema →
      schema = numberOrText ∨ ∃ leaf, schema = .leaf leaf := by
    intro schema h
    refine h.mem_of_closed (P := fun schema => schema = numberOrText ∨ ∃ leaf, schema = .leaf leaf)
      (.inl rfl) ?_ ?_
    · rintro whole (rfl | ⟨leaf, rfl⟩) part hp
      · simp only [numberOrText, Schema.parts, List.mem_cons, List.not_mem_nil, or_false] at hp
        rcases hp with rfl | rfl
        · exact .inr ⟨.number, rfl⟩
        · exact .inr ⟨.string, rfl⟩
      · cases hp
    · rintro r (h | ⟨leaf, h⟩)
      · cases h
      · cases h
  have hleaves : ∀ members, Schema.Reaches Store.empty.target? numberOrText (.union members) →
      ∀ member ∈ members, ∃ leaf, member = .leaf leaf := by
    intro members h member hm
    rcases hreach _ h with heq | ⟨leaf, heq⟩
    · cases heq
      simp only [List.mem_cons, List.not_mem_nil, or_false] at hm
      rcases hm with rfl | rfl
      · exact ⟨.number, rfl⟩
      · exact ⟨.string, rfl⟩
    · cases heq
  have hfields : numberOrText.DistinctFields Store.empty.target? := by
    intro schema fields h hf
    rcases hreach schema h with rfl | ⟨leaf, rfl⟩ <;> cases hf
  have haccept : ((Validator.ofSettings numberOrText { policy := .nonStrict }).validate
      (.string "10") ⟨.empty, #[]⟩).1 = .ok (.number (.int 10 rfl)) := by
    rw [Validator.validate_eq_ok_iff, Validator.ofSettings, numberOrText, Grounds.accept,
      Grounds.acceptFirst, Grounds.accept]
    rfl
  obtain ⟨hagain, hsettled⟩ := validate_idempotent numberOrText { policy := .nonStrict }
    ⟨.empty, #[]⟩ (.string "10") (.number (.int 10 rfl)) (.string "10") hfields haccept
  exact hagain (hsettled hleaves)

/-- Two objects in a union, the first of which may lack one of its fields. -/
def twoObjects : Schema :=
  .union [.struct [⟨"a", .leaf .number, none, false⟩, ⟨"b", .nullable (.leaf .string), none, false⟩],
    .struct [⟨"a", .leaf .number, none, false⟩, ⟨"c", .leaf .number, none, false⟩]]

/-- What the first object rejects for the kind of `b`, and the second accepts. -/
def mixedObject : Json :=
  .object [("a", .number (.int 1 rfl)), ("b", .number (.int 5 rfl)), ("c", .number (.int 2 rfl))]

/-- A union can turn back: the output of the second object has lost what made the first
reject, and loses another field when the first accepts it. -/
theorem twoObjects_turns_back :
    ((Validator.ofSettings twoObjects {}).validate mixedObject ⟨.empty, #[]⟩).1 =
        .ok (.object [("a", .number (.int 1 rfl)), ("c", .number (.int 2 rfl))]) ∧
      ¬∃ again, ((Validator.ofSettings twoObjects {}).validate
          (.object [("a", .number (.int 1 rfl)), ("c", .number (.int 2 rfl))])
          ((Validator.ofSettings twoObjects {}).validate mixedObject ⟨.empty, #[]⟩).2).1 =
            .ok again ∧
        again.sameData (.object [("a", .number (.int 1 rfl)), ("c", .number (.int 2 rfl))]) := by
  have hsecond : ((Validator.ofSettings twoObjects {}).validate
      (.object [("a", .number (.int 1 rfl)), ("c", .number (.int 2 rfl))])
      ((Validator.ofSettings twoObjects {}).validate mixedObject ⟨.empty, #[]⟩).2).1 =
        .ok (.object [("a", .number (.int 1 rfl))]) := by
    rw [Validator.validate_eq_ok_iff, Rules.grounds_congr _ (Validator.validate_gives _ _ _).2]
    cbv
  refine ⟨(Validator.validate_eq_ok_iff _ _ _ _).mpr (by cbv), ?_⟩
  rintro ⟨again, h, hsame⟩
  rw [hsecond] at h
  cases h
  cases hsame

end Conformance
