import Conformance.Proofs.Leaves
import Conformance.Proofs.Pairing

/-!
# The two modes

A check that stops at the first rejection and one that reports all of them run
in step until something is rejected. They accept the same values, with the same
output and the same session afterwards; and the first of all rejections is the
one rejection of the other mode, but for the further causes of the members of
intersections that it carries. `Rejection.cut` drops those.
-/

namespace Conformance

mutual

/-- The cause with only the first cause of every member of an intersection that it
carries. -/
def Cause.cut : Cause → Cause
  | .memberFailed member ⟨⟨path, cause⟩, _⟩ =>
    .memberFailed member (.singleton ⟨path, cause.cut⟩)
  | .noMemberMatched expected attempts => .noMemberMatched expected (Cause.cutAttempts attempts)
  | cause => cause

/-- The attempts of a union, each cut. -/
def Cause.cutAttempts : List Rejection → List Rejection
  | [] => []
  | ⟨path, cause⟩ :: rest => ⟨path, cause.cut⟩ :: Cause.cutAttempts rest

end

/-- The rejection with only the first cause of every member of an intersection that it
carries. -/
def Rejection.cut (rejection : Rejection) : Rejection := ⟨rejection.path, rejection.cause.cut⟩

/-- A failed member keeps its first cause. -/
theorem Cause.cut_memberFailed (member : Nat) (causes : Report) :
    (Cause.memberFailed member causes).cut =
      .memberFailed member (.singleton (Rejection.cut causes.head)) := by
  rw [Cause.cut, Rejection.cut]

/-- A node that a member rejected keeps the first cause of the member. -/
theorem Rejection.cut_memberFailed (path : Path) (member : Nat) (causes : Report) :
    Rejection.cut ⟨path, .memberFailed member causes⟩ =
      ⟨path, .memberFailed member (.singleton (Rejection.cut causes.head))⟩ :=
  congrArg (Located.mk path) (Cause.cut_memberFailed member causes)

/-- Every attempt is cut by itself. -/
theorem Cause.cutAttempts_eq_map (attempts : List Rejection) :
    Cause.cutAttempts attempts = attempts.map Rejection.cut := by
  induction attempts with
  | nil => rw [Cause.cutAttempts, List.map_nil]
  | cons attempt rest ih => rw [Cause.cutAttempts, ih, List.map_cons, Rejection.cut]

/-- A union keeps all its attempts. -/
theorem Cause.cut_noMemberMatched (expected : String) (attempts : List Rejection) :
    (Cause.noMemberMatched expected attempts).cut =
      .noMemberMatched expected (attempts.map Rejection.cut) := by
  rw [Cause.cut, Cause.cutAttempts_eq_map]

/-- The wording of a failed member is that of its first cause. -/
theorem Cause.message_memberFailed (member : Nat) (first : Rejection) (others : List Rejection) :
    (Cause.memberFailed member ⟨first, others⟩).message =
      memberFailedText member ++ first.path.render ++ ": " ++ first.cause.message := rfl

/-- The wording of a cause speaks of the first cause of a member only. -/
theorem Cause.message_cut (cause : Cause) : cause.cut.message = cause.message := by
  match cause with
  | .memberFailed member ⟨⟨path, inner⟩, others⟩ =>
    rw [Cause.cut_memberFailed, NonEmpty.singleton, Cause.message_memberFailed,
      Cause.message_memberFailed]
    exact congrArg _ (Cause.message_cut inner)
  | .noMemberMatched expected attempts =>
    rw [Cause.cut_noMemberMatched]
    rfl
  | .typeMismatch .. | .shapeMismatch .. | .missingField .. | .literalMismatch ..
  | .coercionFailed .. | .conflict .. | .depthExceeded .. | .unresolvedReference
  | .cyclicReference => rfl

/-- A policy whose refusals carry no further causes. -/
def Policy.Plain (policy : Policy) : Prop :=
  ∀ leaf value cause, policy.check leaf value = .error cause → cause.cut = cause

/-- The built-in policies refuse plainly. -/
theorem PolicyKind.policy_plain (kind : PolicyKind) : kind.policy.Plain := by
  intro leaf value cause h
  cases PolicyKind.refusal h <;> rfl

/-- A report of the mode that stops at the first rejection, beside the report of a mode for
the same: its one rejection agrees with the first of the others once cut. -/
structure Curtails (policy : Policy) (mode : Mode) (first report : Report) : Prop where
  /-- There is one rejection. -/
  alone : first.tail = []
  /-- It is the first of the others, but for further causes of members. -/
  cut : first.head.cut = report.head.cut
  /-- Under a plain policy it has no further causes. -/
  plain : policy.Plain → first.head.cut = first.head
  /-- If both modes stop, the reports are the same. -/
  same : mode = .failFast → first = report

/-- A node that is rejected for the same cause in both modes. -/
theorem Curtails.alike {policy : Policy} {mode : Mode} {rejection : Rejection}
    (h : policy.Plain → rejection.cause.cut = rejection.cause) :
    Curtails policy mode (.singleton rejection) (.singleton rejection) :=
  ⟨rfl, rfl, fun hp => congrArg (Located.mk rejection.path) (h hp), fun _ => rfl⟩

/-- What a report has after its first rejection does not matter to the mode that stops
before it. -/
theorem Curtails.append {policy : Policy} {first report : Report}
    (h : Curtails policy .collectAll first report) (more : Report) :
    Curtails policy .collectAll first (report.append more) :=
  ⟨h.alone, h.cut, h.plain, Mode.noConfusion⟩

/-- An intersection that a member failed carries what curtails the causes of the member. -/
theorem Curtails.memberFailed {policy : Policy} {mode : Mode} {causes others : Report}
    (h : Curtails policy mode causes others) (here : Position) (index : Nat) :
    Curtails policy mode (here.reject (.memberFailed index causes))
      (here.reject (.memberFailed index others)) := by
  obtain ⟨first, rest⟩ := causes
  obtain rfl : rest = [] := h.alone
  refine ⟨rfl, ?_, fun hp => ?_, fun hm => by rw [h.same hm]⟩
  · simp only [Position.reject, NonEmpty.singleton, Rejection.cut_memberFailed, h.cut]
  · have hplain : first.cut = first := h.plain hp
    simp only [Position.reject, NonEmpty.singleton, Rejection.cut_memberFailed, hplain]

/-- A bare cause has nothing to cut. -/
theorem Cause.Bare.cut {cause : Cause} (h : cause.Bare) : cause.cut = cause := by
  cases h <;> rfl

/-- The mode that stops at the first rejection beside another one. They are in the same
session until something is rejected, and the attempts of a union, which is searched in one
mode only, have nothing to cut. -/
def inStep (policy : Policy) : Pairing where
  rules first second := first = second.failFast ∧ second.policy = policy
  place := Eq
  within _ := True
  before := Eq
  after second s t := second.mode = .failFast → s = t
  report second := Curtails policy second.mode
  attempts first second := first = second ∧ (policy.Plain → first.map Rejection.cut = first)

theorem inStep_sound (policy : Policy) : (inStep policy).Sound where
  policy := by
    rintro _ rules ⟨rfl, _⟩
    rfl
  failFast := by
    rintro _ rules ⟨rfl, hpolicy⟩
    exact ⟨rfl, hpolicy⟩
  tooDeep := by
    rintro _ rules here _ ⟨rfl, _⟩ rfl
    rfl
  mayEnter := by
    rintro here _ cell rfl
    rfl
  enter := by
    rintro here _ cell rfl
    rfl
  descend := by
    rintro here _ segment rfl
    rfl
  part _ _ := trivial
  child _ _ _ := trivial
  fetch := by
    rintro r s _ _ rfl
    exact ⟨_, _, _, rfl, rfl, rfl, fun _ _ => trivial⟩
  absence := by
    rintro schema s _ _ rfl
    exact ⟨_, _, _, rfl, rfl, rfl⟩
  verdict := by
    rintro leaf value accepted s _ rfl
    rfl
  rejected := by
    rintro _ s _ rfl _
    rfl
  refused := by
    rintro _ rules here _ leaf value cause ⟨rfl, hpolicy⟩ rfl hcheck
    refine .alike fun hp => hp leaf value cause ?_
    rw [← hpolicy]
    exact hcheck
  bare := by
    rintro _ here _ way cause rfl hcause
    exact .alike fun _ => hcause.cut
  deep := by
    rintro _ rules here _ ⟨rfl, _⟩ rfl
    exact .alike fun _ => rfl
  unmatched := by
    rintro _ here _ members s _ attempts _ rfl _ rfl ⟨rfl, hplain⟩
    refine .alike fun hp => ?_
    rw [Cause.cut_noMemberMatched, hplain hp]
  failed := by
    rintro _ here _ index causes others rfl h
    exact h.memberFailed here index
  noAttempts := ⟨rfl, fun _ => rfl⟩
  attempt := by
    rintro rules report another attempts _ hmode h ⟨rfl, hplain⟩
    obtain rfl := h.same hmode
    exact ⟨rfl, fun hp => by rw [List.map_cons, h.plain hp, hplain hp]⟩
  passedOver := by
    intro rules report another index s t hmode h hafter
    obtain rfl := hafter hmode
    obtain rfl := h.same hmode
    rfl
  goOn := by
    rintro _ rules ⟨rfl, _⟩ hmode
    exact Mode.noConfusion hmode
  goAhead := by
    rintro _ rules ⟨rfl, _⟩ _ hother
    refine ⟨fun s t hmode => ?_, fun {report another} more h => ?_⟩
    · rw [hother] at hmode
      exact Mode.noConfusion hmode
    · have h : Curtails policy rules.mode report another := h
      change Curtails policy rules.mode report (another.append more)
      rw [hother] at h ⊢
      exact h.append more

/-- A check that stops at the first rejection accepts what the other mode does, with the same
output, and otherwise curtails its report. -/
theorem check_curtailed (rules : Rules) (schema : Schema) (value : Json) (here : Position)
    (session : Session) :
    Beside Eq (fun s t => rules.mode = .failFast → s = t) (Curtails rules.policy rules.mode)
      (check rules.failFast schema value here session) (check rules schema value here session) :=
  (inStep_sound rules.policy).holds ⟨⟨rfl, rfl⟩, rfl, rfl⟩ trivial

/-- The validator in another mode. -/
def Validator.inMode (validator : Validator) (mode : Mode) : Validator := { validator with mode }

/-- A validator in the two modes, from one session. -/
theorem Validator.curtailed (validator : Validator) (value : Json) (session : Session) :
    Beside Eq (fun _ _ => True) (Curtails validator.policy .collectAll)
      ((validator.inMode .failFast).validate value session)
      ((validator.inMode .collectAll).validate value session) := by
  have h := check_curtailed (validator.inMode .collectAll).toRules validator.schema value .root
    session
  rw [Validator.validate_eq, Validator.validate_eq]
  change Beside _ _ _ (check (validator.inMode .failFast).toRules
    (validator.inMode .failFast).schema value .root session)
    (check (validator.inMode .collectAll).toRules (validator.inMode .collectAll).schema value
      .root session) at h
  generalize check (validator.inMode .failFast).toRules (validator.inMode .failFast).schema value
    .root session = first at h ⊢
  generalize check (validator.inMode .collectAll).toRules (validator.inMode .collectAll).schema
    value .root session = all at h ⊢
  cases h with
  | ok h => exact .ok h
  | error he _ => exact .error he trivial

/-- The first rejections of two modes agree in all but further causes of members. -/
theorem Rejection.message_eq_of_cut {first second : Rejection} (h : first.cut = second.cut) :
    first.path = second.path ∧ first.message = second.message := by
  have hpath := congrArg Located.path h
  have hcause : first.cause.cut = second.cause.cut := congrArg Located.cause h
  refine ⟨hpath, ?_⟩
  rw [Rejection.message, Rejection.message, ← Cause.message_cut, hcause, Cause.message_cut]

/-- A union is checked alike in both modes. -/
theorem check_union_failFast (rules : Rules) (members : List Schema) (value : Json)
    (here : Position) :
    check rules.failFast (.union members) value here = check rules (.union members) value here := by
  funext session
  rw [check_union, check_union]
  rfl

/-- Both modes accept the same values with the same outputs. When they reject, the mode
that stops early has one rejection, which agrees with the first of all in path, in
wording, and in everything else once further causes of members are cut; under a plain
policy it has none of those to begin with. For a union nothing needs to be cut. -/
theorem failFast_agrees_with_collectAll (validator : Validator) (value : Json)
    (session : Session) :
    (∀ output, ((validator.inMode .failFast).validate value session).1 = .ok output ↔
      ((validator.inMode .collectAll).validate value session).1 = .ok output) ∧
    (∀ report, ((validator.inMode .collectAll).validate value session).1 = .error report →
      ∃ first, ((validator.inMode .failFast).validate value session).1 =
          .error (.singleton first) ∧
        first.path = report.head.path ∧ first.message = report.head.message ∧
        first.cut = report.head.cut ∧
        (validator.policy.Plain → first = report.head.cut)) ∧
    (∀ members, validator.schema = .union members →
      ((validator.inMode .failFast).validate value session).1 =
        ((validator.inMode .collectAll).validate value session).1) := by
  have h := validator.curtailed value session
  refine ⟨?_, ?_, ?_⟩
  · intro output
    generalize (validator.inMode .failFast).validate value session = first at h
    generalize (validator.inMode .collectAll).validate value session = all at h
    cases h with
    | ok => exact Iff.rfl
    | error => simp
  · intro report hreport
    generalize (validator.inMode .failFast).validate value session = first at h
    generalize (validator.inMode .collectAll).validate value session = all at h hreport
    cases h with
    | ok => cases hreport
    | @error curtailed _ _ _ he =>
      cases hreport
      obtain ⟨first, rest⟩ := curtailed
      obtain rfl : rest = [] := he.alone
      have hcut : first.cut = report.head.cut := he.cut
      obtain ⟨hpath, hmessage⟩ := Rejection.message_eq_of_cut hcut
      exact ⟨first, rfl, hpath, hmessage, hcut, fun hp => (he.plain hp).symm.trans hcut⟩
  · intro members hm
    have hsame : check (validator.inMode .failFast).toRules validator.schema value .root session =
        check (validator.inMode .collectAll).toRules validator.schema value .root session := by
      rw [hm]
      exact congrFun (check_union_failFast (validator.inMode .collectAll).toRules members value
        .root) session
    rw [Validator.validate_fst, Validator.validate_fst]
    exact congrArg Prod.fst hsame

/-- Two required fields, as the one member of an intersection. -/
def twoRequired : Validator where
  policy := .strict
  schema := .intersection [.struct [⟨"a", .leaf .number, none, false⟩,
    ⟨"b", .leaf .string, none, false⟩]]

/-- The empty object lacks both fields, of which the mode that stops early tells the
first. -/
theorem twoRequired_modes :
    ((twoRequired.inMode .collectAll).validate (.object []) ⟨.empty, #[]⟩).1 =
      .error (.singleton ⟨[], .memberFailed 0
        ⟨⟨[.key "a"], .missingField "a"⟩, [⟨[.key "b"], .missingField "b"⟩]⟩⟩) ∧
    ((twoRequired.inMode .failFast).validate (.object []) ⟨.empty, #[]⟩).1 =
      .error (.singleton ⟨[], .memberFailed 0 (.singleton ⟨[.key "a"], .missingField "a"⟩)⟩) := by
  have hall : ((twoRequired.inMode .collectAll).validate (.object []) ⟨.empty, #[]⟩).1 =
      .error (.singleton ⟨[], .memberFailed 0
        ⟨⟨[.key "a"], .missingField "a"⟩, [⟨[.key "b"], .missingField "b"⟩]⟩⟩) := by
    rw [Validator.validate_fst, Validator.inMode, twoRequired]
    simp [check_intersection, checkEvery_cons, check_struct, checkChildren_cons, checkChildren_nil,
      checkChild_absent, Child.ofField, Entries.lookup, Schema.acceptsAbsent,
      Schema.acceptsAbsentWithin]
    rfl
  obtain ⟨_, hfirst, _⟩ := failFast_agrees_with_collectAll twoRequired (.object []) ⟨.empty, #[]⟩
  obtain ⟨first, hrun, _, _, _, hplain⟩ := hfirst _ hall
  refine ⟨hall, ?_⟩
  rw [hrun, hplain (PolicyKind.policy_plain .strict)]
  rfl

end Conformance
