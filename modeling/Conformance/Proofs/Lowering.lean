import Conformance.Proofs.DepthLimit
import Conformance.Proofs.Pairing
import Conformance.Proofs.Resolved

/-!
# The same check one level further down

A check of a value as the child of a container does what it does at a root of its own: the
segment of the child goes in front of every path, and the depth limit, which counts from
the root, is one larger. What it has to find as it was is the store, so the graph must have
nothing left to resolve; the references that are being followed start anew with every
child.
-/

namespace Conformance

mutual

/-- The cause, as it reads one level further down: the segment goes in front of all paths
that it carries, and a limit counts one level more. -/
def Cause.lower (segment : Segment) : Cause → Cause
  | .noMemberMatched expected attempts =>
    .noMemberMatched expected (Cause.lowerAll segment attempts)
  | .memberFailed member ⟨⟨path, cause⟩, rest⟩ =>
    .memberFailed member ⟨⟨segment :: path, cause.lower segment⟩, Cause.lowerAll segment rest⟩
  | .depthExceeded limit => .depthExceeded (limit + 1)
  | cause => cause

/-- The rejections of a row, each one level further down. -/
def Cause.lowerAll (segment : Segment) : List Rejection → List Rejection
  | [] => []
  | ⟨path, cause⟩ :: rest =>
    ⟨segment :: path, cause.lower segment⟩ :: Cause.lowerAll segment rest

end

/-- The rejection one level further down. -/
def Rejection.lower (segment : Segment) (rejection : Rejection) : Rejection :=
  ⟨segment :: rejection.path, rejection.cause.lower segment⟩

/-- Each rejection of a row is lowered by itself. -/
theorem Cause.lowerAll_eq_map (segment : Segment) (rejections : List Rejection) :
    Cause.lowerAll segment rejections = rejections.map (Rejection.lower segment) := by
  induction rejections with
  | nil => rw [Cause.lowerAll, List.map_nil]
  | cons rejection rest ih => rw [Cause.lowerAll, ih, List.map_cons, Rejection.lower]

/-- A failed member keeps its position, and each of its causes is lowered by itself. -/
theorem Cause.lower_memberFailed (segment : Segment) (member : Nat) (causes : Report) :
    (Cause.memberFailed member causes).lower segment = .memberFailed member
      ⟨Rejection.lower segment causes.head, causes.tail.map (Rejection.lower segment)⟩ := by
  rw [Cause.lower, Cause.lowerAll_eq_map, Rejection.lower]

/-- A policy whose causes carry nothing and name no limit of the check, so that they read
the same on every level. -/
def Policy.Shallow (policy : Policy) : Prop :=
  ∀ leaf value cause segment, policy.check leaf value = .error cause →
    cause.lower segment = cause

/-- The built-in policies are shallow. -/
theorem PolicyKind.policy_shallow (kind : PolicyKind) : kind.policy.Shallow := by
  intro leaf value cause segment h
  cases PolicyKind.refusal h <;> rw [Cause.lower] <;> simp

/-- A rejection beside the one that takes its place one level further down, under a limit
that is one larger. What the policy says of a leaf stays as it is. -/
inductive Lowered (policy : Policy) (segment : Segment) (limit : Nat) :
    Rejection → Rejection → Prop
  /-- The policy refused a leaf. -/
  | refused {leaf : Leaf} {value : Json} {cause : Cause} {path : Path}
    (h : policy.check leaf value = .error cause) :
    Lowered policy segment limit ⟨path, cause⟩ ⟨segment :: path, cause⟩
  /-- The cause carries nothing and names no limit. -/
  | alike {cause : Cause} {path : Path} (h : cause.lower segment = cause) :
    Lowered policy segment limit ⟨path, cause⟩ ⟨segment :: path, cause⟩
  /-- The value nests too deeply. -/
  | deep {path : Path} :
    Lowered policy segment limit ⟨path, .depthExceeded limit⟩
      ⟨segment :: path, .depthExceeded (limit + 1)⟩
  /-- The attempts of a union are lowered one by one. -/
  | union {path : Path} {expected : String} {attempts others : List Rejection}
    (hlength : attempts.length = others.length)
    (h : ∀ (i : Nat) attempt other, attempts[i]? = some attempt → others[i]? = some other →
      Lowered policy segment limit attempt other) :
    Lowered policy segment limit ⟨path, .noMemberMatched expected attempts⟩
      ⟨segment :: path, .noMemberMatched expected others⟩
  /-- The causes of a member are lowered one by one. -/
  | member {path : Path} {member : Nat} {causes others : Report}
    (hlength : causes.toList.length = others.toList.length)
    (h : ∀ (i : Nat) cause other, causes.toList[i]? = some cause → others.toList[i]? = some other →
      Lowered policy segment limit cause other) :
    Lowered policy segment limit ⟨path, .memberFailed member causes⟩
      ⟨segment :: path, .memberFailed member others⟩

section Rows

variable {policy : Policy} {segment : Segment} {limit : Nat}

/-- Rows of the same length are equal if what they have at each position is. -/
theorem eq_map_of_getElem? {f : Rejection → Rejection} {rejections others : List Rejection}
    (hlength : rejections.length = others.length)
    (h : ∀ (i : Nat) rejection other, rejections[i]? = some rejection → others[i]? = some other →
      other = f rejection) : others = rejections.map f := by
  refine List.ext_getElem (by rw [List.length_map, hlength]) fun i hi hi' => ?_
  rw [List.getElem_map]
  have hr : i < rejections.length := by omega
  exact h i _ _ (List.getElem?_eq_getElem hr) (List.getElem?_eq_getElem hi)

/-- Under a shallow policy it is known what takes the place of a rejection. -/
theorem Lowered.eq_lower (hpolicy : policy.Shallow) {rejection other : Rejection}
    (h : Lowered policy segment limit rejection other) : other = rejection.lower segment := by
  induction h with
  | @refused leaf value cause path hcheck =>
    rw [Rejection.lower, hpolicy leaf value cause segment hcheck]
  | alike hcause => rw [Rejection.lower, hcause]
  | deep => rw [Rejection.lower, Cause.lower]
  | union hlength _ ih =>
    rw [Rejection.lower, Cause.lower, Cause.lowerAll_eq_map, eq_map_of_getElem? hlength ih]
  | @member path index causes others hlength _ ih =>
    have hothers := eq_map_of_getElem? hlength ih
    obtain ⟨first, rest⟩ := others
    have hfirst : first = Rejection.lower segment causes.head := (List.cons.inj hothers).1
    have hrest : rest = causes.tail.map (Rejection.lower segment) := (List.cons.inj hothers).2
    rw [Rejection.lower, Cause.lower_memberFailed, hfirst, hrest]

/-- The attempts of a union are lowered as a row. -/
theorem Lowered.attempts {path : Path} {expected : String} {attempts others : List Rejection}
    (h : List.Forall₂ (Lowered policy segment limit) attempts others) :
    Lowered policy segment limit ⟨path, .noMemberMatched expected attempts⟩
      ⟨segment :: path, .noMemberMatched expected others⟩ := by
  refine .union h.length_eq fun i attempt other ha ho => ?_
  obtain ⟨found, hfound, hlowered⟩ := exists_of_forall₂_of_getElem? h ha
  cases ho.symm.trans hfound
  exact hlowered

/-- The causes of a member are lowered as a row. -/
theorem Lowered.causes {path : Path} {index : Nat} {causes others : Report}
    (h : List.Forall₂ (Lowered policy segment limit) causes.toList others.toList) :
    Lowered policy segment limit ⟨path, .memberFailed index causes⟩
      ⟨segment :: path, .memberFailed index others⟩ := by
  refine .member h.length_eq fun i cause other hc ho => ?_
  obtain ⟨found, hfound, hlowered⟩ := exists_of_forall₂_of_getElem? h hc
  cases ho.symm.trans hfound
  exact hlowered

end Rows

/-- The same node, in a document that has the value as its child at a segment. -/
def Position.under (here : Position) (segment : Segment) : Position :=
  ⟨segment :: here.path, here.entered⟩

/-- A report beside the one that takes its place one level further down. -/
def LoweredReport (policy : Policy) (segment : Segment) (limit : Nat) (report other : Report) :
    Prop :=
  List.Forall₂ (Lowered policy segment limit) report.toList other.toList

/-- Two sessions with the same store. -/
def BothAt (store : Store) (s t : Session) : Prop := s.store = store ∧ t.store = store

/-- A check beside the one under a segment, with one level more, where nothing in the graph is
left to resolve. -/
def lowering (store : Store) (root : Schema) (policy : Policy) (segment : Segment)
    (limit : Nat) : Pairing where
  rules rules other :=
    rules.policy = policy ∧ rules.maxDepth = limit ∧ other = rules.upTo (limit + 1)
  place here there := there = here.under segment
  within schema := Schema.Reaches store.target? root schema
  before := BothAt store
  after _ := BothAt store
  report _ := LoweredReport policy segment limit
  attempts := List.Forall₂ (Lowered policy segment limit)

section Steps

variable {store : Store} {root : Schema} {policy : Policy} {segment : Segment} {limit : Nat}

/-- Two runs reject a node for causes of which one takes the place of the other. -/
theorem LoweredReport.reject {path : Path} {cause other : Cause}
    (h : Lowered policy segment limit ⟨path, cause⟩ ⟨segment :: path, other⟩) :
    LoweredReport policy segment limit (.singleton ⟨path, cause⟩)
      (.singleton ⟨segment :: path, other⟩) :=
  .cons h .nil

/-- A cause of the check itself reads the same on every level. -/
theorem Cause.Bare.lower {cause : Cause} (h : cause.Bare) : cause.lower segment = cause := by
  cases h <;> rfl

/-- A store in which a session has nothing left to resolve answers and stays as it is. -/
theorem BothAt.absence (hresolved : root.Resolved store) {schema : Schema}
    (hr : Schema.Reaches store.target? root schema) {s : Session} (hs : s.store = store) :
    Session.onStore schema.acceptsAbsent s = (schema.absentWithin store.target? [], s) := by
  subst hs
  exact hresolved.onStore_acceptsAbsent hr

theorem lowering_sound (hresolved : root.Resolved store) :
    (lowering store root policy segment limit).Sound where
  policy := by
    rintro rules _ ⟨_, _, rfl⟩
    rfl
  failFast := by
    rintro rules _ ⟨hpolicy, hlimit, rfl⟩
    exact ⟨hpolicy, hlimit, rfl⟩
  tooDeep := by
    rintro rules _ here _ ⟨_, hlimit, rfl⟩ rfl
    rw [hlimit]
    exact Nat.succ_le_succ_iff
  mayEnter := by
    rintro here _ cell rfl
    rfl
  enter := by
    rintro here _ cell rfl
    rfl
  descend := by
    rintro here _ place rfl
    rfl
  part hr hp := hr.part hp
  child hr hc hm := hr.child hc hm
  fetch := by
    rintro r s t hr ⟨hs, ht⟩
    have hread : ∀ u : Session, u.store = store →
        Session.onStore (Store.fetch? r.cell) u = (store.target? r.cell, u) := by
      rintro u rfl
      exact Session.onStore_fetch?_of_peek? (hresolved r hr)
    exact ⟨store.target? r.cell, s, t, hread s hs, hread t ht, ⟨hs, ht⟩, fun _ h => hr.target h⟩
  absence := by
    rintro schema s t hr ⟨hs, ht⟩
    exact ⟨_, s, t, BothAt.absence hresolved hr hs, BothAt.absence hresolved hr ht, hs, ht⟩
  verdict h := h
  rejected h := h
  refused := by
    rintro rules _ here _ leaf value cause ⟨hpolicy, _, rfl⟩ rfl hcheck
    rw [hpolicy] at hcheck
    exact .reject (.refused hcheck)
  bare := by
    rintro _ here _ way cause rfl hcause
    exact .reject (.alike hcause.lower)
  deep := by
    rintro rules _ here _ ⟨_, hlimit, rfl⟩ rfl
    rw [hlimit]
    exact .reject .deep
  unmatched := by
    rintro _ here _ members s t attempts others rfl _ ⟨hs, ht⟩ h
    rw [hs, ht]
    exact .reject (.attempts h)
  failed := by
    rintro _ here _ index causes others rfl h
    exact .reject (.causes h)
  noAttempts := .nil
  attempt := by
    rintro _ report another attempts others _ h hrest
    exact .cons (List.forall₂_cons.mp h).1 hrest
  passedOver _ _ _ _ _ h := h
  goOn := by
    rintro rules _ ⟨_, _, rfl⟩ hmode
    exact ⟨hmode, fun _ _ h => h, fun h hmore => List.rel_append h hmore⟩
  goAhead := by
    rintro rules _ ⟨_, _, rfl⟩ hmode hother
    exact absurd hother hmode

/-- A check under a segment, with one level more, ends like the check without. -/
theorem check_lowered (hresolved : root.Resolved store) (rules : Rules) {schema : Schema}
    (hr : Schema.Reaches store.target? root schema) (value : Json) (here : Position)
    {s t : Session} (h : BothAt store s t) :
    Beside (BothAt store) (BothAt store) (LoweredReport rules.policy segment rules.maxDepth)
      (check rules schema value here s)
      (check (rules.upTo (rules.maxDepth + 1)) schema value (here.under segment) t) :=
  (lowering_sound hresolved).holds ⟨⟨rfl, rfl, rfl⟩, rfl, h⟩ hr

end Steps

end Conformance
