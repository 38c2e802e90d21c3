import Conformance.Proofs.Graph
import Conformance.Proofs.Walk

/-!
# Two checks side by side

Many results compare a check with another one: in another session, at another place, in
another mode. Both make the same calls, so the second can be followed along the walk of
the first. A `Pairing` says which rules, positions, sessions and rejections go together,
and `Pairing.Sound` asks of it what the calls themselves do not give: that what the
positions and the stores answer is the same for both, and that the rejections which one
step makes of paired ones are paired again. Then whole checks end side by side.
-/

namespace Conformance

/-- Two runs end beside each other: with the same output, or with errors that go together. -/
inductive Beside (accepted rejected : Session → Session → Prop) {ε α : Type}
    (related : ε → ε → Prop) : Except ε α × Session → Except ε α × Session → Prop
  /-- Both give the same. -/
  | ok {output : α} {later last : Session} (h : accepted later last) :
    Beside accepted rejected related (.ok output, later) (.ok output, last)
  /-- Both fail. -/
  | error {error other : ε} {later last : Session} (he : related error other)
    (h : rejected later last) :
    Beside accepted rejected related (.error error, later) (.error other, last)

/-- A cause that a check gives by itself, without causes from elsewhere and without a
limit. -/
inductive Cause.Bare : Cause → Prop
  /-- The value is not the container that is expected. -/
  | mismatch (expected found : String) : Bare (.shapeMismatch expected found)
  /-- A field is missing. -/
  | missing (name : String) : Bare (.missingField name)
  /-- A reference leads nowhere. -/
  | unresolved : Bare .unresolvedReference
  /-- A reference may not be followed. -/
  | cyclic : Bare .cyclicReference
  /-- The outputs of two members differ. -/
  | conflict (member : Nat) : Bare (.conflict member)

/-- What goes together in two runs of a check. -/
structure Pairing where
  /-- Under these rules the runs are compared. -/
  rules : Rules → Rules → Prop
  /-- At these positions. -/
  place : Position → Position → Prop
  /-- For these schemas. -/
  within : Schema → Prop
  /-- From these sessions, and in such they end if they accept. -/
  before : Session → Session → Prop
  /-- In these sessions they end if they reject, the second one under the given rules. -/
  after : Rules → Session → Session → Prop
  /-- The reports that go together, the second one made under the given rules. -/
  report : Rules → Report → Report → Prop
  /-- The attempts of a union that go together. -/
  attempts : List Rejection → List Rejection → Prop

namespace Pairing

variable (pairing : Pairing)

/-- What has to be shown of a pairing for whole checks to end side by side. -/
structure Sound : Prop where
  policy : ∀ {rules other}, pairing.rules rules other → other.policy = rules.policy
  failFast : ∀ {rules other}, pairing.rules rules other →
    pairing.rules rules.failFast other.failFast
  tooDeep : ∀ {rules other here there}, pairing.rules rules other → pairing.place here there →
    (other.maxDepth ≤ there.path.length ↔ rules.maxDepth ≤ here.path.length)
  mayEnter : ∀ {here there} cell, pairing.place here there →
    (there.mayEnter cell ↔ here.mayEnter cell)
  enter : ∀ {here there} cell, pairing.place here there →
    pairing.place (here.enter cell) (there.enter cell)
  descend : ∀ {here there} segment, pairing.place here there →
    pairing.place (here.child segment) (there.child segment)
  part : ∀ {whole part}, pairing.within whole → part ∈ whole.parts → pairing.within part
  child : ∀ {schema value children assemble child}, pairing.within schema →
    Container schema value children assemble → child ∈ children → pairing.within child.schema
  fetch : ∀ {r s t}, pairing.within (.reference r) → pairing.before s t →
    ∃ target later last, Session.onStore (Store.fetch? r.cell) s = (target, later) ∧
      Session.onStore (Store.fetch? r.cell) t = (target, last) ∧ pairing.before later last ∧
      ∀ schema, target = some schema → pairing.within schema
  absence : ∀ {schema : Schema} {s t}, pairing.within schema → pairing.before s t →
    ∃ answer later last, Session.onStore schema.acceptsAbsent s = (answer, later) ∧
      Session.onStore schema.acceptsAbsent t = (answer, last) ∧ pairing.before later last
  verdict : ∀ {leaf value accepted s t}, pairing.before s t → pairing.before
    (Session.record (.leafChecked leaf value accepted) s).2
    (Session.record (.leafChecked leaf value accepted) t).2
  rejected : ∀ {other s t}, pairing.before s t → pairing.after other s t
  refused : ∀ {rules other here there leaf value cause}, pairing.rules rules other →
    pairing.place here there → rules.policy.check leaf value = .error cause →
    pairing.report other (here.reject cause) (there.reject cause)
  bare : ∀ {other here there} (way : Path) {cause}, pairing.place here there → Cause.Bare cause →
    pairing.report other (.singleton ⟨here.path ++ way, cause⟩)
      (.singleton ⟨there.path ++ way, cause⟩)
  deep : ∀ {rules other here there}, pairing.rules rules other → pairing.place here there →
    pairing.report other (here.reject (.depthExceeded rules.maxDepth))
      (there.reject (.depthExceeded other.maxDepth))
  unmatched : ∀ {other here there members} {s t : Session} {attempts others},
    pairing.place here there → pairing.within (.union members) → pairing.before s t →
    pairing.attempts attempts others →
    pairing.report other
      (here.reject (.noMemberMatched ((Schema.union members).render s.store) attempts))
      (there.reject (.noMemberMatched ((Schema.union members).render t.store) others))
  failed : ∀ {other here there index causes others}, pairing.place here there →
    pairing.report other causes others →
    pairing.report other (here.reject (.memberFailed index causes))
      (there.reject (.memberFailed index others))
  noAttempts : pairing.attempts [] []
  attempt : ∀ {other report another attempts others}, other.mode = .failFast →
    pairing.report other report another → pairing.attempts attempts others →
    pairing.attempts (report.head :: attempts) (another.head :: others)
  passedOver : ∀ {other report another} (index : Nat) {s t}, other.mode = .failFast →
    pairing.report other report another → pairing.after other s t → pairing.before
      (Session.record (.memberRejected index report.head) s).2
      (Session.record (.memberRejected index another.head) t).2
  /-- Where the first run goes on after a rejection, so does the second. -/
  goOn : ∀ {rules other}, pairing.rules rules other → rules.mode = .collectAll →
    other.mode = .collectAll ∧ (∀ s t, pairing.after other s t → pairing.before s t) ∧
      ∀ {report another more others}, pairing.report other report another →
        pairing.report other more others →
        pairing.report other (report.append more) (another.append others)
  /-- Where only the second run goes on, what it finds changes nothing. -/
  goAhead : ∀ {rules other}, pairing.rules rules other → rules.mode ≠ .collectAll →
    other.mode = .collectAll → (∀ s t, pairing.after other s t) ∧
      ∀ {report another} more, pairing.report other report another →
        pairing.report other report (another.append more)

/-- Two runs that start side by side. -/
structure Starts (rules : Rules) (here : Position) (s : Session) (other : Rules)
    (there : Position) (t : Session) : Prop where
  /-- Their rules go together. -/
  rules : pairing.rules rules other
  /-- They are at positions that go together. -/
  place : pairing.place here there
  /-- They are in sessions that go together. -/
  before : pairing.before s t

/-- In every function of a check, runs that start side by side end so. A union is searched
for first rejections only. -/
def walk : Walk where
  ofSchema rules schema value here := ∀ other there s t,
    pairing.Starts rules here s other there t → pairing.within schema →
    Beside pairing.before (pairing.after other) (pairing.report other)
      (check rules schema value here s) (check other schema value there t)
  ofChild rules child here := ∀ other there s t,
    pairing.Starts rules here s other there t → pairing.within child.schema →
    Beside pairing.before (pairing.after other) (pairing.report other)
      (checkChild rules child here s) (checkChild other child there t)
  ofChildren rules children here := ∀ other there s t,
    pairing.Starts rules here s other there t →
    (∀ child ∈ children, pairing.within child.schema) →
    Beside pairing.before (pairing.after other) (pairing.report other)
      (checkChildren rules children here s) (checkChildren other children there t)
  ofMembers rules index members value here := ∀ other there s t,
    pairing.Starts rules here s other there t → other.mode = .failFast →
    (∀ member ∈ members, pairing.within member) →
    Beside pairing.before pairing.before pairing.attempts
      (checkMembers rules index members value here s)
      (checkMembers other index members value there t)
  ofEvery rules index members merged value here := ∀ other there s t,
    pairing.Starts rules here s other there t → (∀ member ∈ members, pairing.within member) →
    Beside pairing.before (pairing.after other) (pairing.report other)
      (checkEvery rules index members merged value here s)
      (checkEvery other index members merged value there t)

variable {pairing}

/-- Both runs reject the node for a cause of their own. -/
theorem Sound.reject (sound : pairing.Sound) {α : Type} {other : Rules} {here there : Position}
    {s t : Session} {cause : Cause} (hplace : pairing.place here there)
    (hbefore : pairing.before s t) (hcause : cause.Bare) :
    Beside (α := α) pairing.before (pairing.after other) (pairing.report other)
      (.error (here.reject cause), s) (.error (there.reject cause), t) := by
  refine .error ?_ (sound.rejected hbefore)
  have hbare : pairing.report other (.singleton ⟨here.path ++ [], cause⟩)
      (.singleton ⟨there.path ++ [], cause⟩) := sound.bare [] hplace hcause
  rw [List.append_nil, List.append_nil] at hbare
  exact hbare

/-- The runs of a row end side by side if those of its first child and of the others do. After
a rejection both go on, or only the second one does, or neither. -/
theorem Sound.moreChildren (sound : pairing.Sound) {rules other : Rules} {child : Child}
    {rest : List Child} {here there : Position} {s t : Session}
    (h : pairing.Starts rules here s other there t)
    (hchild : Beside pairing.before (pairing.after other) (pairing.report other)
      (checkChild rules child here s) (checkChild other child there t))
    (hrest : ∀ later last, pairing.Starts rules here later other there last →
      Beside pairing.before (pairing.after other) (pairing.report other)
        (checkChildren rules rest here later) (checkChildren other rest there last)) :
    Beside pairing.before (pairing.after other) (pairing.report other)
      (checkChildren rules (child :: rest) here s)
      (checkChildren other (child :: rest) there t) := by
  rw [checkChildren_cons, checkChildren_cons]
  generalize checkChild rules child here s = first at hchild ⊢
  generalize checkChild other child there t = second at hchild ⊢
  cases hchild with
  | @ok output later last hbefore =>
    have hothers := hrest later last ⟨h.rules, h.place, hbefore⟩
    dsimp only
    generalize checkChildren rules rest here later = first at hothers ⊢
    generalize checkChildren other rest there last = second at hothers ⊢
    cases hothers with
    | ok hbefore => exact .ok hbefore
    | error he hafter => exact .error he hafter
  | @error report another later last he hafter =>
    dsimp only
    by_cases hmode : rules.mode = .collectAll
    · obtain ⟨hother, hbefore, happend⟩ := sound.goOn h.rules hmode
      have hothers := hrest later last ⟨h.rules, h.place, hbefore later last hafter⟩
      rw [if_pos hmode, if_pos hother]
      generalize checkChildren rules rest here later = first at hothers ⊢
      generalize checkChildren other rest there last = second at hothers ⊢
      cases hothers with
      | ok hbefore => exact .error he (sound.rejected hbefore)
      | error hmore hafter => exact .error (happend he hmore) hafter
    · rw [if_neg hmode]
      by_cases hother : other.mode = .collectAll
      · obtain ⟨hany, happend⟩ := sound.goAhead h.rules hmode hother
        rw [if_pos hother]
        rcases checkChildren other rest there last with ⟨more | outputs, final⟩
        · exact .error (happend more he) (hany later final)
        · exact .error he (hany later final)
      · rw [if_neg hother]
        exact .error he hafter

/-- A sound pairing goes through all functions of a check. -/
theorem Sound.inductive (sound : pairing.Sound) : pairing.walk.Inductive where
  leaf rules leaf value here other there s t h _ := by
    rw [check_leaf, check_leaf, sound.policy h.rules]
    cases hcheck : rules.policy.check leaf value with
    | ok output => exact .ok (sound.verdict h.before)
    | error cause =>
      exact .error (sound.refused h.rules h.place hcheck) (sound.rejected (sound.verdict h.before))
  null rules inner value here hnull other there s t h _ := by
    rw [check_nullable_null _ _ _ _ _ hnull, check_nullable_null _ _ _ _ _ hnull]
    exact .ok h.before
  nullable rules inner value here hnull ih other there s t h hw := by
    rw [check_nullable _ _ _ _ _ hnull, check_nullable _ _ _ _ _ hnull]
    exact ih other there s t h (sound.part hw (List.mem_singleton_self _))
  union rules members value here ih other there s t h hw := by
    have hmembers := ih other.failFast there s t ⟨sound.failFast h.rules, h.place, h.before⟩ rfl
      fun member hm => sound.part hw hm
    rw [check_union, check_union]
    generalize checkMembers rules.failFast 0 members value here s = first at hmembers ⊢
    generalize checkMembers other.failFast 0 members value there t = second at hmembers ⊢
    cases hmembers with
    | ok hbefore => exact .ok hbefore
    | error he hbefore =>
      exact .error (sound.unmatched h.place hw hbefore he) (sound.rejected hbefore)
  intersection rules members value here ih other there s t h hw := by
    rw [check_intersection, check_intersection]
    exact ih other there s t h fun member hm => sound.part hw hm
  followed rules r value here he ih other there s t h hw := by
    obtain ⟨target, later, last, hs, ht, hbefore, htarget⟩ := sound.fetch hw h.before
    rw [check_reference _ _ _ _ he, check_reference _ _ _ _ ((sound.mayEnter _ h.place).mpr he),
      hs, ht]
    cases target with
    | none => exact sound.reject h.place hbefore .unresolved
    | some target =>
      exact ih target other _ later last ⟨h.rules, sound.enter _ h.place, hbefore⟩
        (htarget target rfl)
  blocked rules r value here he other there s t h _ := by
    rw [check_reference_blocked _ _ _ _ he,
      check_reference_blocked _ _ _ _ fun ht => he ((sound.mayEnter _ h.place).mp ht)]
    exact sound.reject h.place h.before .cyclic
  plain rules schema value here hs hview other there s t h _ := by
    rw [check_plain _ _ _ _ hs hview, check_plain _ _ _ _ hs hview]
    exact .ok h.before
  mismatch rules schema value here expected hview other there s t h _ := by
    rw [check_mismatch _ _ _ _ hview, check_mismatch _ _ _ _ hview]
    exact sound.reject h.place h.before (.mismatch _ _)
  deep rules schema value here children assemble hc hd other there s t h _ := by
    rw [check_deep hc hd, check_deep hc ((sound.tooDeep h.rules h.place).mpr hd)]
    exact .error (sound.deep h.rules h.place) (sound.rejected h.before)
  container rules schema value here children assemble hc hd ih other there s t h hw := by
    have hchildren := ih other there s t h fun child hm => sound.child hw hc hm
    rw [check_container hc hd,
      check_container hc fun ht => hd ((sound.tooDeep h.rules h.place).mp ht)]
    generalize checkChildren rules children here s = first at hchildren ⊢
    generalize checkChildren other children there t = second at hchildren ⊢
    cases hchildren with
    | ok hbefore => exact .ok hbefore
    | error he hafter => exact .error he hafter
  present rules segment schema value here ih other there s t h hw := by
    have hvalue := ih other (there.child segment) s t ⟨h.rules, sound.descend _ h.place, h.before⟩ hw
    rw [checkChild_present, checkChild_present]
    generalize check rules schema value (here.child segment) s = first at hvalue ⊢
    generalize check other schema value (there.child segment) t = second at hvalue ⊢
    cases hvalue with
    | ok hbefore => exact .ok hbefore
    | error he hafter => exact .error he hafter
  absent rules name schema here other there s t h hw := by
    have hw : pairing.within schema := hw
    obtain ⟨answer, later, last, hs, ht, hbefore⟩ := sound.absence hw h.before
    rw [checkChild_absent, checkChild_absent, hs, ht]
    cases answer with
    | true => exact .ok hbefore
    | false => exact sound.reject (sound.descend _ h.place) hbefore (.missing name)
  noChildren rules here other there s t h _ := by
    rw [checkChildren_nil, checkChildren_nil]
    exact .ok h.before
  moreChildren rules child rest here ihc ihr other there s t h hw := by
    obtain ⟨hfirst, hrest⟩ := List.forall_mem_cons.mp hw
    exact sound.moreChildren h (ihc other there s t h hfirst) fun later last hlater =>
      ihr other there later last hlater hrest
  noMembers rules index value here other there s t h _ _ := by
    rw [checkMembers_nil, checkMembers_nil]
    exact .error sound.noAttempts h.before
  moreMembers rules index member rest value here ihm ihr other there s t h hmode hw := by
    obtain ⟨hfirst, hrest⟩ := List.forall_mem_cons.mp hw
    have hmember := ihm other there s t h hfirst
    rw [checkMembers_cons, checkMembers_cons]
    generalize check rules member value here s = first at hmember ⊢
    generalize check other member value there t = second at hmember ⊢
    cases hmember with
    | ok hbefore => exact .ok hbefore
    | @error report another later last he hafter =>
      have hothers := ihr other there _ _
        ⟨h.rules, h.place, sound.passedOver index hmode he hafter⟩ hmode hrest
      dsimp only
      generalize checkMembers rules (index + 1) rest value here
        (Session.record (.memberRejected index report.head) later).2 = first at hothers ⊢
      generalize checkMembers other (index + 1) rest value there
        (Session.record (.memberRejected index another.head) last).2 = second at hothers ⊢
      cases hothers with
      | ok hbefore => exact .ok hbefore
      | error hmore hbefore => exact .error (sound.attempt hmode he hmore) hbefore
  everyDone rules index merged value here other there s t h _ := by
    rw [checkEvery_nil, checkEvery_nil]
    exact .ok h.before
  everyMore rules index member rest merged value here ihm ihr other there s t h hw := by
    obtain ⟨hfirst, hrest⟩ := List.forall_mem_cons.mp hw
    have hmember := ihm other there s t h hfirst
    rw [checkEvery_cons, checkEvery_cons]
    generalize check rules member value here s = first at hmember ⊢
    generalize check other member value there t = second at hmember ⊢
    cases hmember with
    | error he hafter => exact .error (sound.failed h.place he) hafter
    | @ok output later last hbefore =>
      dsimp only
      cases mergeInto merged output with
      | ok both => exact ihr both other there later last ⟨h.rules, h.place, hbefore⟩ hrest
      | error way =>
        exact .error (sound.bare _ h.place (.conflict index)) (sound.rejected hbefore)

/-- Checks that start side by side end side by side. -/
theorem Sound.holds (sound : pairing.Sound) {rules other : Rules} {schema : Schema} {value : Json}
    {here there : Position} {s t : Session} (h : pairing.Starts rules here s other there t)
    (hw : pairing.within schema) :
    Beside pairing.before (pairing.after other) (pairing.report other)
      (check rules schema value here s) (check other schema value there t) :=
  sound.inductive.holds rules schema value here other there s t h hw

end Pairing

end Conformance
