import Conformance.Proofs.Acceptance

/-!
# What every rejection of a report has

A property of rejections holds of a report if each of its rejections has it. A container
reports what its children report, and a row of children what each of them reports, so the
property is carried up from there; a union that fails reports an attempt of each member.
-/

namespace Conformance

/-- Every rejection of a report has a property. -/
def Reports (P : Rejection → Prop) {α : Type} (result : Except Report α) : Prop :=
  ∀ report, result = .error report → ∀ r ∈ report.toList, P r

section Reports

variable {P Q : Rejection → Prop} {α β : Type}

/-- An output reports nothing. -/
theorem Reports.ok (output : α) : Reports P (.ok output : Except Report α) := by
  intro report h
  cases h

/-- One rejection is all that is reported. -/
theorem Reports.one {rejection : Rejection} (h : P rejection) :
    Reports P (.error (.singleton rejection) : Except Report α) := by
  intro report heq r hr
  cases heq
  rw [List.mem_singleton.mp hr]
  exact h

/-- The properties of a report do not depend on what the result would have been. -/
theorem Reports.imp {report : Report} (h : Reports P (.error report : Except Report α))
    (hpq : ∀ r, P r → Q r) : Reports Q (.error report : Except Report β) := by
  intro other heq r hr
  cases heq
  exact hpq r (h report rfl r hr)

/-- Two reports together have the properties that both have. -/
theorem Reports.append {report more : Report} (h : Reports P (.error report : Except Report α))
    (hmore : Reports P (.error more : Except Report α)) :
    Reports P (.error (report.append more) : Except Report β) := by
  intro both heq r hr
  cases heq
  rw [NonEmpty.toList_append] at hr
  rcases List.mem_append.mp hr with hr | hr
  · exact h report rfl r hr
  · exact hmore more rfl r hr

end Reports

section Steps

variable {P : Rejection → Prop} {rules : Rules} {here : Position} {session : Session}

/-- Above the depth limit a container reports what its children report. -/
theorem Reports.container {schema : Schema} {value : Json} {children : List Child}
    {assemble : List (Option Json) → Json} (hc : Container schema value children assemble)
    (hd : ¬rules.maxDepth ≤ here.path.length)
    (h : Reports P (checkChildren rules children here session).1) :
    Reports P (check rules schema value here session).1 := by
  rw [check_container hc hd]
  rcases hrun : checkChildren rules children here session with ⟨report | outputs, later⟩ <;>
    rw [hrun] at h
  · exact h.imp fun _ hr => hr
  · exact .ok _

/-- A child that is present reports what its value reports. -/
theorem Reports.present {segment : Segment} {schema : Schema} {value : Json}
    (h : Reports P (check rules schema value (here.child segment) session).1) :
    Reports P (checkChild rules (.present segment schema value) here session).1 := by
  rw [checkChild_present]
  rcases hrun : check rules schema value (here.child segment) session with
    ⟨report | output, later⟩ <;> rw [hrun] at h
  · exact h.imp fun _ hr => hr
  · exact .ok _

/-- A row of children reports what its first child reports, and the others after it. -/
theorem Reports.moreChildren {child : Child} {rest : List Child}
    (hchild : Reports P (checkChild rules child here session).1)
    (hrest : ∀ later : Session, later.store.target? = session.store.target? →
      Reports P (checkChildren rules rest here later).1) :
    Reports P (checkChildren rules (child :: rest) here session).1 := by
  have hkeep := checkChild_target? rules child here session
  rw [checkChildren_cons]
  rcases hc : checkChild rules child here session with ⟨report | output, later⟩ <;>
    rw [hc] at hchild hkeep <;> have hothers := hrest later hkeep <;> dsimp only
  · split
    · rcases hr : checkChildren rules rest here later with ⟨more | outputs, last⟩
      · rw [hr] at hothers
        exact (hchild.imp fun _ hr => hr).append hothers
      · exact hchild.imp fun _ hr => hr
    · exact hchild.imp fun _ hr => hr
  · rcases hr : checkChildren rules rest here later with ⟨more | outputs, last⟩
    · rw [hr] at hothers
      exact hothers
    · exact .ok _

/-- A row of children reports what every child reports. -/
theorem Reports.children {targets : Targets} {children : List Child}
    (h : ∀ child ∈ children, ∀ session : Session, session.store.target? = targets →
      Reports P (checkChild rules child here session).1)
    (hs : session.store.target? = targets) :
    Reports P (checkChildren rules children here session).1 := by
  induction children generalizing session with
  | nil =>
    rw [checkChildren_nil]
    exact .ok _
  | cons child rest ih =>
    obtain ⟨hfirst, hrest⟩ := List.forall_mem_cons.mp h
    exact .moreChildren (hfirst session hs) fun later hkeep => ih hrest (hkeep.trans hs)

/-- What one member of a union reports is found among the attempts. -/
theorem exists_attempt_of_checkMembers {targets : Targets} {members : List Schema}
    {member : Schema} {value : Json} (hm : member ∈ members)
    (h : ∀ session : Session, session.store.target? = targets →
      Reports P (check rules member value here session).1)
    (index : Nat) (hs : session.store.target? = targets) (attempts : List Rejection)
    (hrun : (checkMembers rules index members value here session).1 = .error attempts) :
    ∃ attempt ∈ attempts, P attempt := by
  induction members generalizing index session attempts with
  | nil => cases hm
  | cons first rest ih =>
    obtain ⟨_, hkeep⟩ := check_gives rules first value here session
    rw [checkMembers_cons] at hrun
    rcases hc : check rules first value here session with ⟨report | output, later⟩ <;>
      rw [hc] at hrun hkeep <;> dsimp only at hrun
    · have hlater : (Session.record (.memberRejected index report.head) later).2.store.target? =
          targets := hkeep.trans hs
      have hothers := fun hm => ih hm (index + 1) hlater
      rcases hr : checkMembers rules (index + 1) rest value here
          (Session.record (.memberRejected index report.head) later).2 with
        ⟨others | output, last⟩ <;>
        rw [hr] at hrun hothers <;> cases hrun
      rcases List.mem_cons.mp hm with rfl | hm
      · have hfirst := h session hs
        rw [hc] at hfirst
        exact ⟨report.head, List.mem_cons_self, hfirst report rfl _ List.mem_cons_self⟩
      · obtain ⟨attempt, ha, hp⟩ := hothers hm others rfl
        exact ⟨attempt, List.mem_cons_of_mem _ ha, hp⟩
    · cases hrun

end Steps

end Conformance
