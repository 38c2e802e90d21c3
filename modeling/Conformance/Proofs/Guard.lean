import Conformance.Proofs.Contractive
import Conformance.Proofs.Pruning
import Conformance.Proofs.Survey
import Conformance.Proofs.Unguarded

/-!
# The guard against cycles is invisible on contractive graphs

On a contractive graph a check never meets a reference that it may not follow. So it gives
what the recursion without a guard gives, down to the session that it leaves, and the
question whether a field may be absent is answered alike. And of all places that a check
comes to, the ones that raise a cycle are never among them.
-/

namespace Conformance

namespace Schema

/-- On a store with the given targets a question without a guard answers what the guarded
one answers, and leaves the same store. -/
def Agrees (targets : Targets) (unguarded : StateT Store Option Bool)
    (guarded : StateM Store Bool) : Prop :=
  ∀ store : Store, store.target? = targets → unguarded store = some (guarded store)

/-- Questions that depend on the answer to another one agree if all of them do. -/
theorem Agrees.cond {targets : Targets} {ask yes no : StateT Store Option Bool}
    {ask' yes' no' : StateM Store Bool} (h : Agrees targets ask ask')
    (hkeep : ∀ store, (ask' store).2.target? = store.target?) (hyes : Agrees targets yes yes')
    (hno : Agrees targets no no') :
    Agrees targets (do if ← ask then yes else no) (do if ← ask' then yes' else no') := by
  intro store hs
  have hlater := (hkeep store).trans hs
  rw [bind_of_ends (h store hs)]
  change _ = some ((if (ask' store).1 = true then yes' else no') (ask' store).2)
  split
  · exact hyes _ hlater
  · exact hno _ hlater

/-- The question whether a schema accepts absence leaves every cell leading where it did. -/
theorem acceptsAbsentWithin_target? (entered : List CellId) (schema : Schema) (store : Store) :
    (acceptsAbsentWithin entered schema store).2.target? = store.target? := by
  obtain ⟨later, hrun, ht⟩ := reads_acceptsAbsentWithin entered schema store
  rw [hrun]
  exact ht

/-- In every function of the question for absence the one without a guard agrees, with a budget
for as many references as may still be followed at the node. -/
def agreeing (targets : Targets) (root : Schema) : AbsenceWalk where
  ofSchema entered schema := OnNode targets root entered schema → ∀ budget,
    maxHops ≤ budget + entered.length →
    Agrees targets (schema.acceptsAbsentUnguarded budget) (acceptsAbsentWithin entered schema)
  ofAny entered members := (∀ member ∈ members, OnNode targets root entered member) → ∀ budget,
    maxHops ≤ budget + entered.length →
    Agrees targets (anyAcceptsAbsentUnguarded budget members) (anyAcceptsAbsent entered members)
  ofAll entered members := (∀ member ∈ members, OnNode targets root entered member) → ∀ budget,
    maxHops ≤ budget + entered.length →
    Agrees targets (allAcceptAbsentUnguarded budget members) (allAcceptAbsent entered members)

theorem Contractive.agreeing_inductive {targets : Targets} {root : Schema}
    (hg : Contractive targets root) : (agreeing targets root).Inductive where
  nullable entered inner _ budget _ store _ := by
    rw [acceptsAbsentWithin, acceptsAbsentUnguarded]
    rfl
  any entered _ budget _ store _ := by
    rw [acceptsAbsentWithin, acceptsAbsentUnguarded]
    rfl
  union entered members ih h budget hb := by
    rw [acceptsAbsentWithin, acceptsAbsentUnguarded]
    exact ih (fun member hm => h.part rfl hm) budget hb
  intersection entered members ih h budget hb := by
    rw [acceptsAbsentWithin, acceptsAbsentUnguarded]
    exact ih (fun member hm => h.part rfl hm) budget hb
  followed entered r hf ih h budget hb store hs := by
    have htarget : (Store.fetch? r.cell store).1 = targets r.cell := by
      rw [Store.fetch?_fst, hs]
    have hlater := (Store.target?_fetch?_eq store r.cell).trans hs
    -- the reference may be followed, so the budget is not used up
    obtain ⟨rest, rfl⟩ : ∃ rest, budget = rest + 1 := ⟨budget - 1, by omega⟩
    rw [acceptsAbsentUnguarded, ending_bind]
    rcases hfetch : Store.fetch? r.cell store with ⟨_ | target, later⟩
    · rw [acceptsAbsentWithin_dangling hf hfetch]
      rfl
    · rw [hfetch] at htarget hlater
      have hrest : maxHops ≤ rest + (r.cell :: entered).length := by
        rw [List.length_cons]
        omega
      rw [acceptsAbsentWithin_followed hf hfetch]
      exact ih target (h.target htarget.symm) rest hrest later hlater
  blocked entered r hf h := absurd (hg.mayFollow h) hf
  value entered schema hvalue _ budget _ store _ := by
    rw [acceptsAbsentWithin_of_needsValue hvalue, acceptsAbsentUnguarded_of_needsValue hvalue]
    rfl
  anyDone entered _ budget _ store _ := by
    rw [anyAcceptsAbsent, anyAcceptsAbsentUnguarded]
    rfl
  anyMore entered member rest ihm ihr h budget hb := by
    obtain ⟨hm, hrest⟩ := List.forall_mem_cons.mp h
    rw [anyAcceptsAbsent, anyAcceptsAbsentUnguarded]
    exact (ihm hm budget hb).cond (acceptsAbsentWithin_target? entered member)
      (fun store _ => rfl) (ihr hrest budget hb)
  allDone entered _ budget _ store _ := by
    rw [allAcceptAbsent, allAcceptAbsentUnguarded]
    rfl
  allMore entered member rest ihm ihr h budget hb := by
    obtain ⟨hm, hrest⟩ := List.forall_mem_cons.mp h
    rw [allAcceptAbsent, allAcceptAbsentUnguarded]
    exact (ihm hm budget hb).cond (acceptsAbsentWithin_target? entered member)
      (ihr hrest budget hb) fun store _ => rfl

/-- In a contractive graph absence is accepted as if every reference were followed, with a
budget for as many references as may be followed at one node. -/
theorem Contractive.agrees_acceptsAbsent {targets : Targets} {root : Schema}
    (hg : Contractive targets root) (entered : List CellId) (schema : Schema)
    (h : OnNode targets root entered schema) (budget : Nat)
    (hb : maxHops ≤ budget + entered.length) :
    Agrees targets (schema.acceptsAbsentUnguarded budget) (acceptsAbsentWithin entered schema) :=
  hg.agreeing_inductive.holds entered schema h budget hb

end Schema

open Schema (Reaches OnNode Contractive)

/-- In every function of a check the recursion without a guard gives the same result and the
same session, if the schema is met at the node after the references that are being followed.
The budget has to allow for the references that may still be followed at this node, and for
as many as the bound at each level below it. -/
def invisible (targets : Targets) (root : Schema) : Walk where
  ofSchema rules schema value here := ∀ (budget : Nat) (session : Session),
    maxHops * (value.nesting + 1) ≤ budget + here.entered.length →
    session.store.target? = targets → OnNode targets root here.entered schema →
    checkUnguarded rules budget schema value here.path session =
      some (check rules schema value here session)
  ofChild rules child here := ∀ (budget : Nat) (session : Session),
    maxHops * (child.nesting + 1) ≤ budget → session.store.target? = targets →
    Reaches targets root child.schema →
    checkChildUnguarded rules budget child here.path session =
      some (checkChild rules child here session)
  ofChildren rules children here := ∀ (budget : Nat) (session : Session),
    (∀ child ∈ children, maxHops * (child.nesting + 1) ≤ budget) →
    session.store.target? = targets → (∀ child ∈ children, Reaches targets root child.schema) →
    checkChildrenUnguarded rules budget children here.path session =
      some (checkChildren rules children here session)
  ofMembers rules index members value here := ∀ (budget : Nat) (session : Session),
    maxHops * (value.nesting + 1) ≤ budget + here.entered.length →
    session.store.target? = targets →
    (∀ member ∈ members, OnNode targets root here.entered member) →
    checkMembersUnguarded rules budget index members value here.path session =
      some (checkMembers rules index members value here session)
  ofEvery rules index members merged value here := ∀ (budget : Nat) (session : Session),
    maxHops * (value.nesting + 1) ≤ budget + here.entered.length →
    session.store.target? = targets →
    (∀ member ∈ members, OnNode targets root here.entered member) →
    checkEveryUnguarded rules budget index members merged value here.path session =
      some (checkEvery rules index members merged value here session)

theorem invisible_inductive {targets : Targets} {root : Schema}
    (hg : Contractive targets root) : (invisible targets root).Inductive where
  leaf rules leaf value here budget session hb hs h := by
    rw [checkUnguarded, check]
    rfl
  null rules inner value here hnull budget session hb hs h := by
    rw [checkUnguarded, if_pos hnull, check_nullable_null rules value here session inner hnull]
    rfl
  nullable rules inner value here hnull ih budget session hb hs h := by
    rw [checkUnguarded, if_neg hnull, check_nullable rules value here session inner hnull]
    exact ih budget session hb hs (h.part rfl (List.mem_singleton_self _))
  union rules members value here ih budget session hb hs h := by
    have hmembers := ih budget session hb hs fun member hm => h.part rfl hm
    rw [checkUnguarded, check_union, bind_of_ends hmembers]
    rcases checkMembers rules.failFast 0 members value here session with ⟨_ | _, later⟩ <;> rfl
  intersection rules members value here ih budget session hb hs h := by
    rw [checkUnguarded, check_intersection]
    exact ih budget session hb hs fun member hm => h.part rfl hm
  followed rules r value here hf ih budget session hb hs h := by
    obtain ⟨later, hfetch, ht⟩ := Session.onStore_fetch? session r.cell
    -- the reference may be followed, so the budget is not used up
    have hhops : here.entered.length < maxHops := hf.1
    have hlevels : maxHops ≤ maxHops * (value.nesting + 1) :=
      Nat.le_mul_of_pos_right _ (Nat.succ_pos _)
    obtain ⟨rest, rfl⟩ : ∃ rest, budget = rest + 1 := ⟨budget - 1, by omega⟩
    have hrest : maxHops * (value.nesting + 1) ≤ rest + (here.enter r.cell).entered.length := by
      rw [Position.enter, List.length_cons]
      omega
    rw [check_reference rules value here session hf, checkUnguarded, ending_bind, hfetch]
    cases htarget : session.store.target? r.cell with
    | none => rfl
    | some target =>
      rw [hs] at htarget
      exact ih target rest later hrest (ht.trans hs) (h.target htarget)
  blocked rules r value here hf budget session hb hs h := absurd (hg.mayFollow h) hf
  plain rules schema value here hstructural hview budget session hb hs h := by
    rw [checkUnguarded_structural rules budget value here.path hstructural, hview,
      check_plain rules value here session hstructural hview]
    rfl
  mismatch rules schema value here expected hview budget session hb hs h := by
    have hstructural : schema.isStructural := View.isStructural_of_ne_plain (by rw [hview]; simp)
    rw [checkUnguarded_structural rules budget value here.path hstructural, hview,
      check_mismatch rules value here session hview]
    rfl
  deep rules schema value here children assemble hc hd budget session hb hs h := by
    obtain ⟨_, hview⟩ := View.of_container hc
    have hstructural : schema.isStructural := View.isStructural_of_ne_plain (by rw [hview]; simp)
    rw [checkUnguarded_structural rules budget value here.path hstructural, hview, check_deep hc hd]
    simp only [hd, if_true]
    rfl
  container rules schema value here children assemble hc hd ih budget session hb hs h := by
    obtain ⟨_, hview⟩ := View.of_container hc
    have hstructural : schema.isStructural := View.isStructural_of_ne_plain (by rw [hview]; simp)
    -- what the levels below need is left of the budget at this level
    have hbelow : ∀ child ∈ children, maxHops * (child.nesting + 1) ≤ budget := by
      intro child hm
      have hlevels : maxHops * (child.nesting + 1) ≤ maxHops * value.nesting :=
        Nat.mul_le_mul_left maxHops (hc.nesting_lt hm)
      have hentered := hg.length_le h
      rw [Nat.mul_succ] at hb
      omega
    have hchildren := ih budget session hbelow hs fun child hm => h.reaches.child hc hm
    rw [checkUnguarded_structural rules budget value here.path hstructural, hview,
      check_container hc hd]
    simp only [hd, if_false]
    rw [bind_of_ends hchildren]
    rcases checkChildren rules children here session with ⟨_ | _, later⟩ <;> rfl
  present rules segment schema value here ih budget session hb hs h := by
    have hrun : checkUnguarded rules budget schema value (here.path ++ [segment]) session =
        some (check rules schema value (here.child segment) session) :=
      ih budget session (Nat.le_add_right_of_le hb) hs h.onNode
    rw [checkChildUnguarded, checkChild_present, bind_of_ends hrun]
    rcases check rules schema value (here.child segment) session with ⟨_ | _, later⟩ <;> rfl
  absent rules name schema here budget session hb hs h := by
    have hhops : maxHops ≤ budget + ([] : List CellId).length := by
      simpa [Child.nesting] using hb
    have habsent := hg.agrees_acceptsAbsent [] schema h.onNode budget hhops session.store hs
    have hrun : Session.onStoreUnguarded (schema.acceptsAbsentUnguarded budget) session =
        some (Session.onStore schema.acceptsAbsent session) := by
      rw [Session.onStoreUnguarded, habsent]
      rfl
    rw [checkChildUnguarded, checkChild_absent, bind_of_ends hrun]
    rcases Session.onStore schema.acceptsAbsent session with ⟨_ | _, later⟩ <;> rfl
  noChildren rules here budget session hb hs h := by
    rw [checkChildrenUnguarded, checkChildren_nil]
    rfl
  moreChildren rules child rest here ihc ihr budget session hb hs h := by
    obtain ⟨hbchild, hbrest⟩ := List.forall_mem_cons.mp hb
    obtain ⟨hchild, hrest⟩ := List.forall_mem_cons.mp h
    have hkeep := checkChild_target? rules child here session
    rw [checkChildrenUnguarded, checkChildren_cons,
      bind_of_ends (ihc budget session hbchild hs hchild)]
    rcases hc : checkChild rules child here session with ⟨report | output, later⟩ <;>
      rw [hc] at hkeep <;> have hothers := ihr budget later hbrest (hkeep.trans hs) hrest <;>
      dsimp only
    · split
      · rw [bind_of_ends hothers]
        rcases checkChildren rules rest here later with ⟨_ | _, last⟩ <;> rfl
      · rfl
    · rw [bind_of_ends hothers]
      rcases checkChildren rules rest here later with ⟨_ | _, last⟩ <;> rfl
  noMembers rules index value here budget session hb hs h := by
    rw [checkMembersUnguarded, checkMembers_nil]
    rfl
  moreMembers rules index member rest value here ihm ihr budget session hb hs h := by
    obtain ⟨hmember, hrest⟩ := List.forall_mem_cons.mp h
    obtain ⟨_, hkeep⟩ := check_gives rules member value here session
    rw [checkMembersUnguarded, checkMembers_cons,
      bind_of_ends (ihm budget session hb hs hmember)]
    rcases hc : check rules member value here session with ⟨report | output, later⟩ <;>
      rw [hc] at hkeep
    · have hothers := ihr budget (Session.record (.memberRejected index report.head) later).2 hb
        (hkeep.trans hs) hrest
      dsimp only
      rw [ending_bind, bind_of_ends hothers]
      rcases checkMembers rules (index + 1) rest value here
        (Session.record (.memberRejected index report.head) later).2 with ⟨_ | _, last⟩ <;> rfl
    · rfl
  everyDone rules index merged value here budget session hb hs h := by
    rw [checkEveryUnguarded, checkEvery_nil]
    rfl
  everyMore rules index member rest merged value here ihm ihr budget session hb hs h := by
    obtain ⟨hmember, hrest⟩ := List.forall_mem_cons.mp h
    obtain ⟨_, hkeep⟩ := check_gives rules member value here session
    rw [checkEveryUnguarded, checkEvery_cons, bind_of_ends (ihm budget session hb hs hmember)]
    rcases hc : check rules member value here session with ⟨causes | output, later⟩ <;>
      rw [hc] at hkeep
    · rfl
    · dsimp only
      cases mergeInto merged output with
      | error way => rfl
      | ok both => exact ihr both budget later hb (hkeep.trans hs) hrest

/-- A check meets a schema at a node after the references that it is following there. -/
theorem Visits.onNode {targets : Targets} {start place : Place} {root : Schema}
    (h : Visits targets start place)
    (hstart : OnNode targets root start.here.entered start.schema) :
    OnNode targets root place.here.entered place.schema := by
  induction h with
  | start => exact hstart
  | inner _ _ ih => exact ih.part rfl (List.mem_singleton_self _)
  | tried _ hm ih | every _ hm ih => exact ih.part rfl hm
  | target _ _ ht ih => exact ih.target ht
  | child _ hc _ hm ih => exact (ih.reaches.child hc hm).onNode

/-- On a contractive graph a cycle is raised by the policy only. -/
theorem Raised.cyclicReference {targets : Targets} {start place : Place} {root : Schema}
    {inner : Rejection} (hr : Raised targets place inner) (hg : Contractive targets root)
    (hv : Visits targets start place) (hnode : OnNode targets root place.here.entered place.schema)
    (hc : inner.cause = .cyclicReference) : RaisedByPolicy targets start inner := by
  cases hr with
  | refused h hcarries => exact hv.raisedByPolicy h hcarries
  | blocked he => exact absurd (hg.mayFollow hnode) he
  | _ => cases hc

/-- The recursion without a guard ends with a result and a session, from the root of a
value and with some budget. -/
def EndsUnguarded (rules : Rules) (schema : Schema) (value : Json) (session : Session)
    (run : Outcome × Session) : Prop :=
  ∃ budget, checkUnguarded rules budget schema value [] session = some run

/-- The recursion without a guard ends in one way only. -/
theorem EndsUnguarded.unique {rules : Rules} {schema : Schema} {value : Json} {session : Session}
    {run other : Outcome × Session} (h : EndsUnguarded rules schema value session run)
    (ho : EndsUnguarded rules schema value session other) : run = other := by
  obtain ⟨budget, hrun⟩ := h
  obtain ⟨more, hother⟩ := ho
  rcases Nat.le_total budget more with hle | hle
  · have hmore := checkUnguarded_refines rules budget schema value [] more hle session run hrun
    exact Option.some.inj (hmore.symm.trans hother)
  · have hbudget := checkUnguarded_refines rules more schema value [] budget hle session other
      hother
    exact Option.some.inj (hrun.symm.trans hbudget)

/-- On a contractive graph the recursion without a guard ends, and ends with exactly what a
check gives, in the same session, under every policy. No cycle is reported, not even inside
other rejections, except one that the policy itself raised for a leaf that the check came to;
no built-in policy does. -/
theorem contractive_guard_invisible (rules : Rules) (schema : Schema) (value : Json)
    (session : Session) (h : schema.Contractive session.store.target?) :
    (∀ run, EndsUnguarded rules schema value session run ↔
      run = check rules schema value .root session) ∧
    ∀ report, (check rules schema value .root session).1 = .error report →
      ∀ r ∈ report.toList, ∀ inner, r.Carries inner →
        (inner.cause = .cyclicReference →
          RaisedByPolicy session.store.target? ⟨rules, schema, value, .root⟩ inner) ∧
        ∀ kind : PolicyKind, rules.policy = kind.policy → inner.cause ≠ .cyclicReference := by
  have hroot : OnNode session.store.target? schema [] schema := Reaches.root.onNode
  have hends : EndsUnguarded rules schema value session (check rules schema value .root session) :=
    ⟨maxHops * (value.nesting + 1), (invisible_inductive h).holds rules schema value .root _
      session (Nat.le_refl _) rfl hroot⟩
  refine ⟨fun run => ⟨fun hrun => hrun.unique hends, fun hrun => hrun ▸ hends⟩, ?_⟩
  intro report hreport r hr inner hi
  obtain ⟨place, hv, hraised⟩ :=
    check_found rules schema value .root session report hreport r hr inner hi
  have hpolicy := hraised.cyclicReference h hv (hv.onNode hroot)
  refine ⟨hpolicy, fun kind hk hcyclic => ?_⟩
  obtain ⟨_, leaf, refused, here, _, hraises⟩ := hpolicy hcyclic
  change rules.policy.Raises leaf refused here.path inner at hraises
  rw [hk] at hraises
  have hrefusal := kind.refusal_of_raises hraises
  rw [hcyclic] at hrefusal
  cases hrefusal

/-- A node that meets its own definition twice, once as a member of a union. -/
def twiceChain : Schema :=
  .intersection [.reference ⟨0, .owner⟩, .union [.leaf .string, .reference ⟨0, .owner⟩]]

/-- The two members that lead to one cell are no cycle, nor is the node within the node:
the recursion without a guard ends, and accepts. -/
theorem twiceChain_unguarded :
    ∃ later, EndsUnguarded ⟨.strict, .collectAll, 2⟩ twiceChain
      (.object [("v", .number (.int 1 rfl)), ("next", .object [("v", .number (.int 2 rfl))])])
      chainSession (.ok (.object [("v", .number (.int 1 rfl)),
        ("next", .object [("v", .number (.int 2 rfl))])]), later) := by
  have htargets : ∀ cell schema, chainSession.store.target? cell = some schema →
      schema.isStructural := by
    intro cell schema h
    by_cases hc : cell = 0
    · subst hc
      cases h
      rfl
    · simp [chainSession, Store.target?, Store.setCell, hc, Store.empty] at h
  obtain ⟨hends, _⟩ := contractive_guard_invisible ⟨.strict, .collectAll, 2⟩ twiceChain
    (.object [("v", .number (.int 1 rfl)), ("next", .object [("v", .number (.int 2 rfl))])])
    chainSession (.of_structural _ htargets)
  refine ⟨_, (hends _).mpr (Prod.ext ?_ rfl)⟩
  exact (((check_gives _ _ _ _ _).ok_iff _).mpr (by cbv)).symm

end Conformance
