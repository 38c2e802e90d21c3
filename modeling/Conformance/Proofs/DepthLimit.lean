import Conformance.Proofs.Guard
import Conformance.Proofs.Merging

/-!
# The depth limit

The limit is compared with the length of the path, and only where a container is about to
be taken apart. So a value that nests no deeper than the limit never meets it, and its
check is the same as under any larger limit; what does meet it lies at a path of exactly
that length. At the limit no container is taken apart, so whatever object comes out there
is the value itself.
-/

namespace Conformance

/-- The same rules with another depth limit. -/
def Rules.upTo (rules : Rules) (limit : Nat) : Rules := { rules with maxDepth := limit }

/-- The same validator with another depth limit. -/
def Validator.upTo (validator : Validator) (limit : Nat) : Validator :=
  { validator with maxDepth := limit }

/-- In every function of a check a larger limit changes nothing for what nests within the
limit. -/
def withinLimit : Walk where
  ofSchema rules schema value here := ∀ limit, rules.maxDepth ≤ limit →
    value.nesting + here.path.length ≤ rules.maxDepth →
    check (rules.upTo limit) schema value here = check rules schema value here
  ofChild rules child here := ∀ limit, rules.maxDepth ≤ limit →
    child.nesting + here.path.length < rules.maxDepth →
    checkChild (rules.upTo limit) child here = checkChild rules child here
  ofChildren rules children here := ∀ limit, rules.maxDepth ≤ limit →
    Child.nestingAll children + here.path.length < rules.maxDepth →
    checkChildren (rules.upTo limit) children here = checkChildren rules children here
  ofMembers rules index members value here := ∀ limit, rules.maxDepth ≤ limit →
    value.nesting + here.path.length ≤ rules.maxDepth →
    checkMembers (rules.upTo limit) index members value here =
      checkMembers rules index members value here
  ofEvery rules index members merged value here := ∀ limit, rules.maxDepth ≤ limit →
    value.nesting + here.path.length ≤ rules.maxDepth →
    checkEvery (rules.upTo limit) index members merged value here =
      checkEvery rules index members merged value here

theorem withinLimit_inductive : withinLimit.Inductive where
  leaf rules leaf value here limit hl hn := by
    funext session
    rw [check_leaf, check_leaf]
    rfl
  null rules inner value here hnull limit hl hn := by
    funext session
    rw [check_nullable_null _ _ _ _ _ hnull, check_nullable_null _ _ _ _ _ hnull]
  nullable rules inner value here hnull ih limit hl hn := by
    funext session
    rw [check_nullable _ _ _ _ _ hnull, check_nullable _ _ _ _ _ hnull, ih limit hl hn]
  union rules members value here ih limit hl hn := by
    have hmembers : checkMembers (rules.upTo limit).failFast 0 members value here =
        checkMembers rules.failFast 0 members value here := ih limit hl hn
    funext session
    rw [check_union, check_union, hmembers]
  intersection rules members value here ih limit hl hn := by
    funext session
    rw [check_intersection, check_intersection, ih limit hl hn]
  followed rules r value here he ih limit hl hn := by
    funext session
    rw [check_reference _ _ _ _ he, check_reference _ _ _ _ he]
    rcases Session.onStore (Store.fetch? r.cell) session with ⟨_ | target, later⟩
    · rfl
    · exact congrFun (ih target limit hl hn) later
  blocked rules r value here he limit hl hn := by
    funext session
    rw [check_reference_blocked _ _ _ _ he, check_reference_blocked _ _ _ _ he]
  plain rules schema value here hs hview limit hl hn := by
    funext session
    rw [check_plain _ _ _ _ hs hview, check_plain _ _ _ _ hs hview]
  mismatch rules schema value here expected hview limit hl hn := by
    funext session
    rw [check_mismatch _ _ _ _ hview, check_mismatch _ _ _ _ hview]
  deep rules schema value here children assemble hc hd limit hl hn := by
    have hpos := hc.nesting_pos
    omega
  container rules schema value here children assemble hc hd ih limit hl hn := by
    obtain ⟨hsmaller, _⟩ := View.of_container hc
    have hd' : ¬(rules.upTo limit).maxDepth ≤ here.path.length := by
      change ¬limit ≤ here.path.length
      omega
    funext session
    rw [check_container hc hd', check_container hc hd, ih limit hl (by omega)]
  present rules segment schema value here ih limit hl hn := by
    have hlength := here.length_child segment
    rw [Child.nesting] at hn
    funext session
    rw [checkChild_present, checkChild_present, ih limit hl (by omega)]
  absent rules name schema here limit hl hn := by
    funext session
    rw [checkChild_absent, checkChild_absent]
  noChildren rules here limit hl hn := by
    funext session
    rw [checkChildren_nil, checkChildren_nil]
  moreChildren rules child rest here ihc ihr limit hl hn := by
    rw [Child.nestingAll] at hn
    have hmode : (rules.upTo limit).mode = rules.mode := rfl
    funext session
    rw [checkChildren_cons, checkChildren_cons, ihc limit hl (by omega), ihr limit hl (by omega),
      hmode]
  noMembers rules index value here limit hl hn := by
    funext session
    rw [checkMembers_nil, checkMembers_nil]
  moreMembers rules index member rest value here ihm ihr limit hl hn := by
    funext session
    rw [checkMembers_cons, checkMembers_cons, ihm limit hl hn, ihr limit hl hn]
  everyDone rules index merged value here limit hl hn := by
    funext session
    rw [checkEvery_nil, checkEvery_nil]
  everyMore rules index member rest merged value here ihm ihr limit hl hn := by
    have hrest : ∀ output, checkEvery (rules.upTo limit) (index + 1) rest (some output) value here =
        checkEvery rules (index + 1) rest (some output) value here :=
      fun output => ihr output limit hl hn
    funext session
    rw [checkEvery_cons, checkEvery_cons, ihm limit hl hn]
    simp only [hrest]

/-- A value that nests within the limit is validated as under every larger limit, events
and later cells included. -/
theorem Validator.validate_upTo (validator : Validator) {value : Json} {limit : Nat}
    (hn : value.nesting ≤ validator.maxDepth) (hl : validator.maxDepth ≤ limit) :
    (validator.upTo limit).validate value = validator.validate value := by
  have hcheck : check (validator.upTo limit).toRules (validator.upTo limit).schema value .root =
      check validator.toRules validator.schema value .root :=
    withinLimit_inductive.holds validator.toRules validator.schema value .root limit hl hn
  funext session
  rw [Validator.validate_eq, Validator.validate_eq, hcheck]
  rfl

/-- Entries that an object has already change nothing when they are merged into it. -/
theorem mergeEntries_of_contained {merged addition : List (String × Json)}
    (h : ∀ entry ∈ addition, ∃ x, Entries.lookup entry.1 merged = some x ∧ x.Same entry.2) :
    mergeEntries merged addition = .ok merged := by
  induction addition with
  | nil => rfl
  | cons entry rest ih =>
    obtain ⟨hfirst, hrest⟩ := List.forall_mem_cons.mp h
    obtain ⟨x, hx, hsame⟩ := hfirst
    rw [mergeEntries, hx]
    dsimp only
    rw [if_pos hsame]
    exact ih hrest

/-- A value is merged with itself into itself. -/
theorem mergeOutputs_self {value : Json} (hd : value.DistinctKeys) :
    mergeOutputs value value = .ok value := by
  by_cases hobject : ∃ entries, value = .object entries
  · obtain ⟨entries, rfl⟩ := hobject
    have hcontained : mergeEntries entries entries = .ok entries := by
      refine mergeEntries_of_contained fun entry he => ⟨entry.2, ?_, ?_⟩
      · exact Entries.lookup_of_mem hd.keys he
      · exact .refl (hd.entry he)
    rw [mergeOutputs, hcontained]
  · have hne : ∀ entries, value ≠ .object entries := fun entries heq => hobject ⟨entries, heq⟩
    exact mergeOutputs_of_same hne (.refl hd)

/-- Outputs that cannot be merged differ outright, or they are two objects that differ under
a key. -/
theorem mergeOutputs_error {previous next : Json} {way : Path}
    (h : mergeOutputs previous next = .error way) :
    way = [] ∨ way.length = 1 ∧ ∃ merged addition, previous = .object merged ∧
      next = .object addition := by
  unfold mergeOutputs at h
  split at h
  · next merged addition =>
    split at h
    · cases h
    · cases h
      exact .inr ⟨rfl, merged, addition, rfl, rfl⟩
  · split at h
    · cases h
    · cases h
      exact .inl rfl

/-- What is said of an accepted value: at the depth limit an object comes out only as the
value itself. -/
def whole (grounds : Grounds) : Grounds.Motive := fun _ value depth _ output =>
  grounds.maxDepth ≤ depth → value.DistinctKeys →
    ∀ entries, output = .object entries → output = value

theorem whole_inductive {grounds : Grounds} (hflat : grounds.policy.Flat) :
    grounds.Inductive (whole grounds) where
  leaf leaf value depth entered output h _ _ entries heq := by
    have hscalar := (hflat leaf value output h).2
    rw [heq] at hscalar
    cases hscalar
  null inner depth entered _ _ entries heq := by cases heq
  nullable inner value depth entered output _ _ ih := ih
  union before member after value depth entered output _ _ ih := ih
  intersection members outputs all value depth entered hrow hall hd hkeys entries heq := by
    cases all with
    | none => rfl
    | some m =>
      have hout : ∀ w ∈ outputs, ∀ entries, w = .object entries → w = value := by
        intro w hw
        obtain ⟨_, _, _, hwhole⟩ := exists_of_forall₂_of_mem hrow.flip hw
        exact hwhole hd hkeys
      refine mergeAll_forall (P := fun w => ∀ entries, w = .object entries → w = value)
        (fun a b m ha hb hm entries heq => ?_) (fun a ha => by cases ha) hout hall m rfl entries heq
      rcases mergeOutputs_cases hm with ⟨merged, addition, _, rfl, rfl, _, _⟩ | ⟨hne, _, rfl⟩
      · -- both are the value, which is merged with itself
        rw [ha merged rfl, hb addition rfl, mergeOutputs_self hkeys] at hm
        exact (Except.ok.inj hm).symm
      · exact absurd heq (hne entries)
  reference r target value depth entered output _ _ _ ih := ih
  any value depth entered _ _ entries _ := rfl
  scalar value depth entered _ _ _ entries _ := rfl
  container schema value depth entered children assemble outputs _ hdepth _ hd := by omega

/-- An outcome carries a rejection: it is a report with one that carries it. -/
def Outcome.Carries (outcome : Outcome) (inner : Rejection) : Prop :=
  ∃ report, outcome = .error report ∧ ∃ rejection ∈ report.toList, rejection.Carries inner

section Raised

variable {targets : Targets} {start place : Place} {inner : Rejection}

/-- Where a container lies too deep, the path is as long as the limit, and the value at the
start nests deeper; else the policy has said so itself. -/
theorem Raised.depthExceeded {limit : Nat} (hr : Raised targets place inner)
    (hv : Visits targets start place) (hc : inner.cause = .depthExceeded limit)
    (hstart : start.here.path.length ≤ start.rules.maxDepth) :
    RaisedByPolicy targets start inner ∨
      limit = start.rules.maxDepth ∧ inner.path.length = start.rules.maxDepth ∧
        start.rules.maxDepth < start.value.nesting + start.here.path.length := by
  have hlimit := hv.maxDepth
  have hlength := hv.length_le hstart
  have hnesting := hv.nesting_le
  cases hr with
  | refused h hcarries => exact .inl (hv.raisedByPolicy h hcarries)
  | deep hcontainer hd =>
    have hpos := hcontainer.nesting_pos
    cases hc
    dsimp only at hlimit hlength hnesting hd ⊢
    refine .inr ⟨hlimit, ?_, ?_⟩ <;> omega
  | _ => cases hc

/-- Under a built-in policy no path leads beyond the depth limit. -/
theorem Raised.length_le (hr : Raised targets place inner) (hv : Visits targets start place)
    {kind : PolicyKind} (hkind : start.rules.policy = kind.policy)
    (hkeys : start.value.DistinctKeys)
    (hstart : start.here.path.length ≤ start.rules.maxDepth) :
    inner.path.length ≤ start.rules.maxDepth := by
  have hpolicy := hv.policy
  have hlimit := hv.maxDepth
  have hlength := hv.length_le hstart
  cases hr with
  | refused h hcarries =>
    rw [hpolicy, hkind] at h
    rw [(PolicyKind.refusal h).carries hcarries]
    exact hlength
  | missing _ hd =>
    rw [List.length_append, List.length_singleton, ← hlimit]
    exact hd
  | @conflict rules before _ member value here outputs previous output way hrow hall haccept
      hmerge =>
    rw [List.length_append]
    dsimp only at hlimit hlength hpolicy
    rcases mergeOutputs_error hmerge with rfl | ⟨hone, merged, addition, hprevious, hnext⟩
    · exact hlength
    · by_cases hd : here.path.length < rules.maxDepth
      · omega
      · -- at the limit both outputs are the value itself, and so they can be merged
        have hflat : (Grounds.mk rules.policy rules.maxDepth targets).policy.Flat := by
          change rules.policy.Flat
          rw [hpolicy, hkind]
          exact kind.policy_flat
        have hvalue : value.DistinctKeys := hv.distinctKeys hkeys
        have hwhole := (whole_inductive hflat).holds
        have hearlier : Grounds.accept ⟨rules.policy, rules.maxDepth, targets⟩
            (.intersection before) value here.path.length here.entered = some previous := by
          rw [Grounds.accept, Grounds.acceptEvery_eq_some]
          exact ⟨outputs, some previous, hrow, hall, rfl⟩
        have hdeep : rules.maxDepth ≤ here.path.length := by omega
        have hfirst := hwhole _ value _ _ previous hearlier hdeep hvalue merged hprevious
        have hsecond := hwhole _ value _ _ output haccept hdeep hvalue addition hnext
        rw [hfirst, hsecond, mergeOutputs_self hvalue] at hmerge
        cases hmerge
  | _ => exact hlength

end Raised

/-- Whatever an outcome carries was raised where the check from the root came to. -/
theorem Validator.raised (validator : Validator) {value : Json} {session : Session}
    {inner : Rejection} (h : Outcome.Carries (validator.validate value session).1 inner) :
    ∃ place,
      Visits session.store.target? ⟨validator.toRules, validator.schema, value, .root⟩ place ∧
        Raised session.store.target? place inner := by
  obtain ⟨report, hreport, rejection, hrejection, hcarries⟩ := h
  rw [Validator.validate_fst] at hreport
  exact check_found validator.toRules validator.schema value .root session report hreport rejection
    hrejection inner hcarries

/-- The depth limit is exact and otherwise invisible. A value that nests within it is
validated as under every larger limit. Whatever says that the value nests too deeply, among
the rejections and all that they carry, was said by the policy itself of a leaf that the check
came to, or the value does nest deeper than the limit, and it names the limit at a path of just
this length. Built-in policies say no such thing of any leaf, and under them no path is longer
than the limit. -/
theorem depthLimit_exact (validator : Validator) (value : Json) (session : Session) :
    (value.nesting ≤ validator.maxDepth → ∀ limit, validator.maxDepth ≤ limit →
      (validator.upTo limit).validate value session = validator.validate value session) ∧
    (∀ inner limit, Outcome.Carries (validator.validate value session).1 inner →
      inner.cause = .depthExceeded limit → ¬RaisedByPolicy session.store.target?
        ⟨validator.toRules, validator.schema, value, .root⟩ inner →
      validator.maxDepth < value.nesting ∧ limit = validator.maxDepth ∧
        inner.path.length = validator.maxDepth) ∧
    (∀ kind : PolicyKind, validator.policy = kind.policy →
      (∀ leaf value path inner, validator.policy.Raises leaf value path inner →
        ∀ limit, inner.cause ≠ .depthExceeded limit) ∧
      (value.DistinctKeys → ∀ inner, Outcome.Carries (validator.validate value session).1 inner →
        inner.path.length ≤ validator.maxDepth)) := by
  refine ⟨?_, ?_, ?_⟩
  · intro hn limit hl
    rw [validator.validate_upTo hn hl]
  · intro inner limit hcarries hcause hown
    obtain ⟨place, hv, hr⟩ := validator.raised hcarries
    rcases hr.depthExceeded hv hcause (Nat.zero_le _) with hraises | ⟨hlimit, hlength, hdeep⟩
    · exact absurd hraises hown
    · exact ⟨hdeep, hlimit, hlength⟩
  · intro kind hkind
    constructor
    · intro leaf value path inner hraises limit hcause
      rw [hkind] at hraises
      have hrefusal := kind.refusal_of_raises hraises
      rw [hcause] at hrefusal
      cases hrefusal
    · intro hkeys inner hcarries
      obtain ⟨place, hv, hr⟩ := validator.raised hcarries
      exact hr.length_le hv hkind hkeys (Nat.zero_le _)

/-- A text, or a table: a list of lists of numbers. -/
def textOrTable : Schema := .union [.list (.list (.leaf .number)), .leaf .string]

/-- A table nests twice: under the limit two it is validated as under any larger one, and
under the limit one the attempt for tables stops at its first row. -/
theorem textOrTable_limits :
    (∀ limit, 2 ≤ limit →
      ((Validator.ofSettings textOrTable ⟨.strict, .collectAll, 2⟩).upTo limit).validate
          (.array [.array [.number (.int 1 rfl)]]) ⟨.empty, #[]⟩ =
        (Validator.ofSettings textOrTable ⟨.strict, .collectAll, 2⟩).validate
          (.array [.array [.number (.int 1 rfl)]]) ⟨.empty, #[]⟩) ∧
    Outcome.Carries ((Validator.ofSettings textOrTable ⟨.strict, .collectAll, 1⟩).validate
        (.array [.array [.number (.int 1 rfl)]]) ⟨.empty, #[]⟩).1
      ⟨[.index 0], .depthExceeded 1⟩ ∧
    1 < (Json.array [.array [.number (.int 1 rfl)]]).nesting := by
  have hreport : ((Validator.ofSettings textOrTable ⟨.strict, .collectAll, 1⟩).validate
      (.array [.array [.number (.int 1 rfl)]]) ⟨.empty, #[]⟩).1 =
      .error (.singleton ⟨[], .noMemberMatched "List<List<Number>> | String"
        [⟨[.index 0], .depthExceeded 1⟩, ⟨[], .typeMismatch "string" "list"⟩]⟩) := by
    rw [Validator.validate_fst, Validator.ofSettings, textOrTable]
    simp [check_union, checkMembers_cons, checkMembers_nil, check_list, checkChildren_cons,
      checkChildren_nil, checkChild_present, check_leaf, Child.ofItems]
    rfl
  have hcarries : Outcome.Carries ((Validator.ofSettings textOrTable
      ⟨.strict, .collectAll, 1⟩).validate (.array [.array [.number (.int 1 rfl)]]) ⟨.empty, #[]⟩).1
      ⟨[.index 0], .depthExceeded 1⟩ :=
    ⟨_, hreport, _, List.mem_cons_self, .attempt List.mem_cons_self (.self _)⟩
  obtain ⟨hinvisible, _⟩ := depthLimit_exact (Validator.ofSettings textOrTable
    ⟨.strict, .collectAll, 2⟩) (.array [.array [.number (.int 1 rfl)]]) ⟨.empty, #[]⟩
  obtain ⟨_, hexact, hkind⟩ := depthLimit_exact (Validator.ofSettings textOrTable
    ⟨.strict, .collectAll, 1⟩) (.array [.array [.number (.int 1 rfl)]]) ⟨.empty, #[]⟩
  obtain ⟨hown, _⟩ := hkind .strict rfl
  have hnot : ¬RaisedByPolicy Store.empty.target? ⟨(Validator.ofSettings textOrTable
      ⟨.strict, .collectAll, 1⟩).toRules, textOrTable, .array [.array [.number (.int 1 rfl)]],
      .root⟩ ⟨[.index 0], .depthExceeded 1⟩ := by
    rintro ⟨_, leaf, value, here, _, hraises⟩
    exact hown leaf value here.path _ hraises 1 rfl
  obtain ⟨hdeep, _, _⟩ := hexact ⟨[.index 0], .depthExceeded 1⟩ 1 hcarries rfl hnot
  exact ⟨hinvisible (by cbv), hcarries, hdeep⟩

end Conformance
