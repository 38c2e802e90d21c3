import Conformance.Proofs.Conforms
import Conformance.Proofs.Pruning
import Conformance.Proofs.Truthful

/-!
# What coercion can cost

A leaf that the strict policy accepts is accepted by the policy that reads text, too, but
not always with the same output: an integral double becomes an integer. So the members of
an intersection may agree under the first policy and disagree under the second. This is
the only way in which a value is lost: every rejection of a value that the strict policy
accepts carries such a clash.
-/

namespace Conformance

namespace Policy

/-- What the strict policy accepts at a leaf, the other policy accepts. -/
theorem nonStrict_accepts_of_strict (leaf : Leaf) {value output : Json}
    (h : strict.check leaf value = .ok output) :
    ∃ lenient, nonStrict.check leaf value = .ok lenient := by
  cases leaf with
  | number | float | int =>
    cases value with
    | number => exact ⟨_, rfl⟩
    | _ => cases h
  | boolean =>
    cases value with
    | bool => exact ⟨_, rfl⟩
    | _ => cases h
  | string | id | literal => exact ⟨output, h⟩

end Policy

/-- Two outputs cannot be merged: objects with different data under one key, which is then
the way to them, or different data outright. -/
inductive Json.Disagrees : Json → Json → Path → Prop
  /-- Objects differ under a key. -/
  | key {previous next : List (String × Json)} {key : String} {a b : Json}
    (hp : (key, a) ∈ previous) (hn : (key, b) ∈ next) (h : a.sameData b = false) :
    Disagrees (.object previous) (.object next) [.key key]
  /-- The outputs differ, and are not both objects. -/
  | whole {previous next : Json} (h : previous.sameData next = false)
    (hk : ∀ merged addition, previous = .object merged → next = .object addition → False) :
    Disagrees previous next []

/-- What is merged so far is drawn from outputs with a property: it is one of them, or an
object whose entries lie in objects among them. -/
inductive Json.Drawn (P : Json → Prop) : Json → Prop
  /-- One of the outputs. -/
  | one {output : Json} (h : P output) : Drawn P output
  /-- An object with entries of several of the outputs. -/
  | object {entries known : List (String × Json)} (hknown : P (.object known))
    (h : ∀ entry ∈ entries, ∃ kept, P (.object kept) ∧ entry ∈ kept) : Drawn P (.object entries)

namespace Json.Drawn

variable {P : Json → Prop}

/-- An object that is drawn from outputs has its entries from objects among them. -/
theorem entries {entries : List (String × Json)} (h : Drawn P (.object entries)) :
    (∃ kept, P (.object kept)) ∧ ∀ entry ∈ entries, ∃ kept, P (.object kept) ∧ entry ∈ kept := by
  cases h with
  | one h => exact ⟨⟨entries, h⟩, fun entry he => ⟨entries, h, he⟩⟩
  | object hknown h => exact ⟨⟨_, hknown⟩, h⟩

/-- What is drawn from some outputs is drawn from more of them. -/
theorem mono {Q : Json → Prop} {merged : Json} (h : Drawn P merged) (hpq : ∀ w, P w → Q w) :
    Drawn Q merged := by
  cases h with
  | one h => exact .one (hpq _ h)
  | object hknown h =>
    refine .object (hpq _ hknown) fun entry he => ?_
    obtain ⟨kept, hkept, hmem⟩ := h entry he
    exact ⟨kept, hpq _ hkept, hmem⟩

/-- What is merged from outputs is drawn from them. -/
theorem merge {previous next output : Json} (hp : Drawn P previous) (hn : P next)
    (h : mergeOutputs previous next = .ok output) : Drawn P output := by
  rcases mergeOutputs_cases h with ⟨merged, addition, result, rfl, rfl, rfl, hm⟩ | ⟨_, _, rfl⟩
  · refine .object hn fun entry he => ?_
    rcases mem_of_mergeEntries hm he with he | he
    · exact hp.entries.2 entry he
    · exact ⟨addition, hn, he⟩
  · exact hp

end Json.Drawn

/-- The key at which a row cannot be merged has different data in both rows. -/
theorem exists_of_mergeEntries_error {merged addition : List (String × Json)} {key : String}
    (hnodup : (addition.map Prod.fst).Nodup) (h : mergeEntries merged addition = .error key) :
    ∃ a b, (key, a) ∈ merged ∧ (key, b) ∈ addition ∧ a.sameData b = false := by
  induction addition generalizing merged with
  | nil => cases h
  | cons entry rest ih =>
    obtain ⟨name, value⟩ := entry
    obtain ⟨hname, hrest⟩ := List.nodup_cons.mp hnodup
    rw [mergeEntries] at h
    split at h
    · next existing hl =>
      split at h
      · obtain ⟨a, b, ha, hb, hab⟩ := ih hrest h
        exact ⟨a, b, ha, List.mem_cons_of_mem _ hb, hab⟩
      · next hne =>
        cases h
        exact ⟨existing, value, Entries.mem_of_lookup hl, List.mem_cons_self, by simpa using hne⟩
    · obtain ⟨a, b, ha, hb, hab⟩ := ih hrest h
      rcases List.mem_append.mp ha with ha | ha
      · exact ⟨a, b, ha, List.mem_cons_of_mem _ hb, hab⟩
      · -- An entry that was just added cannot differ from a later one of its name.
        cases List.mem_singleton.mp ha
        exact absurd (List.mem_map_of_mem hb) hname

/-- An output that cannot be merged disagrees with one of those that were merged before. -/
theorem Json.Drawn.exists_disagrees {P : Json → Prop} {previous next : Json} {way : Path}
    (hp : Drawn P previous) (hd : next.DistinctKeys) (h : mergeOutputs previous next = .error way) :
    ∃ earlier, P earlier ∧ earlier.Disagrees next way := by
  unfold mergeOutputs at h
  split at h
  · split at h
    · cases h
    · next key hk =>
      cases h
      obtain ⟨a, b, ha, hb, hab⟩ := exists_of_mergeEntries_error hd.keys hk
      obtain ⟨kept, hkept, hmem⟩ := hp.entries.2 _ ha
      exact ⟨.object kept, hkept, .key hmem hb hab⟩
  · next hk =>
    split at h
    · cases h
    · next hne =>
      cases h
      have hdiffer : previous.sameData next = false := by simpa using hne
      cases hp with
      | one hp => exact ⟨previous, hp, .whole hdiffer hk⟩
      | @object entries known hknown _ =>
        refine ⟨.object known, hknown, .whole ?_ fun _ addition _ hn => hk _ addition rfl hn⟩
        cases next with
        | object addition => exact absurd rfl (hk entries addition rfl)
        | _ => rfl

/-- A conflict that coercion makes. At a node of the document the strict policy accepts an
intersection of the graph. The other policy accepts an earlier member and the one that the
conflict names, but its outputs disagree. -/
inductive Clash (maxDepth : Nat) (targets : Targets) (root : Schema) (document : Json) :
    Rejection → Prop
  /-- Two members disagree at a node, or below it under a key that both outputs have. -/
  | intro {here : Position} {node together first second : Json} {way : Path}
    {before after : List Schema} {earlier member : Schema}
    (hn : here.path.node? document = some node)
    (hr : Schema.Reaches targets root (.intersection (before ++ member :: after)))
    (hstrict : Grounds.accept ⟨.strict, maxDepth, targets⟩
      (.intersection (before ++ member :: after)) node here.path.length here.entered =
        some together)
    (he : earlier ∈ before)
    (hfirst : Grounds.accept ⟨.nonStrict, maxDepth, targets⟩ earlier node here.path.length
      here.entered = some first)
    (hsecond : Grounds.accept ⟨.nonStrict, maxDepth, targets⟩ member node here.path.length
      here.entered = some second)
    (h : first.Disagrees second way) :
    Clash maxDepth targets root document ⟨here.path ++ way, .conflict before.length⟩

section Steps

variable (maxDepth : Nat) (targets : Targets) (root : Schema) (document : Json)

/-- A rejection that carries a clash. -/
def CarriesClash (rejection : Rejection) : Prop :=
  ∃ inner, rejection.Carries inner ∧ Clash maxDepth targets root document inner

/-- What is said of a value that the strict policy accepts: wherever the value is a node of
the document, the other policy reports clashes only. -/
def lenience : Grounds.Motive := fun schema value depth entered _ =>
  ∀ (mode : Mode) (here : Position) (session : Session), here.path.length = depth →
    here.entered = entered → session.store.target? = targets →
    Schema.Reaches targets root schema → here.path.node? document = some value →
    value.DistinctKeys →
    Reports (CarriesClash maxDepth targets root document)
      (check ⟨.nonStrict, mode, maxDepth⟩ schema value here session).1

variable {maxDepth targets root document}

/-- Members of an intersection that the strict policy accepts, from an index on, report
clashes only, if what was merged before is drawn from outputs of the earlier members. -/
theorem lenience_every (hfields : root.DistinctFields targets) {mode : Mode} {here : Position}
    {value together : Json} (hn : here.path.node? document = some value)
    (hd : value.DistinctKeys) {before members : List Schema} {merged : Option Json}
    (hr : Schema.Reaches targets root (.intersection (before ++ members)))
    (hstrict : Grounds.accept ⟨.strict, maxDepth, targets⟩ (.intersection (before ++ members))
      value here.path.length here.entered = some together)
    (hmembers : ∀ member ∈ members, ∀ session : Session, session.store.target? = targets →
      Reports (CarriesClash maxDepth targets root document)
        (check ⟨.nonStrict, mode, maxDepth⟩ member value here session).1)
    (hmerged : ∀ previous, merged = some previous → previous.Drawn fun output =>
      ∃ earlier ∈ before, Grounds.accept ⟨.nonStrict, maxDepth, targets⟩ earlier value
        here.path.length here.entered = some output)
    (session : Session) (hs : session.store.target? = targets) :
    Reports (CarriesClash maxDepth targets root document)
      (checkEvery ⟨.nonStrict, mode, maxDepth⟩ before.length members merged value here
        session).1 := by
  -- a member goes over to those before it once its output is merged, so `before` grows
  induction members generalizing before merged session with
  | nil =>
    rw [checkEvery_nil]
    exact .ok _
  | cons member rest ih =>
    obtain ⟨hfirst, hrest⟩ := List.forall_mem_cons.mp hmembers
    have hmember := hfirst session hs
    have hgives := check_gives ⟨.nonStrict, mode, maxDepth⟩ member value here session
    have hkeep := hgives.2
    rw [checkEvery_cons]
    rcases hc : check ⟨.nonStrict, mode, maxDepth⟩ member value here session with
      ⟨causes | output, later⟩ <;> rw [hc] at hmember hgives hkeep
    · obtain ⟨inner, hi, hclash⟩ := hmember causes rfl causes.head List.mem_cons_self
      exact .one ⟨inner, .cause List.mem_cons_self hi, hclash⟩
    · have haccept : Grounds.accept ⟨.nonStrict, maxDepth, targets⟩ member value
          here.path.length here.entered = some output := by
        rw [← hs]
        exact (hgives.ok_iff output).mp rfl
      dsimp only
      cases hboth : mergeInto merged output with
      | ok both =>
        have happend : before ++ member :: rest = (before ++ [member]) ++ rest := by simp
        rw [happend] at hr hstrict
        have hlength : before.length + 1 = (before ++ [member]).length := by simp
        rw [hlength]
        refine ih hr hstrict hrest ?_ later (hkeep.trans hs)
        intro previous heq
        cases heq
        have hlast : ∃ earlier ∈ before ++ [member], Grounds.accept
            ⟨.nonStrict, maxDepth, targets⟩ earlier value here.path.length here.entered =
              some output := ⟨member, by simp, haccept⟩
        cases merged with
        | none =>
          cases hboth
          exact .one hlast
        | some previous =>
          refine ((hmerged previous rfl).mono ?_).merge hlast hboth
          rintro w ⟨earlier, he, hw⟩
          exact ⟨earlier, List.mem_append_left _ he, hw⟩
      | error way =>
        cases merged with
        | none => cases hboth
        | some previous =>
          have houtput : output.DistinctKeys :=
            Grounds.accept_distinctKeys PolicyKind.nonStrict.policy_flat hfields
              (hr.part (by simp [Schema.parts])) hd haccept
          obtain ⟨first, ⟨earlier, he, hearlier⟩, hdisagrees⟩ :=
            (hmerged previous rfl).exists_disagrees houtput hboth
          exact .one ⟨_, .self _, .intro hn hr hstrict he hearlier haccept hdisagrees⟩

theorem lenience_inductive (hfields : root.DistinctFields targets) :
    Grounds.Inductive ⟨.strict, maxDepth, targets⟩ (lenience maxDepth targets root document) where
  leaf leaf value depth entered output h mode here session _ _ _ _ _ _ := by
    obtain ⟨lenient, hlenient⟩ := Policy.nonStrict_accepts_of_strict leaf h
    have hcheck : (⟨.nonStrict, mode, maxDepth⟩ : Rules).policy.check leaf value = .ok lenient :=
      hlenient
    rw [check_leaf, hcheck]
    exact .ok lenient
  null inner depth entered mode here session _ _ _ _ _ _ := by
    rw [check_nullable_null _ .null here session inner rfl]
    exact .ok _
  nullable inner value depth entered output hnull _ ih mode here session hp he hs hr hn hd := by
    rw [check_nullable _ value here session inner hnull]
    exact ih mode here session hp he hs (hr.part (List.mem_singleton_self _)) hn hd
  union before member after value depth entered output _ _ ih mode here session hp he hs hr hn
      hd := by
    have hm : member ∈ before ++ member :: after := by simp
    have hmember : ∀ session : Session, session.store.target? = targets →
        Reports (CarriesClash maxDepth targets root document)
          (check (Rules.failFast ⟨.nonStrict, mode, maxDepth⟩) member value here session).1 :=
      fun session hs => ih .failFast here session hp he hs (hr.part hm) hn hd
    -- the member that the strict policy chose has an attempt, whatever the earlier ones report
    have hattempt := exists_attempt_of_checkMembers hm hmember 0 hs
    rw [check_union]
    rcases hc : checkMembers (Rules.failFast ⟨.nonStrict, mode, maxDepth⟩) 0
        (before ++ member :: after) value here session with ⟨attempts | output, later⟩
    · rw [hc] at hattempt
      obtain ⟨attempt, ha, inner, hi, hclash⟩ := hattempt attempts rfl
      exact .one ⟨inner, .attempt ha hi, hclash⟩
    · exact .ok output
  intersection members outputs all value depth entered hrow hall mode here session hp he hs hr hn
      hd := by
    subst hp he
    have hstrict : Grounds.accept ⟨.strict, maxDepth, targets⟩ (.intersection ([] ++ members)) value
        here.path.length here.entered = some (all.getD value) := by
      rw [List.nil_append, Grounds.accept]
      exact Grounds.acceptEvery_eq_some.mpr ⟨outputs, all, hrow.imp fun _ _ h => h.1, hall, rfl⟩
    have hreach : Schema.Reaches targets root (.intersection ([] ++ members)) := hr
    rw [check_intersection]
    refine lenience_every hfields hn hd hreach hstrict ?_ ?_ session hs
    · intro member hm session hs
      obtain ⟨_, _, _, ih⟩ := exists_of_forall₂_of_mem hrow hm
      exact ih mode here session rfl rfl hs (hr.part hm) hn hd
    · intro previous h
      cases h
  reference r target value depth entered output hf ht _ ih mode here session hp he hs hr hn hd := by
    subst hp he
    obtain ⟨later, hfetch, hkeep⟩ := Session.onStore_fetch? session r.cell
    have htarget : session.store.target? r.cell = some target := by rw [hs]; exact ht
    rw [check_reference _ value here session hf, hfetch, htarget]
    exact ih mode (here.enter r.cell) later rfl rfl (hkeep.trans hs) (hr.target ht) hn hd
  any value depth entered mode here session _ _ _ _ _ _ := by
    rw [check_plain _ value here session rfl rfl]
    exact .ok value
  scalar value depth entered h mode here session _ _ _ _ _ _ := by
    have hview : View.of .json value = .plain := by
      cases value with
      | array | object => simp [Json.nesting] at h
      | _ => rfl
    rw [check_plain _ value here session rfl hview]
    exact .ok value
  container schema value depth entered children assemble outputs hc hlt hrow mode here session
      hp he hs hr hn hd := by
    have hdepth : ¬(⟨.nonStrict, mode, maxDepth⟩ : Rules).maxDepth ≤ here.path.length := by
      rw [hp]
      exact Nat.not_le.mpr hlt
    have hchild : ∀ child ∈ children, ∀ session : Session, session.store.target? = targets →
        Reports (CarriesClash maxDepth targets root document)
          (checkChild ⟨.nonStrict, mode, maxDepth⟩ child here session).1 := by
      intro child hm session hs
      obtain ⟨output, _, houtput⟩ := exists_of_forall₂_of_mem hrow hm
      have hwithin := hc.within hd hm
      have hreaches := hr.child hc hm
      cases houtput with
      | @present segment schema item output _ ih =>
        have hpath : (here.child segment).path.length = depth + 1 := by
          simp [Position.child, hp]
        have hnode : (here.child segment).path.node? document = some item := by
          rw [Position.child, Path.node?_append, hn]
          exact hwithin.1
        exact .present (ih mode (here.child segment) session hpath rfl hs hreaches hnode hwithin.2)
      | @absent name schema habsent =>
        obtain ⟨later, hrun, _⟩ := schema.onStore_acceptsAbsent session
        rw [hs, habsent] at hrun
        rw [checkChild_absent, hrun]
        exact .ok _
    exact .container hc hdepth (.children hchild hs)

end Steps

/-- What the strict policy accepts, the policy that reads text accepts with the same
settings, or coercion makes members of an intersection disagree: then every rejection
carries a clash. Without intersections the value is accepted. -/
theorem nonStrict_accepts_unless_clash (schema : Schema) (mode : Mode) (maxDepth : Nat)
    (session later : Session) (hgraph : later.store.target? = session.store.target?)
    (hfields : schema.DistinctFields session.store.target?) (value output : Json)
    (hkeys : value.DistinctKeys)
    (h : ((Validator.ofSettings schema ⟨.strict, mode, maxDepth⟩).validate value session).1 =
      .ok output) :
    ((∃ lenient, ((Validator.ofSettings schema ⟨.nonStrict, mode, maxDepth⟩).validate value
        later).1 = .ok lenient) ∨
      ∃ report, ((Validator.ofSettings schema ⟨.nonStrict, mode, maxDepth⟩).validate value
          later).1 = .error report ∧
        ∀ r ∈ report.toList, ∃ inner, r.Carries inner ∧
          Clash maxDepth session.store.target? schema value inner) ∧
    (schema.IntersectionFree session.store.target? →
      ∃ lenient, ((Validator.ofSettings schema ⟨.nonStrict, mode, maxDepth⟩).validate value
        later).1 = .ok lenient) := by
  have haccept := (Validator.validate_eq_ok_iff _ value output session).mp h
  have hreports := (lenience_inductive hfields).holds schema value 0 [] output haccept mode .root
    later rfl rfl hgraph .root rfl hkeys
  rw [Validator.validate_fst]
  cases hrun : (check (Validator.ofSettings schema ⟨.nonStrict, mode, maxDepth⟩).toRules schema
    value .root later).1 with
  | ok lenient => exact ⟨.inl ⟨lenient, hrun⟩, fun _ => ⟨lenient, hrun⟩⟩
  | error report =>
    have hclashes := hreports report hrun
    refine ⟨.inr ⟨report, hrun, hclashes⟩, fun hfree => ?_⟩
    obtain ⟨_, _, hclash⟩ := hclashes report.head List.mem_cons_self
    cases hclash with
    | intro _ hr => exact absurd hr (hfree _)

/-- The double one. -/
def oneDouble : Json :=
  .number (.float ⟨false, Nat.pow 2 52, 1022, by decide, by decide, .inr (by decide)⟩)

/-- An integer that is a number. -/
def integerAndNumber : Schema := .intersection [.leaf .int, .leaf .number]

/-- The double one is integral. -/
theorem strictInt_oneDouble : Policy.strict.check .int oneDouble = .ok oneDouble := by
  have hintegral : (Number.float ⟨false, Nat.pow 2 52, 1022, by decide, by decide,
      .inr (by decide)⟩).isIntegral = true := by decide +kernel
  simp [Policy.check, Policy.strict, Policy.strictInt, oneDouble, hintegral]

/-- Rounded toward zero the double one is the integer one. -/
theorem lenientInt_oneDouble :
    Policy.nonStrict.check .int oneDouble = .ok (.number (.int 1 rfl)) := by
  have htruncate : (Number.float ⟨false, Nat.pow 2 52, 1022, by decide, by decide,
      .inr (by decide)⟩).truncate = .int 1 rfl := by decide +kernel
  simp [Policy.check, Policy.nonStrict, Policy.lenientInt, oneDouble, htruncate]

/-- The strict policy accepts the double one as an integer and as a number. -/
theorem integerAndNumber_strict :
    ((Validator.ofSettings integerAndNumber ⟨.strict, .failFast, 128⟩).validate oneDouble
      ⟨.empty, #[]⟩).1 = .ok oneDouble := by
  have hnumber : Policy.strict.check .number oneDouble = .ok oneDouble := rfl
  have hmerge : mergeInto (some oneDouble) oneDouble = .ok oneDouble := by
    simp [mergeInto, mergeOutputs, oneDouble, Json.sameData, Number.sameData, Binary64.sameValue]
  rw [Validator.validate_fst]
  change (check ⟨.strict, .failFast, 128⟩ (.intersection [.leaf .int, .leaf .number]) oneDouble
    .root ⟨.empty, #[]⟩).1 = _
  rw [check_intersection, checkEvery_cons, check_leaf]
  simp only [strictInt_oneDouble, mergeInto]
  rw [checkEvery_cons, check_leaf]
  simp only [hnumber, hmerge, checkEvery_nil, Option.getD_some]

/-- The policy that reads text makes an integer of the double one for the first member and
leaves it a double for the second. -/
theorem integerAndNumber_conflict :
    ((Validator.ofSettings integerAndNumber ⟨.nonStrict, .failFast, 128⟩).validate oneDouble
      ⟨.empty, #[]⟩).1 = .error (.singleton ⟨[], .conflict 1⟩) := by
  have hnumber : Policy.nonStrict.check .number oneDouble = .ok oneDouble := rfl
  have hmerge : mergeInto (some (.number (.int 1 rfl))) oneDouble = .error [] := rfl
  rw [Validator.validate_fst]
  change (check ⟨.nonStrict, .failFast, 128⟩ (.intersection [.leaf .int, .leaf .number]) oneDouble
    .root ⟨.empty, #[]⟩).1 = _
  rw [check_intersection, checkEvery_cons, check_leaf]
  simp only [lenientInt_oneDouble, mergeInto]
  rw [checkEvery_cons, check_leaf]
  simp only [hnumber, hmerge]
  rfl

/-- The strict policy accepts a value that the other policy does not. -/
theorem integerAndNumber_loses_one :
    ((Validator.ofSettings integerAndNumber ⟨.strict, .failFast, 128⟩).validate oneDouble
      ⟨.empty, #[]⟩).1 = .ok oneDouble ∧
    ¬∃ lenient, ((Validator.ofSettings integerAndNumber ⟨.nonStrict, .failFast, 128⟩).validate
      oneDouble ⟨.empty, #[]⟩).1 = .ok lenient := by
  refine ⟨integerAndNumber_strict, ?_⟩
  rintro ⟨lenient, h⟩
  rw [integerAndNumber_conflict] at h
  cases h

/-- The conflict that is reported is a clash. -/
theorem integerAndNumber_clash :
    Clash 128 Store.empty.target? integerAndNumber oneDouble ⟨[], .conflict 1⟩ := by
  have hfields : integerAndNumber.DistinctFields Store.empty.target? := by
    intro schema fields hr hf
    have hkind : schema = integerAndNumber ∨ ∃ leaf, schema = .leaf leaf := by
      refine hr.mem_of_closed (P := fun schema => schema = integerAndNumber ∨
        ∃ leaf, schema = .leaf leaf) (.inl rfl) ?_ ?_
      · rintro whole (rfl | ⟨leaf, rfl⟩) part hp
        · simp only [integerAndNumber, Schema.parts, List.mem_cons, List.not_mem_nil,
            or_false] at hp
          rcases hp with rfl | rfl <;> exact .inr ⟨_, rfl⟩
        · cases hp
      · rintro r (h | ⟨leaf, h⟩) <;> cases h
    rcases hkind with rfl | ⟨leaf, rfl⟩ <;> cases hf
  obtain ⟨⟨lenient, haccept⟩ | ⟨report, hreport, hclashes⟩, _⟩ :=
    nonStrict_accepts_unless_clash integerAndNumber .failFast 128 ⟨.empty, #[]⟩ ⟨.empty, #[]⟩ rfl
      hfields oneDouble oneDouble (.number _) integerAndNumber_strict
  · rw [integerAndNumber_conflict] at haccept
    cases haccept
  · rw [integerAndNumber_conflict] at hreport
    cases hreport
    obtain ⟨inner, hi, hclash⟩ := hclashes _ List.mem_cons_self
    cases hi
    exact hclash

end Conformance
