import Conformance.Proofs.Composition

/-!
# Absent fields and null

Two recursions follow references under the same guard: the question whether a schema
accepts absence, and the check. Where the first answers yes, the check accepts null as
null, also through an earlier member of a union or through every member of an
intersection. So a field that may be left out may be null as well, and null is then all
that its presence adds to the output.
-/

namespace Conformance

namespace Grounds

variable {grounds : Grounds}

/-- A flat policy gives null for null, if anything. -/
theorem eq_null_of_accept (hflat : grounds.policy.Flat) {schema : Schema} {depth : Nat}
    {entered : List CellId} {output : Json}
    (h : grounds.accept schema .null depth entered = some output) : output = .null := by
  have hnull := (accept_trims hflat h).2
  cases output with
  | null => rfl
  | _ => cases hnull

/-- Where the question for absence answers yes, the check accepts null as null. An intersection
merges null with null, so what it has merged stays null. -/
def nulling (grounds : Grounds) (depth : Nat) : AbsenceWalk where
  ofSchema entered schema := schema.absentWithin grounds.targets entered = true →
    grounds.accept schema .null depth entered = some .null
  ofAny entered members := Schema.anyAbsentWithin grounds.targets entered members = true →
    grounds.acceptFirst members .null depth entered = some .null
  ofAll entered members := Schema.allAbsentWithin grounds.targets entered members = true →
    ∀ merged : Option Json, merged.getD .null = .null →
      grounds.acceptEvery members merged .null depth entered = some .null

theorem nulling_inductive (hflat : grounds.policy.Flat) (depth : Nat) :
    (nulling grounds depth).Inductive where
  nullable entered inner _ := by
    rw [accept]
    rfl
  any entered _ := by
    rw [accept_structural grounds .null depth entered rfl]
    rfl
  union entered members ih h := by
    rw [Schema.absentWithin] at h
    rw [accept]
    exact ih h
  intersection entered members ih h := by
    rw [Schema.absentWithin] at h
    rw [accept]
    exact ih h none rfl
  followed entered r henter ih h := by
    rw [Schema.absentWithin, if_pos henter] at h
    rw [accept_reference grounds .null depth henter]
    cases ht : grounds.targets r.cell with
    | none =>
      rw [ht] at h
      cases h
    | some target =>
      rw [ht] at h
      exact ih target h
  blocked entered r henter h := by
    rw [Schema.absentWithin, if_neg henter] at h
    cases h
  value entered schema hvalue h := by
    rw [Schema.absentWithin_of_needsValue hvalue] at h
    cases h
  anyDone entered h := by
    rw [Schema.anyAbsentWithin] at h
    cases h
  anyMore entered member rest ihm ihr h := by
    rw [Schema.anyAbsentWithin, Bool.or_eq_true] at h
    rw [acceptFirst]
    -- the member that accepts first need not be the one that accepts absence
    cases hfirst : grounds.accept member .null depth entered with
    | some output => rw [eq_null_of_accept hflat hfirst]
    | none =>
      rcases h with hm | hr
      · have haccept := ihm hm
        rw [hfirst] at haccept
        cases haccept
      · exact ihr hr
  allDone entered _ merged hmerged := by
    rw [acceptEvery, hmerged]
  allMore entered member rest ihm ihr h merged hmerged := by
    rw [Schema.allAbsentWithin, Bool.and_eq_true] at h
    obtain ⟨hm, hr⟩ := h
    have hinto : mergeInto merged .null = .ok .null := by
      cases merged with
      | none => rfl
      | some previous =>
        rw [Option.getD_some] at hmerged
        rw [hmerged]
        rfl
    rw [acceptEvery, ihm hm]
    dsimp only
    rw [hinto]
    exact ihr hr (some .null) rfl

/-- A schema that accepts absence accepts null, at any depth and with the same references
being followed. -/
theorem accept_null_of_absent (hflat : grounds.policy.Flat) (depth : Nat)
    (entered : List CellId) (schema : Schema)
    (h : schema.absentWithin grounds.targets entered = true) :
    grounds.accept schema .null depth entered = some .null :=
  (nulling_inductive hflat depth).holds entered schema h

section Fields

variable {key : String} {entries more : List (String × Json)} {depth : Nat}

/-- If an object gets null under a key that it lacked, the row of its declared fields is
accepted as before, with null in the place of the key. -/
theorem fields_with_null (hflat : grounds.policy.Flat)
    (hlacks : Entries.lookup key entries = none) (hnull : Entries.lookup key more = some .null)
    (hothers : ∀ other, other ≠ key → Entries.lookup other more = Entries.lookup other entries)
    {fields : List (Field Schema)} {outputs : List (Option Json)}
    (hnames : (fields.map Field.name).Nodup) (hkey : key ∈ fields.map Field.name)
    (h : List.Forall₂ (fun field output =>
      grounds.acceptChild (Child.ofField entries field) depth = some output) fields outputs) :
    ∃ filled, List.Forall₂ (fun field output =>
        grounds.acceptChild (Child.ofField more field) depth = some output) fields filled ∧
      ∃ before after, nameOutputs (fields.map Field.name) outputs = before ++ after ∧
        nameOutputs (fields.map Field.name) filled = before ++ (key, .null) :: after := by
  have hsame : ∀ field, field.name ≠ key →
      Child.ofField more field = Child.ofField entries field := by
    intro field hne
    rw [Child.ofField, Child.ofField, hothers field.name hne]
  induction h with
  | nil => cases hkey
  | @cons field output fields outputs hfield hrest ih =>
    rw [List.map_cons, List.nodup_cons] at hnames
    rw [List.map_cons, List.mem_cons] at hkey
    rw [List.map_cons]
    by_cases hname : field.name = key
    · subst hname
      have hrest' : List.Forall₂ (fun field output =>
          grounds.acceptChild (Child.ofField more field) depth = some output) fields outputs := by
        refine forall₂_imp_of_mem hrest fun other hm output _ haccept => ?_
        have hne : other.name ≠ field.name := by
          intro heq
          exact hnames.1 (heq ▸ List.mem_map_of_mem hm)
        rw [hsame other hne]
        exact haccept
      rw [Child.ofField, hlacks, acceptChild] at hfield
      have habsent : field.schema.absentWithin grounds.targets [] = true ∧ none = output := by
        split at hfield
        · next habsent => exact ⟨habsent, Option.some.inj hfield⟩
        · cases hfield
      obtain ⟨habsent, rfl⟩ := habsent
      have hfilled : grounds.acceptChild (Child.ofField more field) depth = some (some .null) := by
        rw [Child.ofField, hnull, acceptChild,
          accept_null_of_absent hflat (depth + 1) [] field.schema habsent]
        rfl
      refine ⟨some .null :: outputs, .cons hfilled hrest', [],
        nameOutputs (fields.map Field.name) outputs, ?_, ?_⟩
      · rw [nameOutputs_cons_none, List.nil_append]
      · rw [nameOutputs_cons_some, List.nil_append]
    · have hmem : key ∈ fields.map Field.name := hkey.resolve_left fun heq => hname heq.symm
      obtain ⟨filled, hfilled, before, after, hkept, hmore⟩ := ih hnames.2 hmem
      have hfield' : grounds.acceptChild (Child.ofField more field) depth = some output := by
        rw [hsame field hname]
        exact hfield
      cases output with
      | none =>
        refine ⟨none :: filled, .cons hfield' hfilled, before, after, ?_, ?_⟩
        · rw [nameOutputs_cons_none, hkept]
        · rw [nameOutputs_cons_none, hmore]
      | some w =>
        refine ⟨some w :: filled, .cons hfield' hfilled, (field.name, w) :: before, after, ?_, ?_⟩
        · rw [nameOutputs_cons_some, hkept, List.cons_append]
        · rw [nameOutputs_cons_some, hmore, List.cons_append]

end Fields

end Grounds

/-- Under a built-in policy a schema that accepts absence accepts null as null, in every
graph. So wherever an object is accepted without a declared key, it is accepted with null
under this key, and the output has null under the key in addition. -/
theorem absence_within_null (schema : Schema) (settings : Settings) (session later : Session)
    (hgraph : later.store.target? = session.store.target?) :
    ((schema.acceptsAbsent session.store).1 = true →
      ((Validator.ofSettings schema settings).validate .null later).1 = .ok .null) ∧
    ∀ fields key entries more output, schema.fields? = some fields →
      (fields.map Field.name).Nodup → key ∈ fields.map Field.name →
      Entries.lookup key entries = none → Entries.lookup key more = some .null →
      (∀ other, other ≠ key → Entries.lookup other more = Entries.lookup other entries) →
      ((Validator.ofSettings schema settings).validate (.object entries) session).1 = .ok output →
      ∃ before after, output = .object (before ++ after) ∧
        ((Validator.ofSettings schema settings).validate (.object more) later).1 =
          .ok (.object (before ++ (key, .null) :: after)) := by
  have hflat : ((Validator.ofSettings schema settings).grounds session.store).policy.Flat :=
    settings.policy.policy_flat
  have hlater : ∀ value output,
      ((Validator.ofSettings schema settings).validate value later).1 = .ok output ↔
        ((Validator.ofSettings schema settings).grounds session.store).accept schema value 0 [] =
          some output := by
    intro value output
    rw [Validator.validate_eq_ok_iff, Rules.grounds_congr _ hgraph]
    rfl
  constructor
  · intro habsent
    rw [Schema.acceptsAbsent_fst] at habsent
    exact (hlater .null .null).mpr (Grounds.accept_null_of_absent hflat 0 [] schema habsent)
  · intro fields key entries more output hf hnames hkey hlacks hnull hothers h
    rw [Validator.validate_eq_ok_iff] at h
    have hc : Container schema (.object entries) (fields.map (Child.ofField entries)) _ :=
      .fields hf
    have haccept : ((Validator.ofSettings schema settings).grounds session.store).accept schema
        (.object entries) 0 [] = some output := h
    rw [Grounds.accept_container _ _ _ hc] at haccept
    split at haccept
    · cases haccept
    · next hdepth =>
      obtain ⟨outputs, hrow, rfl⟩ := Option.map_eq_some_iff.mp haccept
      have hrow' := List.forall₂_map_left_iff.mp (Grounds.acceptChildren_eq_some.mp hrow)
      obtain ⟨filled, hfilled, before, after, hkept, hmore⟩ :=
        Grounds.fields_with_null hflat hlacks hnull hothers hnames hkey hrow'
      refine ⟨before, after, by rw [hkept], ?_⟩
      rw [hlater, Grounds.accept_fields hf (by omega) hfilled, hmore]

/-- An object with a note, which is what the first cell leads to. -/
def noted : Schema :=
  .struct [⟨"v", .leaf .number, none, false⟩, ⟨"note", .reference ⟨0, .thunk⟩, none, false⟩]

/-- A session in which a note is a text, or again a note, or a number or null. -/
def notedSession : Session :=
  ⟨Store.empty.setCell 0 (.pending (.constant
    (.union [.leaf .string, .reference ⟨0, .thunk⟩, .nullable (.leaf .number)]) none)), #[]⟩

/-- The reference goes round in a circle in one member, and another one accepts absence, so
a note may be null wherever it may be left out. -/
theorem noted_with_null :
    ((Validator.ofSettings (.reference ⟨0, .thunk⟩) {}).validate .null notedSession).1 =
        .ok .null ∧
      ∃ before after,
        Json.object [("v", .number (.int 1 rfl))] = .object (before ++ after) ∧
        ((Validator.ofSettings noted {}).validate
            (.object [("note", .null), ("v", .number (.int 1 rfl))]) notedSession).1 =
          .ok (.object (before ++ ("note", .null) :: after)) := by
  have hothers : ∀ other, other ≠ "note" →
      Entries.lookup other [("note", Json.null), ("v", .number (.int 1 rfl))] =
        Entries.lookup other [("v", .number (.int 1 rfl))] := by
    intro other hne
    rw [Entries.lookup, if_neg hne.symm]
  have habsent : (Schema.acceptsAbsent (.reference ⟨0, .thunk⟩) notedSession.store).1 = true := by
    rw [Schema.acceptsAbsent_fst]
    cbv
  have haccepted : ((Validator.ofSettings noted {}).validate
      (.object [("v", .number (.int 1 rfl))]) notedSession).1 =
        .ok (.object [("v", .number (.int 1 rfl))]) :=
    (Validator.validate_eq_ok_iff _ _ _ _).mpr (by cbv)
  obtain ⟨hnull, _⟩ := absence_within_null (.reference ⟨0, .thunk⟩) {} notedSession notedSession rfl
  obtain ⟨_, hfields⟩ := absence_within_null noted {} notedSession notedSession rfl
  exact ⟨hnull habsent,
    hfields _ "note" _ _ _ rfl (by decide) (by decide) rfl rfl hothers haccepted⟩

end Conformance
