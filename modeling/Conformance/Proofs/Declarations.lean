import Conformance.Schema.Declaration

/-!
# Declarations and their first mistake

Fields are declared one at a time or several in a call, and only their order counts. As long as
no field offends the declaration has exactly the fields it was given. The first one that offends
decides what is reported: later fields are not looked at, and the name of the type only if no
field offends.
-/

namespace Conformance

/-- Fields that may be declared together: each has a name, and no two have the same one. -/
structure WellDeclared (fields : List (Field Schema)) : Prop where
  /-- Every field has a name. -/
  named : ∀ field ∈ fields, field.name ≠ ""
  /-- The names are distinct. -/
  distinct : (fields.map Field.name).Nodup

/-- What is wrong with a field that is declared after others. -/
inductive Offends (owner : String) (before : List (Field Schema)) (field : Field Schema) :
    DefinitionError → Prop
  /-- It has no name. -/
  | unnamed (h : field.name = "") : Offends owner before field (.emptyFieldName owner)
  /-- One of the others has its name. -/
  | repeated (hname : field.name ≠ "") (h : field.name ∈ before.map Field.name) :
    Offends owner before field (.duplicateField field.name owner)

/-- The mistake of the first field in a row that offends. -/
def FirstOffence (owner : String) (fields : List (Field Schema)) (mistake : DefinitionError) :
    Prop :=
  ∃ before field after, fields = before ++ field :: after ∧ WellDeclared before ∧
    Offends owner before field mistake

section Rows

variable {owner : String} {fields before more : List (Field Schema)} {field : Field Schema}
  {mistake other : DefinitionError}

/-- There may be no fields at all. -/
theorem WellDeclared.nil : WellDeclared [] := ⟨nofun, List.nodup_nil⟩

/-- One more field may be declared if it has a name that none before it has. -/
theorem WellDeclared.concat_iff : WellDeclared (fields ++ [field]) ↔
    WellDeclared fields ∧ field.name ≠ "" ∧ field.name ∉ fields.map Field.name := by
  have hnamed : (∀ f ∈ fields ++ [field], f.name ≠ "") ↔
      (∀ f ∈ fields, f.name ≠ "") ∧ field.name ≠ "" := by
    rw [List.forall_mem_append, List.forall_mem_singleton]
  have hdistinct : ((fields ++ [field]).map Field.name).Nodup ↔
      (fields.map Field.name).Nodup ∧ field.name ∉ fields.map Field.name := by
    rw [List.map_append, List.map_singleton, List.nodup_append]
    refine and_congr_right fun _ => ⟨fun ⟨_, hne⟩ hmem => ?_, fun hfresh => ⟨?_, ?_⟩⟩
    · exact hne _ hmem _ List.mem_cons_self rfl
    · exact List.nodup_cons.mpr ⟨List.not_mem_nil, List.nodup_nil⟩
    · intro taken htaken other hother heq
      exact hfresh (List.mem_singleton.mp hother ▸ heq ▸ htaken)
  constructor
  · rintro ⟨hn, hd⟩
    exact ⟨⟨(hnamed.mp hn).1, (hdistinct.mp hd).1⟩, (hnamed.mp hn).2, (hdistinct.mp hd).2⟩
  · rintro ⟨⟨hn, hd⟩, hname, hfresh⟩
    exact ⟨hnamed.mpr ⟨hn, hname⟩, hdistinct.mpr ⟨hd, hfresh⟩⟩

/-- The first of the fields may be declared without those after them. -/
theorem WellDeclared.of_append (h : WellDeclared (fields ++ more)) : WellDeclared fields :=
  ⟨fun f hf => h.named f (List.mem_append_left _ hf),
    (List.map_append ▸ h.distinct).sublist (List.sublist_append_left _ _)⟩

/-- Each field is found by its name. -/
theorem WellDeclared.fieldNamed?_eq (h : WellDeclared fields) (hf : field ∈ fields) :
    Schema.fieldNamed? field.name fields = some field := by
  obtain ⟨before, after, rfl⟩ := List.append_of_mem hf
  have hdistinct := h.distinct
  rw [List.map_append, List.map_cons] at hdistinct
  have hne : ∀ f ∈ before, f.name ≠ field.name := fun f hmem =>
    (List.nodup_append.mp hdistinct).2.2 _ (List.mem_map_of_mem hmem) _ List.mem_cons_self
  exact List.find?_eq_some_iff_append.mpr
    ⟨beq_self_eq_true _, before, after, rfl, fun f hmem => by simpa using hne f hmem⟩

/-- How a declaration looks for a name among its fields. -/
theorem any_name_iff : (fields.any fun declared => declared.name == field.name) = true ↔
    field.name ∈ fields.map Field.name := by
  rw [List.any_eq_true, List.mem_map]
  simp only [beq_iff_eq]

/-- A field that offends may not be declared. -/
theorem Offends.not_wellDeclared (h : Offends owner before field mistake) :
    ¬ WellDeclared (before ++ [field]) := by
  intro hwell
  obtain ⟨-, hname, hfresh⟩ := WellDeclared.concat_iff.mp hwell
  cases h with
  | unnamed hempty => exact hname hempty
  | repeated _ hmem => exact hfresh hmem

/-- A field that does not offend may be declared. -/
theorem WellDeclared.concat (h : WellDeclared before)
    (hnone : ∀ mistake, ¬ Offends owner before field mistake) :
    WellDeclared (before ++ [field]) := by
  have hname : field.name ≠ "" := fun hempty => hnone _ (.unnamed hempty)
  exact concat_iff.mpr ⟨h, hname, fun hmem => hnone _ (.repeated hname hmem)⟩

/-- A field makes one mistake at most. -/
theorem Offends.eq (h : Offends owner before field mistake)
    (hother : Offends owner before field other) : mistake = other := by
  cases h with
  | unnamed hempty =>
    cases hother with
    | unnamed => rfl
    | repeated hname => exact absurd hempty hname
  | repeated hname =>
    cases hother with
    | unnamed hempty => exact absurd hempty hname
    | repeated => rfl

/-- Behind a field that offends there is no other that could be the first one to offend. -/
theorem Offends.eq_of_append {between after later : List (Field Schema)} {next : Field Schema}
    (h : Offends owner before field mistake)
    (hother : Offends owner (before ++ between) next other)
    (hwell : WellDeclared (before ++ between))
    (heq : field :: after = between ++ next :: later) : mistake = other := by
  cases between with
  | nil =>
    cases heq
    rw [List.append_nil] at hother
    exact h.eq hother
  | cons first rest =>
    -- Otherwise the field that offends would be one of those that do not.
    cases heq
    rw [List.append_cons] at hwell
    exact absurd hwell.of_append h.not_wellDeclared

/-- There is one first mistake at most. -/
theorem FirstOffence.eq (h : FirstOffence owner fields mistake)
    (hother : FirstOffence owner fields other) : mistake = other := by
  obtain ⟨before, field, after, rfl, hbefore, hoffends⟩ := h
  obtain ⟨earlier, next, later, heq, hearlier, hnext⟩ := hother
  rcases List.append_eq_append_iff.mp heq with ⟨between, rfl, hrest⟩ | ⟨between, rfl, hrest⟩
  · exact hoffends.eq_of_append hnext hearlier hrest
  · exact (hnext.eq_of_append hoffends hbefore hrest).symm

/-- Where a field offends the fields may not be declared together. -/
theorem FirstOffence.not_wellDeclared (h : FirstOffence owner fields mistake) :
    ¬ WellDeclared fields := by
  obtain ⟨before, field, after, rfl, -, hoffends⟩ := h
  intro hwell
  rw [List.append_cons] at hwell
  exact hoffends.not_wellDeclared hwell.of_append

/-- What comes later does not change which field is the first that offends. -/
theorem FirstOffence.append (h : FirstOffence owner fields mistake)
    (more : List (Field Schema)) : FirstOffence owner (fields ++ more) mistake := by
  obtain ⟨before, field, after, rfl, hbefore, hoffends⟩ := h
  exact ⟨before, field, after ++ more, by rw [List.append_assoc, List.cons_append], hbefore,
    hoffends⟩

end Rows

namespace Declaration

section Steps

variable {declaration : Declaration} {field : Field Schema} {mistake : DefinitionError}

/-- After a mistake a declaration stays as it is. -/
theorem field_of_mistake (h : declaration.mistake = some mistake) :
    declaration.field field = declaration := by
  rw [Declaration.field, h]
  rfl

/-- A field that offends leaves its mistake. -/
theorem field_of_offends (hnone : declaration.mistake = none)
    (h : Offends declaration.owner declaration.fields field mistake) :
    declaration.field field = { declaration with mistake := some mistake } := by
  rw [Declaration.field, hnone, if_neg (by decide)]
  cases h with
  | unnamed hempty => rw [if_pos (String.isEmpty_iff.mpr hempty)]
  | repeated hname hmem =>
    rw [if_neg (mt String.isEmpty_iff.mp hname), if_pos (any_name_iff.mpr hmem)]

/-- Any other field joins those before it. -/
theorem field_of_not_offends (hnone : declaration.mistake = none)
    (h : ∀ mistake, ¬ Offends declaration.owner declaration.fields field mistake) :
    declaration.field field = { declaration with fields := declaration.fields ++ [field] } := by
  have hname : field.name ≠ "" := fun hempty => h _ (.unnamed hempty)
  have hfresh : field.name ∉ declaration.fields.map Field.name := fun hmem =>
    h _ (.repeated hname hmem)
  rw [Declaration.field, hnone, if_neg (by decide), if_neg (mt String.isEmpty_iff.mp hname),
    if_neg (mt any_name_iff.mp hfresh)]

end Steps

/-- The declaration of a struct, or of an object type with a name. -/
def begun : Option String → Declaration
  | none => struct
  | some name => object name

/-- The schema of a struct, or of an object type with a name. -/
def composite : Option String → List (Field Schema) → Schema
  | none, fields => .struct fields
  | some name, fields => .object name fields

/-- What a declaration is left with after fields: all of them, or the first mistake and what was
declared before it. -/
inductive Reached (name : Option String) (fields : List (Field Schema)) : Declaration → Prop
  /-- No field offends. -/
  | sound (h : WellDeclared fields) : Reached name fields ⟨name, fields, none⟩
  /-- A field offends. -/
  | mistaken {kept : List (Field Schema)} {mistake : DefinitionError}
      (h : FirstOffence (begun name).owner fields mistake) :
      Reached name fields ⟨name, kept, some mistake⟩

section Runs

variable {name : Option String} {fields : List (Field Schema)} {declaration : Declaration}

/-- At the beginning there are no fields and no mistake. -/
theorem Reached.begin (name : Option String) : Reached name [] (begun name) := by
  cases name <;> exact .sound .nil

/-- A declaration and one begun under its name have one owner. -/
theorem owner_begun (kept : List (Field Schema)) (mistake : Option DefinitionError) :
    (Declaration.mk name kept mistake).owner = (begun name).owner := by
  cases name <;> rfl

/-- One more field leads on. -/
theorem Reached.field (h : Reached name fields declaration) (field : Field Schema) :
    Reached name (fields ++ [field]) (declaration.field field) := by
  cases h with
  | sound hwell =>
    have howner : (Declaration.mk name fields none).owner = (begun name).owner :=
      owner_begun fields none
    by_cases hoffends : ∃ mistake,
        Offends (Declaration.mk name fields none).owner fields field mistake
    · obtain ⟨mistake, hoffends⟩ := hoffends
      rw [field_of_offends rfl hoffends]
      exact .mistaken ⟨fields, field, [], rfl, hwell, howner ▸ hoffends⟩
    · have hnone := not_exists.mp hoffends
      rw [field_of_not_offends rfl hnone]
      exact .sound (hwell.concat hnone)
  | mistaken hfirst =>
    rw [field_of_mistake rfl]
    exact .mistaken (hfirst.append [field])

/-- So do several. -/
theorem Reached.addFields (h : Reached name fields declaration) (more : List (Field Schema)) :
    Reached name (fields ++ more) (declaration.addFields more) := by
  induction more generalizing fields declaration with
  | nil =>
    rw [List.append_nil]
    exact h
  | cons field rest ih =>
    rw [List.append_cons]
    exact ih (h.field field)

/-- A declaration without mistake gives its fields, unless a type has the empty name. -/
theorem complete_sound (hname : name ≠ some "") :
    (Declaration.mk name fields none).complete = .ok (composite name fields) := by
  cases name with
  | none => rfl
  | some name =>
    have hempty : ¬ name.isEmpty = true := fun hempty =>
      hname (congrArg some (String.isEmpty_iff.mp hempty))
    exact if_neg hempty

/-- When a declaration is complete. -/
theorem Reached.complete_eq_ok_iff (h : Reached name fields declaration) {schema : Schema} :
    declaration.complete = .ok schema ↔
      WellDeclared fields ∧ name ≠ some "" ∧ schema = composite name fields := by
  cases h with
  | sound hwell =>
    by_cases hname : name = some ""
    · subst hname
      exact ⟨nofun, fun ⟨_, hne, _⟩ => absurd rfl hne⟩
    · rw [complete_sound hname, Except.ok.injEq]
      exact ⟨fun heq => ⟨hwell, hname, heq.symm⟩, fun ⟨_, _, heq⟩ => heq.symm⟩
  | mistaken hfirst =>
    exact ⟨nofun, fun ⟨hwell, _, _⟩ => absurd hwell hfirst.not_wellDeclared⟩

/-- What a declaration reports. -/
theorem Reached.complete_eq_error_iff (h : Reached name fields declaration)
    {mistake : DefinitionError} :
    declaration.complete = .error mistake ↔ FirstOffence (begun name).owner fields mistake ∨
      WellDeclared fields ∧ name = some "" ∧ mistake = .emptyTypeName := by
  cases h with
  | sound hwell =>
    have hnone : ¬ FirstOffence (begun name).owner fields mistake := fun hfirst =>
      hfirst.not_wellDeclared hwell
    by_cases hname : name = some ""
    · subst hname
      constructor
      · intro heq
        cases heq
        exact .inr ⟨hwell, rfl, rfl⟩
      · rintro (hfirst | ⟨-, -, rfl⟩)
        · exact absurd hfirst hnone
        · rfl
    · rw [complete_sound hname]
      constructor
      · intro heq
        cases heq
      · rintro (hfirst | ⟨-, hempty, -⟩)
        · exact absurd hfirst hnone
        · exact absurd hempty hname
  | mistaken hfirst =>
    constructor
    · intro heq
      cases heq
      exact .inl hfirst
    · rintro (hother | ⟨hwell, -, -⟩)
      · rw [hfirst.eq hother]
        rfl
      · exact absurd hwell hfirst.not_wellDeclared

end Runs

/-- A call that declares fields. -/
inductive Call where
  /-- Declares one field. -/
  | one (field : Field Schema)
  /-- Declares several fields in order. -/
  | several (fields : List (Field Schema))

/-- The fields that a call declares. -/
def Call.declared : Call → List (Field Schema)
  | .one field => [field]
  | .several fields => fields

/-- The declaration after a call. -/
def perform (declaration : Declaration) : Call → Declaration
  | .one field => declaration.field field
  | .several fields => declaration.addFields fields

/-- The declaration after calls, one after the other. -/
def performAll (declaration : Declaration) (calls : List Call) : Declaration :=
  calls.foldl perform declaration

/-- How the fields are spread over the calls does not matter. -/
theorem performAll_eq_addFields (declaration : Declaration) (calls : List Call) :
    declaration.performAll calls = declaration.addFields (calls.flatMap Call.declared) := by
  induction calls generalizing declaration with
  | nil => rfl
  | cons call rest ih =>
    have hcall : declaration.perform call = declaration.addFields call.declared := by
      cases call <;> rfl
    rw [performAll, List.foldl_cons, ← performAll, ih, hcall, List.flatMap_cons, addFields,
      addFields, addFields, List.foldl_append]

end Declaration

/-- A struct or object type is declared exactly if every field has a name, the names are
distinct, and the type has a name if it needs one, however the fields are spread over the calls.
It then has the fields that were declared, in their order and with all that was declared of
them. Otherwise the first field that offends is reported, with the owner of the fields, and that
the type has no name only if no field offends. -/
theorem declaration_reports_first_mistake (name : Option String)
    (calls : List Declaration.Call) :
    let fields := calls.flatMap Declaration.Call.declared
    let result := ((Declaration.begun name).performAll calls).complete
    ((∃ schema, result = .ok schema) ↔
        (∀ field ∈ fields, field.name ≠ "") ∧ (fields.map Field.name).Nodup ∧ name ≠ some "") ∧
      (∀ schema, result = .ok schema → schema = Declaration.composite name fields ∧
        ∀ field ∈ fields, Schema.fieldNamed? field.name fields = some field) ∧
      ∀ mistake, result = .error mistake ↔
        FirstOffence (Declaration.begun name).owner fields mistake ∨
          WellDeclared fields ∧ name = some "" ∧ mistake = .emptyTypeName := by
  intro fields result
  have hreached : Declaration.Reached name fields ((Declaration.begun name).performAll calls) := by
    rw [Declaration.performAll_eq_addFields]
    exact (Declaration.Reached.begin name).addFields fields
  refine ⟨⟨?_, ?_⟩, ?_, fun mistake => hreached.complete_eq_error_iff⟩
  · rintro ⟨schema, hschema⟩
    obtain ⟨hwell, hname, -⟩ := hreached.complete_eq_ok_iff.mp hschema
    exact ⟨hwell.named, hwell.distinct, hname⟩
  · rintro ⟨hnamed, hdistinct, hname⟩
    exact ⟨_, hreached.complete_eq_ok_iff.mpr ⟨⟨hnamed, hdistinct⟩, hname, rfl⟩⟩
  · intro schema hschema
    obtain ⟨hwell, -, hcomposite⟩ := hreached.complete_eq_ok_iff.mp hschema
    exact ⟨hcomposite, fun field hf => hwell.fieldNamed?_eq hf⟩

/-- Two fields, of which the second is documented. -/
def labelledPair : List (Field Schema) :=
  [⟨"a", .leaf .number, none, false⟩, ⟨"b", .leaf .string, some "label", true⟩]

/-- They may be declared together. -/
theorem labelledPair_wellDeclared : WellDeclared labelledPair := ⟨by decide, by decide⟩

/-- With the fields alone a struct is declared. When one of them is declared again this is
reported, though a field without a name follows and the type has no name, either. -/
theorem labelledPair_declared :
    ((Declaration.begun none).performAll [.several labelledPair]).complete =
        .ok (.struct labelledPair) ∧
      ((Declaration.begun (some "")).performAll [.several labelledPair,
        .one ⟨"a", .leaf .string, none, false⟩, .one ⟨"", .any, none, false⟩]).complete =
        .error (.duplicateField "a" "object type ''") := by
  obtain ⟨haccepts, hgives, -⟩ :=
    declaration_reports_first_mistake none [.several labelledPair]
  obtain ⟨-, -, hreports⟩ := declaration_reports_first_mistake (some "") [.several labelledPair,
    .one ⟨"a", .leaf .string, none, false⟩, .one ⟨"", .any, none, false⟩]
  constructor
  · obtain ⟨schema, hschema⟩ := haccepts.mpr
      ⟨labelledPair_wellDeclared.named, labelledPair_wellDeclared.distinct, nofun⟩
    rw [hschema, (hgives schema hschema).1]
    rfl
  · exact (hreports _).mpr (.inl ⟨labelledPair, ⟨"a", .leaf .string, none, false⟩,
      [⟨"", .any, none, false⟩], rfl, labelledPair_wellDeclared,
      .repeated (by decide) (by decide)⟩)

end Conformance
