import Conformance.Proofs.Following
import Conformance.Proofs.Pairing

/-!
# Two checks of one value

Two sessions with one graph may differ in which cells are filled, since each has a history
of its own. A check in the one and the same check in the other go the same way: they
accept the same output, or reject for the same causes at the same paths. Only the type
expressions that unions put over their attempts can differ, because they name what already
lies in a cell; where the same cells are filled, these are the same as well.
-/

namespace Conformance

mutual

/-- The cause without the type expressions that unions put over their attempts. -/
def Cause.erase : Cause → Cause
  | .noMemberMatched _ attempts => .noMemberMatched "" (Cause.eraseAll attempts)
  | .memberFailed member ⟨⟨path, cause⟩, rest⟩ =>
    .memberFailed member ⟨⟨path, cause.erase⟩, Cause.eraseAll rest⟩
  | cause => cause

/-- The rejections of a row, each without type expressions of unions. -/
def Cause.eraseAll : List Rejection → List Rejection
  | [] => []
  | ⟨path, cause⟩ :: rest => ⟨path, cause.erase⟩ :: Cause.eraseAll rest

end

/-- The rejection without type expressions of unions. -/
def Rejection.erase (rejection : Rejection) : Rejection := ⟨rejection.path, rejection.cause.erase⟩

/-- The report without type expressions of unions. -/
def Report.erase (report : Report) : Report :=
  ⟨Rejection.erase report.head, report.tail.map Rejection.erase⟩

/-- The outcome without type expressions of unions. -/
def Outcome.erase (outcome : Outcome) : Outcome := outcome.mapError Report.erase

/-- Each rejection of a row is erased by itself. -/
theorem Cause.eraseAll_eq_map (rejections : List Rejection) :
    Cause.eraseAll rejections = rejections.map Rejection.erase := by
  induction rejections with
  | nil => rw [Cause.eraseAll, List.map_nil]
  | cons rejection rest ih => rw [Cause.eraseAll, ih, List.map_cons, Rejection.erase]

/-- A union keeps its attempts, each erased. -/
theorem Cause.erase_noMemberMatched (expected : String) (attempts : List Rejection) :
    (Cause.noMemberMatched expected attempts).erase =
      .noMemberMatched "" (attempts.map Rejection.erase) := by
  rw [Cause.erase, Cause.eraseAll_eq_map]

/-- A failed member keeps its position, and each of its causes is erased. -/
theorem Cause.erase_memberFailed (member : Nat) (causes : Report) :
    (Cause.memberFailed member causes).erase = .memberFailed member (Report.erase causes) := by
  rw [Cause.erase, Cause.eraseAll_eq_map, Report.erase, Rejection.erase]

/-- Of reports in a row each is erased by itself. -/
theorem Report.erase_append (report more : Report) :
    Report.erase (report.append more) = (Report.erase report).append (Report.erase more) := by
  simp [Report.erase, NonEmpty.append, NonEmpty.toList]

/-- Two errors tally: they are equal but for what is erased, and altogether if the texts
count. -/
def Tallies (texts : Prop) {ε : Type} (erase : ε → ε) (error other : ε) : Prop :=
  erase error = erase other ∧ (texts → error = other)

section Tallies

variable {texts : Prop}

/-- An error tallies with itself. -/
theorem Tallies.refl {ε : Type} (erase : ε → ε) (error : ε) : Tallies texts erase error error :=
  ⟨rfl, fun _ => rfl⟩

/-- What is made of errors that tally does so as well. -/
theorem Tallies.map {ε δ : Type} {erase : ε → ε} {eraseIt : δ → δ} (make erased : ε → δ)
    (h : ∀ error, eraseIt (make error) = erased (erase error)) {error other : ε}
    (ht : Tallies texts erase error other) : Tallies texts eraseIt (make error) (make other) :=
  ⟨by rw [h, h, ht.1], fun hx => congrArg make (ht.2 hx)⟩

/-- The rejections of a node for causes that tally. -/
theorem Tallies.reject {cause other : Cause} (h : Tallies texts Cause.erase cause other)
    (here : Position) : Tallies texts Report.erase (here.reject cause) (here.reject other) :=
  h.map here.reject (fun erased => .singleton ⟨here.path, erased⟩) fun _ => rfl

/-- The first rejections of reports that tally. -/
theorem Tallies.head {report other : Report} (h : Tallies texts Report.erase report other) :
    Tallies texts Rejection.erase report.head other.head :=
  h.map NonEmpty.head NonEmpty.head fun _ => rfl

/-- One attempt more. -/
theorem Tallies.cons {attempt another : Rejection} {attempts others : List Rejection}
    (h : Tallies texts Rejection.erase attempt another)
    (hrest : Tallies texts (List.map Rejection.erase) attempts others) :
    Tallies texts (List.map Rejection.erase) (attempt :: attempts) (another :: others) := by
  refine ⟨?_, fun hx => by rw [h.2 hx, hrest.2 hx]⟩
  rw [List.map_cons, List.map_cons, h.1, hrest.1]

/-- One report after the other. -/
theorem Tallies.append {report other more rest : Report}
    (h : Tallies texts Report.erase report other) (hrest : Tallies texts Report.erase more rest) :
    Tallies texts Report.erase (report.append more) (other.append rest) := by
  refine ⟨?_, fun hx => by rw [h.2 hx, hrest.2 hx]⟩
  rw [Report.erase_append, Report.erase_append, h.1, hrest.1]

/-- The attempts of a union under type expressions that are the same if texts count. -/
theorem Tallies.attempts {expected text : String} {attempts others : List Rejection}
    (h : Tallies texts (List.map Rejection.erase) attempts others)
    (hexpected : texts → expected = text) :
    Tallies texts Cause.erase (.noMemberMatched expected attempts)
      (.noMemberMatched text others) := by
  refine ⟨?_, fun hx => by rw [h.2 hx, hexpected hx]⟩
  rw [Cause.erase_noMemberMatched, Cause.erase_noMemberMatched, h.1]

/-- The causes of a failed member. -/
theorem Tallies.causes {causes others : Report} (h : Tallies texts Report.erase causes others)
    (member : Nat) :
    Tallies texts Cause.erase (.memberFailed member causes) (.memberFailed member others) :=
  h.map (Cause.memberFailed member) (Cause.memberFailed member) fun _ =>
    Cause.erase_memberFailed member _

end Tallies

/-- The same cells of the graph of a schema are filled with the same in two stores. -/
def Schema.FilledAlike (targets : Targets) (root : Schema) (s t : Store) : Prop :=
  ∀ r, Reaches targets root (.reference r) → t.peek? r.cell = s.peek? r.cell

section Texts

variable {targets : Targets} {root : Schema} {s t : Store}

/-- A schema reads the same in two stores if the same cells of its graph are filled with the
same. -/
theorem Schema.render_congr (h : FilledAlike targets root s t) (schema : Schema)
    (hr : Reaches targets root schema) : schema.render t = schema.render s := by
  have hpart : ∀ part ∈ schema.parts, part.render t = part.render s :=
    fun part hp => render_congr h part (hr.part hp)
  cases schema with
  | leaf | object | json | any => rw [render, render]
  | list inner | nullable inner | record inner =>
    rw [render, render, hpart inner (List.mem_singleton_self inner)]
  | struct fields =>
    rw [render, render, renderFields_congr fun field hm => hpart _ (List.mem_map_of_mem hm)]
  | union members | intersection members =>
    rw [render, render]
    exact renderMembers_congr _ hpart
  | reference r => rw [render, render, Reference.render, Reference.render, h r hr]
termination_by sizeOf schema
decreasing_by exact sizeOf_part hp

end Texts

/-- Two stores look alike at the cells of a kind: they lead where the graph says, and, if
texts count, the same of them are filled. -/
structure Store.Alike (P : CellId → Prop) (texts : Prop) (targets : Targets) (s t : Store) :
    Prop where
  /-- The first store has the graph. -/
  graph : s.target? = targets
  /-- The second one leads to the same from the cells of the kind. -/
  target : ∀ cell, P cell → t.target? cell = targets cell
  /-- If texts count, the same is known of these cells. -/
  peek : texts → ∀ cell, P cell → t.peek? cell = s.peek? cell

section Alike

variable {P : CellId → Prop} {texts : Prop} {targets : Targets} {s t : Store}

/-- Following a cell in both stores gives the same and leaves them alike. -/
theorem Store.Alike.fetch (h : s.Alike P texts targets t) {cell : CellId} (hc : P cell) :
    (Store.fetch? cell s).1 = targets cell ∧ (Store.fetch? cell t).1 = targets cell ∧
      (Store.fetch? cell s).2.Alike P texts targets (Store.fetch? cell t).2 := by
  refine ⟨by rw [Store.fetch?_fst, h.graph], by rw [Store.fetch?_fst, h.target cell hc], ?_, ?_, ?_⟩
  · rw [Store.target?_fetch?_eq, h.graph]
  · intro other ho
    rw [Store.target?_fetch?, h.target other ho]
  · intro hx other ho
    by_cases heq : other = cell
    · subst heq
      rw [Store.peek?_fetch?, Store.peek?_fetch?, h.graph, h.target other hc]
    · have hpeek := h.peek hx other ho
      rw [Store.peek?, Store.peek?] at hpeek ⊢
      rw [Store.cells_fetch?_of_ne t heq, Store.cells_fetch?_of_ne s heq]
      exact hpeek

/-- Stores that look alike answer a question alike. -/
theorem Asks.alike {α : Type} {ask : StateM Store α} (hask : Asks P targets ask)
    (h : s.Alike P texts targets t) :
    (ask t).1 = (ask s).1 ∧ (ask s).2.Alike P texts targets (ask t).2 := by
  induction hask generalizing s t with
  | pure answer => exact ⟨rfl, h⟩
  | @fetch cell next hc _ ih =>
    obtain ⟨hs, ht, hlater⟩ := h.fetch hc
    rw [Store.fetch?_bind hs, Store.fetch?_bind ht]
    exact ih hlater

/-- A schema reads the same in stores that look alike, if texts count. -/
theorem Store.Alike.render {root schema : Schema} (h : s.Alike P texts targets t)
    (hwithin : root.Within P targets) (hr : Schema.Reaches targets root schema) (hx : texts) :
    schema.render s = schema.render t :=
  (Schema.render_congr (fun r hr => h.peek hx r.cell (hwithin r hr)) schema hr).symm

end Alike

/-- Two sessions whose stores look alike. -/
def Session.Alike (P : CellId → Prop) (texts : Prop) (targets : Targets) (s t : Session) : Prop :=
  s.store.Alike P texts targets t.store

/-- Two runs end abreast: with the same output, or with errors that tally; and the stores
look alike. -/
abbrev Abreast (P : CellId → Prop) (texts : Prop) (targets : Targets) {ε α : Type}
    (erase : ε → ε) : Except ε α × Session → Except ε α × Session → Prop :=
  Beside (Session.Alike P texts targets) (Session.Alike P texts targets) (Tallies texts erase)

/-- The same check from stores that look alike. -/
def abreast (P : CellId → Prop) (texts : Prop) (targets : Targets) (root : Schema) : Pairing where
  rules := Eq
  place := Eq
  within schema := Schema.Reaches targets root schema
  before := Session.Alike P texts targets
  after _ := Session.Alike P texts targets
  report _ := Tallies texts Report.erase
  attempts := Tallies texts (List.map Rejection.erase)

theorem abreast_sound {P : CellId → Prop} {texts : Prop} {targets : Targets} {root : Schema}
    (hwithin : root.Within P targets) : (abreast P texts targets root).Sound where
  policy := by
    rintro rules _ rfl
    rfl
  failFast := by
    rintro rules _ rfl
    rfl
  tooDeep := by
    rintro rules _ here _ rfl rfl
    rfl
  mayEnter := by
    rintro here _ cell rfl
    rfl
  enter := by
    rintro here _ cell rfl
    rfl
  descend := by
    rintro here _ segment rfl
    rfl
  part hr hp := hr.part hp
  child hr hc hm := hr.child hc hm
  fetch := by
    intro r s t hr h
    obtain ⟨hs, ht, hlater⟩ := h.fetch (hwithin r hr)
    exact ⟨targets r.cell, _, _, Prod.ext hs rfl, Prod.ext ht rfl, hlater, fun _ h => hr.target h⟩
  absence := by
    intro schema s t hr h
    obtain ⟨hanswer, hlater⟩ := (hwithin.asks_acceptsAbsentWithin [] schema hr).alike h
    exact ⟨_, _, _, rfl, Prod.ext hanswer rfl, hlater⟩
  verdict h := h
  rejected h := h
  refused := by
    rintro rules _ here _ leaf value cause rfl rfl _
    exact .refl _ _
  bare := by
    rintro _ here _ way cause rfl _
    exact .refl _ _
  deep := by
    rintro rules _ here _ rfl rfl
    exact .refl _ _
  unmatched := by
    rintro _ here _ members s t attempts others rfl hr h he
    exact (he.attempts fun hx => h.render hwithin hr hx).reject here
  failed := by
    rintro _ here _ index causes others rfl he
    exact (he.causes index).reject here
  noAttempts := .refl _ _
  attempt _ he hmore := he.head.cons hmore
  passedOver _ _ _ _ _ h := h
  goOn := by
    rintro rules _ rfl hmode
    exact ⟨hmode, fun _ _ h => h, fun he hmore => he.append hmore⟩
  goAhead := by
    rintro rules _ rfl hmode hother
    exact absurd hother hmode

/-- Validations of one value in sessions that look alike end abreast. -/
theorem Validator.validate_abreast {P : CellId → Prop} {texts : Prop} {targets : Targets}
    (validator : Validator) (value : Json) {s t : Session}
    (hwithin : validator.schema.Within P targets) (h : s.store.Alike P texts targets t.store) :
    Abreast P texts targets Report.erase (validator.validate value s)
      (validator.validate value t) := by
  have hcheck : Abreast P texts targets Report.erase
      (check validator.toRules validator.schema value .root s)
      (check validator.toRules validator.schema value .root t) :=
    (abreast_sound hwithin).holds ⟨rfl, rfl, h⟩ .root
  rw [Validator.validate_eq, Validator.validate_eq]
  generalize check validator.toRules validator.schema value .root s = first at hcheck ⊢
  generalize check validator.toRules validator.schema value .root t = second at hcheck ⊢
  cases hcheck with
  | ok h => exact .ok h
  | error he h => exact .error he h

end Conformance
