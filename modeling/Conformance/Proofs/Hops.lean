import Mathlib.Data.List.Nodup
import Conformance.Proofs.Absence
import Conformance.Proofs.Walk

/-!
# Chains of references

A chain of references leads from a schema to a concrete one, or to a reference that leads
nowhere, or it has no end. Three recursions follow chains under one bound, and they count
differently: the check and the question of absence count the references that they follow,
resolution counts the schemas that it looks at. So resolution gives the end of a chain of
fewer references than the bound, and the other two follow one reference more.
-/

namespace Conformance

namespace Schema

/-- Whether a schema is a reference; every other schema is concrete. -/
def isReference : Schema → Bool
  | .reference _ => true
  | _ => false

/-- References lead from a schema to another, through the cells in the list, the first one
first. -/
inductive LeadsThrough (targets : Targets) : List CellId → Schema → Schema → Prop
  /-- Without references a schema is where it is. -/
  | here {schema : Schema} : LeadsThrough targets [] schema schema
  /-- A reference leads to where the schema in its cell does. -/
  | follow {cells : List CellId} {r : Reference} {target last : Schema}
    (ht : targets r.cell = some target) (h : LeadsThrough targets cells target last) :
    LeadsThrough targets (r.cell :: cells) (.reference r) last

/-- The chain of a schema comes to a reference that leads nowhere. -/
def Dangles (targets : Targets) (schema : Schema) : Prop :=
  ∃ cells r, LeadsThrough targets cells schema (.reference r) ∧ targets r.cell = none

/-- The chain of a schema goes on after any number of references. -/
def Endless (targets : Targets) (schema : Schema) : Prop :=
  ∀ n, ∃ cells r, cells.length = n ∧ LeadsThrough targets cells schema (.reference r)

section Chains

variable {targets : Targets} {cells : List CellId} {schema last : Schema}

/-- A schema that is no reference is concrete in the eyes of a match on its kind. -/
theorem ne_reference (hc : schema.isReference = false) (r : Reference) :
    schema ≠ .reference r := by
  rintro rfl
  cases hc

/-- Chains compose. -/
theorem LeadsThrough.append {more : List CellId} {between : Schema}
    (h : LeadsThrough targets cells schema between)
    (hmore : LeadsThrough targets more between last) :
    LeadsThrough targets (cells ++ more) schema last := by
  induction h with
  | here => exact hmore
  | follow ht _ ih => exact .follow ht (ih hmore)

/-- From a concrete schema no reference leads on. -/
theorem LeadsThrough.eq_of_concrete (h : LeadsThrough targets cells schema last)
    (hc : schema.isReference = false) : cells = [] ∧ last = schema := by
  cases h with
  | here => exact ⟨rfl, rfl⟩
  | follow => cases hc

/-- Of two chains from one schema one goes on where the other ends. -/
theorem LeadsThrough.linear {others : List CellId} {other : Schema}
    (h : LeadsThrough targets cells schema last)
    (hother : LeadsThrough targets others schema other) :
    (∃ more, others = cells ++ more ∧ LeadsThrough targets more last other) ∨
      ∃ more, cells = others ++ more ∧ LeadsThrough targets more other last := by
  induction h generalizing others with
  | here => exact .inl ⟨others, rfl, hother⟩
  | @follow cells r target last ht h ih =>
    cases hother with
    | here => exact .inr ⟨r.cell :: cells, rfl, .follow ht h⟩
    | @follow others _ target' _ ht' hother =>
      cases ht.symm.trans ht'
      rcases ih hother with ⟨more, rfl, hmore⟩ | ⟨more, rfl, hmore⟩
      · exact .inl ⟨more, rfl, hmore⟩
      · exact .inr ⟨more, rfl, hmore⟩

/-- The chain that ends in a concrete schema goes through the cells of every other one. -/
theorem LeadsThrough.extends {others : List CellId} {other : Schema}
    (h : LeadsThrough targets cells schema last) (hc : last.isReference = false)
    (hother : LeadsThrough targets others schema other) :
    ∃ more, cells = others ++ more ∧ LeadsThrough targets more other last := by
  rcases h.linear hother with ⟨more, rfl, hmore⟩ | hmore
  · obtain ⟨rfl, rfl⟩ := hmore.eq_of_concrete hc
    exact ⟨[], by simp, .here⟩
  · exact hmore

/-- A schema has one chain to a concrete schema at most. -/
theorem LeadsThrough.unique {others : List CellId} {other : Schema}
    (h : LeadsThrough targets cells schema last) (hc : last.isReference = false)
    (hother : LeadsThrough targets others schema other) (hc' : other.isReference = false) :
    others = cells ∧ other = last := by
  obtain ⟨more, rfl, hmore⟩ := h.extends hc hother
  obtain ⟨rfl, rfl⟩ := hmore.eq_of_concrete hc'
  exact ⟨by simp, rfl⟩

/-- What a chain goes through leads on to its end. -/
theorem LeadsThrough.of_mem {cell : CellId} (h : LeadsThrough targets cells schema last)
    (hm : cell ∈ cells) :
    ∃ before target after, cells = before ++ cell :: after ∧ targets cell = some target ∧
      LeadsThrough targets after target last := by
  induction h with
  | here => cases hm
  | @follow cells r target last ht h ih =>
    rcases List.mem_cons.mp hm with rfl | hm
    · exact ⟨[], target, cells, rfl, ht, h⟩
    · obtain ⟨before, inner, after, rfl, hinner, hafter⟩ := ih hm
      exact ⟨r.cell :: before, inner, after, rfl, hinner, hafter⟩

/-- A chain that ends in a concrete schema goes through no cell twice. -/
theorem LeadsThrough.nodup (h : LeadsThrough targets cells schema last)
    (hc : last.isReference = false) : cells.Nodup := by
  induction h with
  | here => exact List.nodup_nil
  | @follow cells r target last ht h ih =>
    refine List.nodup_cons.mpr ⟨fun hm => ?_, ih hc⟩
    -- the chain behind the second time is the chain behind the first, and it is shorter
    obtain ⟨before, inner, after, hcells, hinner, hafter⟩ := h.of_mem hm
    cases ht.symm.trans hinner
    obtain ⟨heq, _⟩ := h.unique hc hafter hc
    have hlength := congrArg List.length hcells
    rw [heq, List.length_append, List.length_cons] at hlength
    omega

/-- A chain ends in a concrete schema, or it dangles, or it has no end. -/
theorem dangles_or_endless_or_concrete (targets : Targets) (schema : Schema) :
    schema.Dangles targets ∨ schema.Endless targets ∨
      ∃ cells last, last.isReference = false ∧ LeadsThrough targets cells schema last := by
  by_cases hd : schema.Dangles targets
  · exact .inl hd
  by_cases hc : ∃ cells last, last.isReference = false ∧ LeadsThrough targets cells schema last
  · exact .inr (.inr hc)
  refine .inr (.inl fun n => ?_)
  have hreference : ∀ cells other, LeadsThrough targets cells schema other →
      ∃ r, other = .reference r := by
    intro cells other h
    cases other with
    | reference r => exact ⟨r, rfl⟩
    | _ => exact absurd ⟨cells, _, rfl, h⟩ hc
  induction n with
  | zero =>
    obtain ⟨r, hr⟩ := hreference [] schema .here
    exact ⟨[], r, rfl, by rw [hr]; exact .here⟩
  | succ n ih =>
    obtain ⟨cells, r, hlength, h⟩ := ih
    cases ht : targets r.cell with
    | none => exact absurd ⟨cells, r, h, ht⟩ hd
    | some target =>
      have hmore := h.append (.follow ht .here)
      obtain ⟨s, rfl⟩ := hreference _ target hmore
      exact ⟨cells ++ [r.cell], s, by simp [hlength], hmore⟩

/-- A chain with an end in a concrete schema does not dangle. -/
theorem LeadsThrough.not_dangles (h : LeadsThrough targets cells schema last)
    (hc : last.isReference = false) : ¬schema.Dangles targets := by
  rintro ⟨others, r, hother, ht⟩
  obtain ⟨more, -, hmore⟩ := h.extends hc hother
  cases hmore with
  | here => cases hc
  | follow ht' _ => cases ht.symm.trans ht'

/-- A chain with an end in a concrete schema does not go on for ever. -/
theorem LeadsThrough.not_endless (h : LeadsThrough targets cells schema last)
    (hc : last.isReference = false) : ¬schema.Endless targets := by
  intro hendless
  obtain ⟨others, r, hlength, hother⟩ := hendless (cells.length + 1)
  obtain ⟨more, hcells, -⟩ := h.extends hc hother
  have := congrArg List.length hcells
  rw [List.length_append] at this
  omega

end Chains

section Resolution

variable {last : Schema}

/-- A concrete schema is its own resolution, if schemas may be looked at. -/
theorem resolveWithin?_concrete {schema : Schema} (hops : Nat) (store : Store)
    (hc : schema.isReference = false) :
    (schema.resolveWithin? (hops + 1) store).1 = some schema := by
  rw [resolveWithin?]
  · rfl
  · exact ne_reference hc

/-- The resolution of a reference is that of what is in its cell, with one schema less to look
at. -/
theorem resolveWithin?_reference (hops : Nat) (store : Store) (r : Reference) :
    ((Schema.reference r).resolveWithin? (hops + 1) store).1 =
      (store.target? r.cell).bind fun target =>
        (target.resolveWithin? hops (Store.fetch? r.cell store).2).1 := by
  have hf : Store.fetch? r.cell store = (store.target? r.cell, (Store.fetch? r.cell store).2) :=
    Prod.ext (Store.fetch?_fst store r.cell) rfl
  simp only [resolveWithin?, bind, StateT.bind]
  rw [hf]
  cases store.target? r.cell <;> rfl

/-- Resolution that may look at so many schemas gives the concrete one at the end of a chain
of fewer references. -/
theorem resolveWithin?_eq_some_iff (hops : Nat) (schema : Schema) (store : Store) :
    (schema.resolveWithin? hops store).1 = some last ↔ last.isReference = false ∧
      ∃ cells, cells.length < hops ∧ LeadsThrough store.target? cells schema last := by
  induction hops generalizing schema store with
  | zero =>
    constructor
    · intro h
      cases h
    · rintro ⟨-, cells, hlength, -⟩
      exact absurd hlength (Nat.not_lt_zero _)
  | succ hops ih =>
    by_cases hs : schema.isReference
    · obtain ⟨r, rfl⟩ : ∃ r, schema = .reference r := by
        cases schema with
        | reference r => exact ⟨r, rfl⟩
        | _ => cases hs
      rw [resolveWithin?_reference, Option.bind_eq_some_iff]
      constructor
      · rintro ⟨target, ht, h⟩
        obtain ⟨hc, cells, hlength, h⟩ := (ih target _).mp h
        rw [Store.target?_fetch?_eq] at h
        exact ⟨hc, r.cell :: cells, Nat.succ_lt_succ hlength, .follow ht h⟩
      · rintro ⟨hc, cells, hlength, h⟩
        cases h with
        | here => cases hc
        | follow ht h =>
          refine ⟨_, ht, (ih _ _).mpr ⟨hc, _, Nat.lt_of_succ_lt_succ hlength, ?_⟩⟩
          rwa [Store.target?_fetch?_eq]
    · have hconcrete : schema.isReference = false := by simpa using hs
      rw [resolveWithin?_concrete hops store hconcrete]
      constructor
      · rintro ⟨⟩
        exact ⟨hconcrete, [], Nat.succ_pos _, .here⟩
      · rintro ⟨-, cells, -, h⟩
        rw [(h.eq_of_concrete hconcrete).2]

/-- Resolution gives nothing for a chain that dangles or has no end, and for one that has as
many references as the bound says. -/
theorem resolve?_eq_none_iff (schema : Schema) (store : Store) :
    (schema.resolve? store).1 = none ↔ schema.Dangles store.target? ∨
      schema.Endless store.target? ∨ ∃ cells last, last.isReference = false ∧
        LeadsThrough store.target? cells schema last ∧ maxHops ≤ cells.length := by
  constructor
  · intro hnone
    refine (dangles_or_endless_or_concrete store.target? schema).imp_right (.imp_right ?_)
    rintro ⟨cells, last, hc, h⟩
    refine ⟨cells, last, hc, h, Nat.le_of_not_lt fun hlength => ?_⟩
    have hsome := (resolveWithin?_eq_some_iff maxHops schema store).mpr ⟨hc, cells, hlength, h⟩
    cases hsome.symm.trans hnone
  · intro h
    cases hresolve : (schema.resolve? store).1 with
    | none => rfl
    | some found =>
      obtain ⟨hc, cells, hlength, hfound⟩ :=
        (resolveWithin?_eq_some_iff maxHops schema store).mp hresolve
      rcases h with h | h | ⟨others, last, hc', h, hlong⟩
      · exact absurd h (hfound.not_dangles hc)
      · exact absurd h (hfound.not_endless hc)
      · rw [(hfound.unique hc h hc').1] at hlong
        omega

end Resolution

section Following

variable {targets : Targets} {cells entered : List CellId} {schema last : Schema}

/-- Following the first reference of a chain adds it to those being followed, which leaves
the row of all of them as it is. -/
theorem reverse_cons_append (cell : CellId) (cells entered : List CellId) :
    (cell :: cells).reverse ++ entered = cells.reverse ++ cell :: entered := by
  rw [List.reverse_cons, List.append_assoc]
  rfl

/-- A reference may be followed if all that will be followed are distinct and not too many. -/
theorem mayFollow_of_nodup {cell : CellId} (hnodup : (cells.reverse ++ cell :: entered).Nodup)
    (hlength : (cells.reverse ++ cell :: entered).length ≤ maxHops) :
    entered.length < maxHops ∧ cell ∉ entered := by
  rw [List.length_append, List.length_cons] at hlength
  exact ⟨by omega, (List.nodup_cons.mp hnodup.of_append_right).1⟩

/-- The question of absence follows a chain to its end, if no reference on it is being
followed already and there are not too many. -/
theorem LeadsThrough.absentWithin (h : LeadsThrough targets cells schema last)
    (hnodup : (cells.reverse ++ entered).Nodup)
    (hlength : (cells.reverse ++ entered).length ≤ maxHops) :
    schema.absentWithin targets entered =
      last.absentWithin targets (cells.reverse ++ entered) := by
  induction h generalizing entered with
  | here => rfl
  | follow ht _ ih =>
    rw [reverse_cons_append] at hnodup hlength ⊢
    rw [Schema.absentWithin, if_pos (mayFollow_of_nodup hnodup hlength), ht]
    exact ih hnodup hlength

/-- The question of absence gives up on a chain of too many references. -/
theorem LeadsThrough.absentWithin_of_long (h : LeadsThrough targets cells schema last)
    (hentered : entered.length ≤ maxHops) (hlength : maxHops < entered.length + cells.length) :
    schema.absentWithin targets entered = false := by
  induction h generalizing entered with
  | here =>
    rw [List.length_nil] at hlength
    omega
  | follow ht _ ih =>
    rw [List.length_cons] at hlength
    rw [Schema.absentWithin]
    split
    · next henter =>
      rw [ht]
      exact ih (by rw [List.length_cons]; omega) (by rw [List.length_cons]; omega)
    · rfl

/-- A check follows a chain to its end, if no reference on it is being followed already and
there are not too many. -/
theorem LeadsThrough.check (h : LeadsThrough targets cells schema last)
    (hnodup : (cells.reverse ++ entered).Nodup)
    (hlength : (cells.reverse ++ entered).length ≤ maxHops) (rules : Rules) (value : Json)
    (path : Path) {session : Session} (hs : session.store.target? = targets) :
    ∃ later : Session, later.store.target? = targets ∧
      check rules schema value ⟨path, entered⟩ session =
        check rules last value ⟨path, cells.reverse ++ entered⟩ later := by
  induction h generalizing entered session with
  | here => exact ⟨session, hs, rfl⟩
  | @follow cells r target last ht _ ih =>
    rw [reverse_cons_append] at hnodup hlength ⊢
    have henter : Position.mayEnter ⟨path, entered⟩ r.cell := mayFollow_of_nodup hnodup hlength
    obtain ⟨between, hf, hbetween⟩ := Session.onStore_fetch? session r.cell
    rw [check_reference rules value _ session henter, hf, hs, ht]
    exact ih hnodup hlength (hbetween.trans hs)

/-- A check gives up on a chain of too many references and reports a cycle. -/
theorem LeadsThrough.check_of_long (h : LeadsThrough targets cells schema last)
    (hentered : entered.length ≤ maxHops) (hlength : maxHops < entered.length + cells.length)
    (rules : Rules) (value : Json) (path : Path) {session : Session}
    (hs : session.store.target? = targets) :
    (Conformance.check rules schema value ⟨path, entered⟩ session).1 =
      .error (.singleton ⟨path, .cyclicReference⟩) := by
  induction h generalizing entered session with
  | here =>
    rw [List.length_nil] at hlength
    omega
  | @follow cells r target last ht _ ih =>
    rw [List.length_cons] at hlength
    by_cases henter : Position.mayEnter ⟨path, entered⟩ r.cell
    · have hentered' : (r.cell :: entered).length ≤ maxHops := henter.1
      have hlength' : maxHops < (r.cell :: entered).length + cells.length := by
        rw [List.length_cons]
        omega
      obtain ⟨between, hf, hbetween⟩ := Session.onStore_fetch? session r.cell
      rw [check_reference rules value _ session henter, hf, hs, ht]
      exact ih hentered' hlength' (hbetween.trans hs)
    · rw [check_reference_blocked rules value _ session henter]
      rfl

end Following

/-- Whether a schema accepts absence while references are being followed is read off the
graph. -/
theorem acceptsAbsentWithin_fst (entered : List CellId) (schema : Schema) (store : Store) :
    (schema.acceptsAbsentWithin entered store).1 = schema.absentWithin store.target? entered := by
  obtain ⟨later, h, _⟩ := reads_acceptsAbsentWithin entered schema store
  rw [h]

/-- Resolution gives exactly the concrete schemas at the end of a chain of fewer references
than the bound, and nothing for a chain that dangles, has no end or has at least so many. The
question of absence and the check go on to the end of a chain whose references are no more
than the bound, so they follow one reference more than resolution; on a longer chain they give
up. -/
theorem resolution_stops_one_short (schema : Schema) (session : Session) :
    (∀ last, (schema.resolve? session.store).1 = some last ↔ last.isReference = false ∧
      ∃ cells, cells.length < maxHops ∧
        LeadsThrough session.store.target? cells schema last) ∧
    ((schema.resolve? session.store).1 = none ↔ schema.Dangles session.store.target? ∨
      schema.Endless session.store.target? ∨ ∃ cells last, last.isReference = false ∧
        LeadsThrough session.store.target? cells schema last ∧ maxHops ≤ cells.length) ∧
    ∀ cells last, last.isReference = false →
      LeadsThrough session.store.target? cells schema last →
      (cells.length ≤ maxHops →
        (schema.acceptsAbsent session.store).1 =
          (last.acceptsAbsentWithin cells.reverse session.store).1 ∧
        ∀ rules value path, ∃ later : Session, later.store.target? = session.store.target? ∧
          check rules schema value ⟨path, []⟩ session =
            check rules last value ⟨path, cells.reverse⟩ later) ∧
      (maxHops < cells.length → (schema.acceptsAbsent session.store).1 = false ∧
        ∀ rules value path, (check rules schema value ⟨path, []⟩ session).1 =
          .error (.singleton ⟨path, .cyclicReference⟩)) := by
  refine ⟨fun last => resolveWithin?_eq_some_iff maxHops schema session.store,
    resolve?_eq_none_iff schema session.store, fun cells last hc h => ⟨fun hlength => ?_,
      fun hlength => ?_⟩⟩
  · have hnodup : (cells.reverse ++ []).Nodup := by
      rw [List.append_nil]
      exact List.nodup_reverse.mpr (h.nodup hc)
    have hbound : (cells.reverse ++ []).length ≤ maxHops := by simpa using hlength
    constructor
    · rw [acceptsAbsent_fst, acceptsAbsentWithin_fst, h.absentWithin hnodup hbound,
        List.append_nil]
    · intro rules value path
      simpa only [List.append_nil] using h.check hnodup hbound rules value path rfl
  · have hbound : maxHops < ([] : List CellId).length + cells.length := by simpa using hlength
    constructor
    · rw [acceptsAbsent_fst, h.absentWithin_of_long (Nat.zero_le _) hbound]
    · intro rules value path
      exact h.check_of_long (Nat.zero_le _) hbound rules value path rfl

/-- So many delayed schemas, each of which delays the next one, and the last one a given
schema. -/
def delays (length : Nat) (last : Schema) : Store :=
  { Store.empty with
    size := length
    cells := fun cell =>
      .pending (.constant (if cell + 1 < length then .reference ⟨cell + 1, .thunk⟩ else last) none) }

/-- From each of the delayed schemas those behind it lead to the last one. -/
theorem delays_leadsThrough {length : Nat} (last : Schema) (count start : Nat)
    (h : start + count + 1 = length) :
    LeadsThrough (delays length last).target? (List.range' start (count + 1))
      (.reference ⟨start, .thunk⟩) last := by
  induction count generalizing start with
  | zero =>
    have hend : ¬start + 1 < length := by omega
    have ht : (delays length last).target? start = some last := by
      simp [Store.target?, delays, Resolver.schema, hend]
    exact .follow (r := ⟨start, .thunk⟩) ht .here
  | succ count ih =>
    have hmore : start + 1 < length := by omega
    have ht : (delays length last).target? start = some (.reference ⟨start + 1, .thunk⟩) := by
      simp [Store.target?, delays, Resolver.schema, hmore]
    exact .follow (r := ⟨start, .thunk⟩) ht (ih (start + 1) (by omega))

/-- Thirty-two references lead to the schema of all values, so it is found to accept absence
and null. -/
theorem delays_followed :
    LeadsThrough (delays 32 .any).target? (List.range' 0 32) (.reference ⟨0, .thunk⟩) .any ∧
      ((Schema.reference ⟨0, .thunk⟩).acceptsAbsent (delays 32 .any)).1 = true ∧
      (check ⟨.strict, .failFast, 0⟩ (.reference ⟨0, .thunk⟩) .null ⟨[], []⟩
        ⟨delays 32 .any, #[]⟩).1 = .ok .null := by
  have hchain := delays_leadsThrough .any 31 0 rfl
  obtain ⟨-, -, hfollowed⟩ :=
    resolution_stops_one_short (.reference ⟨0, .thunk⟩) ⟨delays 32 .any, #[]⟩
  obtain ⟨habsent, hcheck⟩ := (hfollowed (List.range' 0 32) .any rfl hchain).1 (by decide)
  refine ⟨hchain, ?_, ?_⟩
  · rw [habsent, acceptsAbsentWithin]
    rfl
  · obtain ⟨later, -, hrun⟩ := hcheck ⟨.strict, .failFast, 0⟩ .null []
    rw [hrun, check_plain _ _ _ _ rfl rfl]

/-- Thirty-two references lead to the schema of all values. They are no more than the bound,
and resolution gives nothing. -/
theorem delays_unresolved :
    LeadsThrough (delays 32 .any).target? (List.range' 0 32) (.reference ⟨0, .thunk⟩) .any ∧
      (List.range' 0 32).length ≤ maxHops ∧
      ((Schema.reference ⟨0, .thunk⟩).resolve? (delays 32 .any)).1 = none := by
  have hchain := delays_leadsThrough .any 31 0 rfl
  refine ⟨hchain, by decide, (resolve?_eq_none_iff _ _).mpr (.inr (.inr ?_))⟩
  exact ⟨List.range' 0 32, .any, rfl, hchain, by decide⟩

end Schema

end Conformance
