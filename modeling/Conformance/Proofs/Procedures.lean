import Conformance.Proofs.WriteOnce
import Conformance.Store.Procedures

/-!
# Resolvers that follow references give what they would give at once

A resolver that follows references may be run early or late, and the cells that it follows may
be filled before it or by it: it gives the same schema. So it may be described by a resolver that
follows nothing and gives this schema at once, and what is shown of stores of such resolvers
holds where resolvers follow references: following a cell then comes to following some cells of
the described store, one after the other, the cell itself the last of them.
-/

namespace Conformance

namespace Store

variable {P Q : CellId → Prop} {start later : Store}

/-- What is bound to names stays bound while cells are followed. -/
theorem Follows.bindings (h : start.Follows P later) : later.bindings = start.bindings := by
  induction h with
  | start => rfl
  | @step store cell _ _ ih => rw [(bindings_fetch? store cell).1, ih]

/-- A cell that is not followed stays in its state. -/
theorem Follows.cells (h : start.Follows P later) {cell : CellId} (hcell : ¬P cell) :
    later.cells cell = start.cells cell := by
  induction h with
  | start => rfl
  | @step store other _ hc ih =>
    have hne : cell ≠ other := fun heq => hcell (heq ▸ hc)
    rw [cells_fetch?_of_ne store hne, ih]

/-- A cell that is pending after others were followed was so from the start. -/
theorem Follows.pending (h : start.Follows P later) {cell : CellId} {resolver : Resolver}
    (hcell : later.cells cell = .pending resolver) : start.cells cell = .pending resolver := by
  induction h with
  | start => exact hcell
  | @step store other _ _ ih =>
    refine ih ?_
    by_cases heq : cell = other
    · subst heq
      cases hstate : store.cells cell <;> simp_all [fetch?, runResolver, setCell]
    · rwa [cells_fetch?_of_ne store heq] at hcell

/-- Cells that are followed are followed among more. -/
theorem Follows.mono (h : start.Follows P later) (hsub : ∀ cell, P cell → Q cell) :
    start.Follows Q later := by
  induction h with
  | start => exact .start
  | step _ hc ih => exact ih.step (hsub _ hc)

/-- The resolvers of a store describe procedures: each gives at once what the procedure of its
cell comes to. -/
def Describes (store : Store) (procedures : CellId → Procedure) : Prop :=
  ∀ cell resolver, store.cells cell = .pending resolver → resolver.schema store.bindings =
    (procedures cell).outcome store.bindings store.target?

variable {procedures : CellId → Procedure}

/-- Following cells leaves the procedures described. -/
theorem Describes.follows (h : start.Describes procedures) (hfollows : start.Follows P later) :
    later.Describes procedures := by
  intro cell resolver hcell
  rw [hfollows.bindings, hfollows.target?]
  exact h cell resolver (hfollows.pending hcell)

end Store

/-- A way to follow cells is that of the described store, while some procedures are running: it
gives what a cell leads to, leaves that in the cell, and leaves the cells of the running
procedures alone. -/
def FollowsAsDescribed (procedures : CellId → Procedure) (running : List CellId)
    (follow : CellId → StateT Store Option (Option Schema)) : Prop :=
  ∀ cell found (store later : Store), store.Describes procedures →
    follow cell store = some (found, later) →
      found = store.target? cell ∧ later.peek? cell = store.target? cell ∧
        store.Follows (· ∉ running) later

section Runs

variable {procedures : CellId → Procedure} {running : List CellId}
  {follow : CellId → StateT Store Option (Option Schema)}

/-- A procedure that runs through comes to its outcome. -/
theorem Procedure.run_described (hfollow : FollowsAsDescribed procedures running follow)
    (procedure : Procedure) {store later : Store} {schema : Schema}
    (hstore : store.Describes procedures)
    (h : procedure.run follow store = some (schema, later)) :
    schema = procedure.outcome store.bindings store.target? ∧
      store.Follows (· ∉ running) later := by
  induction procedure generalizing store with
  | give result =>
    obtain ⟨rfl, rfl⟩ := Prod.mk.inj (Option.some.inj h)
    exact ⟨rfl, .start⟩
  | lookUp name next ih => exact ih _ hstore h
  | follow cell next ih =>
    obtain ⟨⟨found, behind⟩, hfound, hnext⟩ := Option.bind_eq_some_iff.mp h
    obtain ⟨rfl, -, hbehind⟩ := hfollow cell found store behind hstore hfound
    obtain ⟨houtcome, hlater⟩ := ih _ (hstore.follows hbehind) hnext
    rw [hbehind.bindings, hbehind.target?] at houtcome
    exact ⟨houtcome, hbehind.trans hlater⟩

/-- A pending cell is filled with what its procedure gives, unless that is running already. -/
theorem Store.followNested?_pending (budget : Nat) {store : Store} {cell : CellId}
    {resolver : Resolver} (hcell : store.cells cell = .pending resolver) :
    Store.followNested? procedures (budget + 1) running cell store =
      if cell ∈ running then none
      else ((procedures cell).run
        (Store.followNested? procedures budget (cell :: running)) store).map fun result =>
          (some result.1, { result.2.setCell cell (.filled result.1) with
            runs := result.2.runs ++ [⟨cell, resolver.counter⟩] }) := by
  unfold Store.followNested?
  simp only [hcell]
  cases (procedures cell).run (Store.followNested? procedures budget (cell :: running)) store <;> rfl

/-- A cell that is not pending is read. -/
theorem Store.followNested?_of_not_pending (budget : Nat) {store : Store} {cell : CellId}
    (hcell : ∀ resolver, store.cells cell ≠ .pending resolver) :
    Store.followNested? procedures (budget + 1) running cell store =
      some (store.target? cell, store) := by
  have hread : store.peek? cell = store.target? cell := by
    rw [← Store.peek?_fetch?, Store.fetch?_of_not_pending hcell]
  unfold Store.followNested?
  rw [← hread]
  cases h : store.cells cell with
  | pending resolver => exact absurd h (hcell resolver)
  | undefined | filled | released => rfl

/-- A cell that was pending while its procedure ran is filled as the described store fills it. -/
theorem Store.Describes.fill {store later : Store} {cell : CellId} {resolver : Resolver}
    (hstore : store.Describes procedures) (hcell : store.cells cell = .pending resolver)
    (hlater : store.Follows (· ∉ cell :: running) later) (hrunning : cell ∉ running) :
    store.target? cell = some ((procedures cell).outcome store.bindings store.target?) ∧
      store.Follows (· ∉ running) { later.setCell cell
          (.filled ((procedures cell).outcome store.bindings store.target?)) with
        runs := later.runs ++ [⟨cell, resolver.counter⟩] } := by
  have houtcome := hstore cell resolver hcell
  have hpending : later.cells cell = .pending resolver := by
    rw [hlater.cells (not_not_intro List.mem_cons_self), hcell]
  have hfetch : (Store.fetch? cell later).2 = later.runResolver cell resolver := by
    unfold Store.fetch?
    rw [hpending]
  have hothers := hlater.mono fun other ho hm => ho (List.mem_cons_of_mem cell hm)
  have hfilled := hothers.step hrunning
  rw [hfetch, Store.runResolver, hlater.bindings, houtcome] at hfilled
  refine ⟨?_, hfilled⟩
  rw [Store.target?, hcell, ← houtcome]

/-- Following cells with nested runs of procedures is following them as described. -/
theorem Store.followNested?_described (budget : Nat) (running : List CellId) :
    FollowsAsDescribed procedures running (Store.followNested? procedures budget running) := by
  induction budget generalizing running with
  | zero => exact fun cell found store later _ h => by cases h
  | succ budget ih =>
    intro cell found store later hstore h
    by_cases hcell : ∃ resolver, store.cells cell = .pending resolver
    · obtain ⟨resolver, hcell⟩ := hcell
      rw [Store.followNested?_pending budget hcell] at h
      by_cases hrunning : cell ∈ running
      · rw [if_pos hrunning] at h
        cases h
      · rw [if_neg hrunning] at h
        obtain ⟨⟨schema, behind⟩, hrun, hfilled⟩ := Option.map_eq_some_iff.mp h
        obtain ⟨rfl, rfl⟩ := Prod.mk.inj hfilled
        obtain ⟨rfl, hbehind⟩ := (procedures cell).run_described (ih (cell :: running)) hstore hrun
        obtain ⟨htarget, hlater⟩ := hstore.fill hcell hbehind hrunning
        refine ⟨htarget.symm, ?_, hlater⟩
        rw [htarget]
        simp [Store.peek?, Store.setCell]
    · have hread := not_exists.mp hcell
      rw [Store.followNested?_of_not_pending budget hread] at h
      obtain ⟨rfl, rfl⟩ := Prod.mk.inj (Option.some.inj h)
      refine ⟨rfl, ?_, .start⟩
      rw [← Store.peek?_fetch?, Store.fetch?_of_not_pending hread]

/-- A procedure runs through if following the cells that it follows has an outcome. -/
theorem Procedure.run_isSome {P : CellId → Prop}
    (hfollow : ∀ cell, P cell → ∀ store, (follow cell store).isSome) {procedure : Procedure}
    (honly : procedure.FollowsOnly P) (store : Store) : (procedure.run follow store).isSome := by
  induction procedure generalizing store with
  | give => rfl
  | lookUp name next ih => exact ih _ (honly _) store
  | follow cell next ih =>
    obtain ⟨⟨found, later⟩, hfound⟩ := Option.isSome_iff_exists.mp (hfollow cell honly.1 store)
    have hnext : (Procedure.follow cell next).run follow store = (next found).run follow later := by
      rw [run]
      simp only [bind, StateT.bind, hfound, Option.bind_some]
    rw [hnext]
    exact ih found (honly.2 found) later

/-- Following a cell has an outcome if every procedure follows cells of a lower rank only, as
those that were there before its own, and if the budget exceeds the rank of the cell. -/
theorem Store.followNested?_isSome {rank : CellId → Nat}
    (hrank : ∀ cell, (procedures cell).FollowsOnly (rank · < rank cell)) {budget : Nat}
    {cell : CellId} (hbudget : rank cell < budget)
    (hrunning : ∀ other ∈ running, rank cell < rank other) (store : Store) :
    (Store.followNested? procedures budget running cell store).isSome := by
  induction budget generalizing running cell store with
  | zero => omega
  | succ budget ih =>
    by_cases hcell : ∃ resolver, store.cells cell = .pending resolver
    · obtain ⟨resolver, hcell⟩ := hcell
      have hnot : cell ∉ running := fun hm => Nat.lt_irrefl _ (hrunning cell hm)
      have hnested : ∀ other, rank other < rank cell → ∀ behind,
          (Store.followNested? procedures budget (cell :: running) other behind).isSome :=
        fun other ho => ih (by omega) (List.forall_mem_cons.mpr
          ⟨ho, fun run hm => Nat.lt_trans ho (hrunning run hm)⟩)
      rw [Store.followNested?_pending budget hcell, if_neg hnot, Option.isSome_map]
      exact Procedure.run_isSome hnested (hrank cell) store
    · rw [Store.followNested?_of_not_pending budget (not_exists.mp hcell)]
      rfl

end Runs

section Descriptions

variable {procedures : CellId → Procedure} {rank : CellId → Nat}

/-- What a procedure gives depends on the cells that it follows only. -/
theorem Procedure.outcome_congr {P : CellId → Prop} {bindings : List (String × Schema)}
    {targets others : CellId → Option Schema} (h : ∀ cell, P cell → targets cell = others cell)
    {procedure : Procedure} (honly : procedure.FollowsOnly P) :
    procedure.outcome bindings targets = procedure.outcome bindings others := by
  induction procedure with
  | give => rfl
  | lookUp name next ih => exact ih _ (honly _)
  | follow cell next ih =>
    rw [outcome, outcome, h cell honly.1]
    exact ih _ (honly.2 _)

/-- What a cell leads to if procedures are nested in one another up to some depth. -/
def Store.nestedTarget? (procedures : CellId → Procedure) (store : Store) :
    Nat → CellId → Option Schema
  | 0, _ => none
  | depth + 1, cell =>
    match store.cells cell with
    | .pending _ =>
      some ((procedures cell).outcome store.bindings (store.nestedTarget? procedures depth))
    | _ => store.peek? cell

/-- A depth that exceeds the rank of a cell is as good as any other. -/
theorem Store.nestedTarget?_eq (hrank : ∀ cell, (procedures cell).FollowsOnly (rank · < rank cell))
    (store : Store) {depth other : Nat} {cell : CellId} (hdepth : rank cell < depth)
    (hother : rank cell < other) :
    store.nestedTarget? procedures depth cell = store.nestedTarget? procedures other cell := by
  induction depth generalizing other cell with
  | zero => omega
  | succ depth ih =>
    cases other with
    | zero => omega
    | succ other =>
      have hlower : ∀ lower, rank lower < rank cell →
          store.nestedTarget? procedures depth lower =
            store.nestedTarget? procedures other lower :=
        fun lower hl => ih (by omega) (by omega)
      rw [Store.nestedTarget?, Store.nestedTarget?, Procedure.outcome_congr hlower (hrank cell)]

/-- The store whose resolvers give at once what the procedures come to. -/
def Store.described (procedures : CellId → Procedure) (rank : CellId → Nat) (store : Store) :
    Store :=
  { store with cells := fun cell =>
      match store.cells cell with
      | .pending resolver => .pending (.constant ((procedures cell).outcome store.bindings
          (store.nestedTarget? procedures (rank cell))) resolver.counter)
      | state => state }

/-- In the described store cells lead where nested runs of the procedures come to. -/
theorem Store.target?_described (store : Store) (cell : CellId) :
    (store.described procedures rank).target? cell =
      store.nestedTarget? procedures (rank cell + 1) cell := by
  rw [Store.nestedTarget?, Store.target?, Store.described]
  cases h : store.cells cell <;> simp [Store.peek?, h, Resolver.schema]

/-- The described store describes the procedures. -/
theorem Store.described_describes
    (hrank : ∀ cell, (procedures cell).FollowsOnly (rank · < rank cell)) (store : Store) :
    (store.described procedures rank).Describes procedures := by
  intro cell resolver hcell
  have hlower : ∀ lower, rank lower < rank cell →
      store.nestedTarget? procedures (rank cell) lower =
        (store.described procedures rank).target? lower := by
    intro lower hl
    rw [Store.target?_described]
    exact store.nestedTarget?_eq hrank hl (Nat.lt_succ_self _)
  rw [← Procedure.outcome_congr hlower (hrank cell)]
  cases h : store.cells cell <;> simp only [Store.described, h] at hcell <;> cases hcell
  rfl

end Descriptions

/-- Resolvers may follow references while they run, as long as each follows such only as were
there before it. In a store whose resolvers describe them, following a cell has an outcome, which
is what the cell leads to; the cell keeps it; the store changes by following cells, and describes
the same resolvers from then on; and no validation has another outcome after that than before,
but for the type expressions that unions put over their attempts. -/
theorem resolvers_may_follow {procedures : CellId → Procedure} {rank : CellId → Nat}
    (hrank : ∀ cell, (procedures cell).FollowsOnly (rank · < rank cell)) {session : Session}
    (hsession : session.store.Describes procedures) (cell : CellId) :
    ∃ later : Session,
      Store.followNested? procedures (rank cell + 1) [] cell session.store =
        some (session.store.target? cell, later.store) ∧
      later.store.peek? cell = session.store.target? cell ∧
      session.Follows (fun _ => True) later ∧
      later.store.Describes procedures ∧
      ∀ (validator : Validator) (value : Json),
        Outcome.erase (validator.validate value later).1 =
          Outcome.erase (validator.validate value session).1 := by
  have hends : (Store.followNested? procedures (rank cell + 1) [] cell session.store).isSome :=
    Store.followNested?_isSome hrank (Nat.lt_succ_self (rank cell))
      (fun _ hm => absurd hm List.not_mem_nil) session.store
  obtain ⟨⟨found, later⟩, hrun⟩ := Option.isSome_iff_exists.mp hends
  obtain ⟨rfl, hkept, hfollows⟩ :=
    Store.followNested?_described _ [] cell found session.store later hsession hrun
  have hlater : session.Follows (fun _ => True) ⟨later, session.journal⟩ :=
    ⟨hfollows.mono fun _ _ => trivial, rfl⟩
  refine ⟨⟨later, session.journal⟩, hrun, hkept, hlater, hsession.follows hfollows,
    fun validator value => ?_⟩
  exact ((Store.Preserves.refl validator.schema session.store).follows hlater.store).erase_eq value

/-- A resolver that gives lists of what an earlier one gives fills the cell of that one too. -/
example :
    let procedures : CellId → Procedure := fun cell =>
      if cell = 0 then .give (.leaf .number)
      else .follow 0 fun found => .give (.list (found.getD .any))
    let store := (Store.empty.setCell 0 (.pending (.binding "a"))).setCell 1 (.pending (.binding "b"))
    (Store.followNested? procedures 2 [] 1 store).map (fun run => (run.2.peek? 0, run.2.peek? 1)) =
      some (some (.leaf .number), some (.list (.leaf .number))) := rfl

end Conformance
