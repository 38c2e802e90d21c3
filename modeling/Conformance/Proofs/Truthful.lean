import Conformance.Proofs.Reports
import Conformance.Proofs.Trimming

/-!
# What rejections say is true

Every rejection of a document, and every one that it carries, points to a node of
the document and says of it what is the case: its kind, its text, the constant it
differs from, the container it is not, or the field that it lacks. Attempts and
causes lie at or below the node of what carries them, and a union has one attempt
for each of its members.
-/

namespace Conformance

/-- A rejection carries itself, and what the attempts of its union or the causes of its
member carry. -/
inductive Rejection.Carries : Rejection → Rejection → Prop
  /-- A rejection carries itself. -/
  | self (rejection : Rejection) : Carries rejection rejection
  /-- The rejection of a union carries its attempts. -/
  | attempt {path : Path} {expected : String} {attempts : List Rejection}
    {attempt inner : Rejection} (h : attempt ∈ attempts) (hc : Carries attempt inner) :
    Carries ⟨path, .noMemberMatched expected attempts⟩ inner
  /-- The rejection of an intersection carries the causes of its member. -/
  | cause {path : Path} {member : Nat} {causes : Report} {cause inner : Rejection}
    (h : cause ∈ causes.toList) (hc : Carries cause inner) :
    Carries ⟨path, .memberFailed member causes⟩ inner

/-- An attempt is the first rejection of a member of a union, checked at the node of the
union for its first rejection only. -/
def Grounds.Attempt (grounds : Grounds) (node : Json) (here : Position) (member : Schema)
    (attempt : Rejection) : Prop :=
  ∃ (session : Session) (report : Report), session.store.target? = grounds.targets ∧
    (check ⟨grounds.policy, .failFast, grounds.maxDepth⟩ member node here session).1 =
      .error report ∧
    report.head = attempt

/-- What a rejection says is true of the document. -/
inductive Rejection.Truthful (grounds : Grounds) (root : Schema) (document : Json) :
    Rejection → Prop
  /-- A leaf refused the node for what it is. -/
  | refused {path : Path} {node : Json} {cause : Cause} (hn : path.node? document = some node)
    (h : Refusal node cause) : Truthful grounds root document ⟨path, cause⟩
  /-- The node is not the container that is expected. -/
  | shape {path : Path} {node : Json} {expected : String} (hn : path.node? document = some node)
    (he : expected = "list" ∨ expected = "object") (h : node.kind ≠ expected) :
    Truthful grounds root document ⟨path, .shapeMismatch expected node.kind⟩
  /-- The parent is an object without the field. -/
  | missing {path : Path} {entries : List (String × Json)} {field : String}
    (hn : path.node? document = some (.object entries))
    (h : Entries.lookup field entries = none) :
    Truthful grounds root document ⟨path ++ [.key field], .missingField field⟩
  /-- The node is a list or an object at the depth limit. -/
  | deep {path : Path} {node : Json} (hn : path.node? document = some node)
    (h : node.kind = "list" ∨ node.kind = "object") (hd : grounds.maxDepth ≤ path.length) :
    Truthful grounds root document ⟨path, .depthExceeded grounds.maxDepth⟩
  /-- Every member of a union of the graph made one attempt on the node, which lies at or
  below it. -/
  | union {here : Position} {node : Json} {members : List Schema} {store : Store}
    {attempts : List Rejection} (hn : here.path.node? document = some node)
    (hm : Schema.Reaches grounds.targets root (.union members))
    (h : List.Forall₂ (grounds.Attempt node here) members attempts)
    (hp : ∀ attempt ∈ attempts, here.path <+: attempt.path) :
    Truthful grounds root document
      ⟨here.path, .noMemberMatched ((Schema.union members).render store) attempts⟩
  /-- The causes of a member lie at or below the node. -/
  | member {path : Path} {node : Json} {member : Nat} {causes : Report}
    (hn : path.node? document = some node) (hp : ∀ cause ∈ causes.toList, path <+: cause.path) :
    Truthful grounds root document ⟨path, .memberFailed member causes⟩
  /-- The data that differ are at a node. -/
  | conflict {path : Path} {node : Json} {member : Nat} (hn : path.node? document = some node) :
    Truthful grounds root document ⟨path, .conflict member⟩
  /-- A reference that leads nowhere was met at a node. -/
  | unresolved {path : Path} {node : Json} (hn : path.node? document = some node) :
    Truthful grounds root document ⟨path, .unresolvedReference⟩
  /-- A cycle of references was met at a node. -/
  | cyclic {path : Path} {node : Json} (hn : path.node? document = some node) :
    Truthful grounds root document ⟨path, .cyclicReference⟩

/-- A longer path leads on from where its beginning leads. -/
theorem Path.node?_append (path more : Path) (document : Json) :
    Path.node? (path ++ more) document = (path.node? document).bind more.node? := by
  induction path generalizing document with
  | nil => cases more <;> rfl
  | cons segment rest ih =>
    cases segment with
    | key name =>
      cases document with
      | object entries =>
        change (Entries.lookup name entries).bind (Path.node? (rest ++ more)) =
          ((Entries.lookup name entries).bind (Path.node? rest)).bind more.node?
        cases Entries.lookup name entries with
        | none => rfl
        | some value => exact ih value
      | _ => rfl
    | index position =>
      cases document with
      | array items =>
        change items[position]?.bind (Path.node? (rest ++ more)) =
          (items[position]?.bind (Path.node? rest)).bind more.node?
        cases items[position]? with
        | none => rfl
        | some value => exact ih value
      | _ => rfl

/-- The way to data that differ leads to the value, or to a key of an output. -/
theorem mergeInto_error {merged : Option Json} {output : Json} {way : Path}
    (h : mergeInto merged output = .error way) :
    way = [] ∨ ∃ key, way = [.key key] ∧ output.HasKey key := by
  cases merged with
  | none => cases h
  | some previous =>
    change mergeOutputs previous output = .error way at h
    unfold mergeOutputs at h
    split at h
    · split at h
      · cases h
      · next key hk =>
        cases h
        exact .inr ⟨key, rfl, mergeEntries_error hk⟩
    · split at h
      · cases h
      · cases h
        exact .inl rfl

/-- The data that differ have a counterpart in the value that the outputs came from. -/
theorem exists_node_of_mergeInto_error {merged : Option Json} {output value : Json} {way : Path}
    (h : mergeInto merged output = .error way) (ht : value.Trims output) :
    ∃ node, way.node? value = some node := by
  rcases mergeInto_error h with rfl | ⟨key, rfl, hkey⟩
  · exact ⟨value, rfl⟩
  · have hvalue : value.HasKey key := ht.1 key hkey
    cases value with
    | object entries =>
      obtain ⟨node, hnode⟩ := Option.isSome_iff_exists.mp hvalue
      exact ⟨node, by simp [Path.node?, hnode]⟩
    | _ => exact hvalue.elim

section Walk

variable (grounds : Grounds) (root : Schema) (document : Json)

/-- A rejection at or below a path, with all that it carries, is true of the document. -/
def Faithful (path : Path) (rejection : Rejection) : Prop :=
  path <+: rejection.path ∧ ∀ inner, rejection.Carries inner → inner.Truthful grounds root document

/-- Every rejection of a report is faithful. -/
def Tells (path : Path) {α : Type} (result : Except Report α) : Prop :=
  ∀ report, result = .error report → ∀ r ∈ report.toList, Faithful grounds root document path r

/-- In every function of a check what is reported is true, if the check stands at a node
of the document and the schema occurs in the graph. -/
def truth : Walk where
  ofSchema rules schema value here := ∀ session : Session, rules.grounds session.store = grounds →
    Schema.Reaches grounds.targets root schema → here.path.node? document = some value →
    value.DistinctKeys → Tells grounds root document here.path (check rules schema value here session).1
  ofChild rules child here := ∀ (session : Session) (node : Json),
    rules.grounds session.store = grounds → Schema.Reaches grounds.targets root child.schema →
    here.path.node? document = some node → child.Within node →
    Tells grounds root document here.path (checkChild rules child here session).1
  ofChildren rules children here := ∀ (session : Session) (node : Json),
    rules.grounds session.store = grounds → here.path.node? document = some node →
    (∀ child ∈ children, Schema.Reaches grounds.targets root child.schema ∧ child.Within node) →
    Tells grounds root document here.path (checkChildren rules children here session).1
  ofMembers rules index members value here := ∀ (session : Session) (attempts : List Rejection),
    rules.failFast = rules → rules.grounds session.store = grounds →
    (∀ member ∈ members, Schema.Reaches grounds.targets root member) →
    here.path.node? document = some value → value.DistinctKeys →
    (checkMembers rules index members value here session).1 = .error attempts →
    List.Forall₂ (grounds.Attempt value here) members attempts ∧
      ∀ attempt ∈ attempts, Faithful grounds root document here.path attempt
  ofEvery rules index members merged value here := ∀ session : Session,
    rules.grounds session.store = grounds →
    (∀ member ∈ members, Schema.Reaches grounds.targets root member) →
    here.path.node? document = some value → value.DistinctKeys →
    (∀ previous, merged = some previous → value.Trims previous) →
    Tells grounds root document here.path
      (checkEvery rules index members merged value here session).1

end Walk

section Steps

variable {grounds : Grounds} {root : Schema} {document : Json} {path : Path}

/-- An output tells nothing. -/
theorem Tells.ok {α : Type} (output : α) :
    Tells grounds root document path (.ok output : Except Report α) :=
  Reports.ok output

/-- One faithful rejection is all that is told. -/
theorem Tells.one {α : Type} {rejection : Rejection}
    (h : Faithful grounds root document path rejection) :
    Tells grounds root document path (.error (.singleton rejection) : Except Report α) :=
  Reports.one h

/-- A rejection that carries no other is faithful if it is true. -/
theorem Faithful.alone {rejection : Rejection} (hp : path <+: rejection.path)
    (hc : ∀ inner, rejection.Carries inner → inner = rejection)
    (h : rejection.Truthful grounds root document) :
    Faithful grounds root document path rejection :=
  ⟨hp, fun inner hi => by rw [hc inner hi]; exact h⟩

/-- What lies below a longer path lies below its beginning. -/
theorem Faithful.shorten {segment : Segment} {rejection : Rejection}
    (h : Faithful grounds root document (path ++ [segment]) rejection) :
    Faithful grounds root document path rejection :=
  ⟨(List.prefix_append _ _).trans h.1, h.2⟩

/-- The refusal of a leaf carries no other rejection. -/
theorem Refusal.carries {value : Json} {cause : Cause} (h : Refusal value cause) {inner : Rejection}
    (hc : Rejection.Carries ⟨path, cause⟩ inner) : inner = ⟨path, cause⟩ := by
  cases h <;> cases hc <;> rfl

/-- A node is rejected by one rejection of its own. -/
theorem Tells.reject {α : Type} {here : Position} {cause : Cause}
    (hc : ∀ inner, Rejection.Carries ⟨here.path, cause⟩ inner → inner = ⟨here.path, cause⟩)
    (h : Rejection.Truthful grounds root document ⟨here.path, cause⟩) :
    Tells grounds root document here.path (.error (here.reject cause) : Except Report α) :=
  .one (.alone List.prefix_rfl hc h)

/-- A report tells the same, whatever the result would have been. -/
theorem Tells.report {α β : Type} {report : Report}
    (h : Tells grounds root document path (.error report : Except Report α)) :
    Tells grounds root document path (.error report : Except Report β) :=
  Reports.imp h fun _ hr => hr

/-- What is told of a child is told of its container. -/
theorem Tells.shorten {α β : Type} {segment : Segment} {report : Report}
    (h : Tells grounds root document (path ++ [segment]) (.error report : Except Report α)) :
    Tells grounds root document path (.error report : Except Report β) :=
  Reports.imp h fun _ => Faithful.shorten

/-- Two reports tell together what each tells. -/
theorem Tells.append {α β : Type} {report more : Report}
    (h : Tells grounds root document path (.error report : Except Report α))
    (hmore : Tells grounds root document path (.error more : Except Report α)) :
    Tells grounds root document path (.error (report.append more) : Except Report β) :=
  Reports.append h hmore

/-- A member of an intersection that fails at a node tells what its causes tell. -/
theorem Tells.memberFailed {α β : Type} {here : Position} {node : Json} {causes : Report}
    (index : Nat) (hn : here.path.node? document = some node)
    (h : Tells grounds root document here.path (.error causes : Except Report α)) :
    Tells grounds root document here.path
      (.error (here.reject (.memberFailed index causes)) : Except Report β) := by
  refine .one ⟨List.prefix_rfl, fun inner hi => ?_⟩
  cases hi with
  | self => exact .member hn fun cause hm => (h causes rfl cause hm).1
  | cause hm hi => exact (h causes rfl _ hm).2 inner hi

/-- A union that fails at a node tells what the attempts of its members tell. -/
theorem Tells.noMemberMatched {α : Type} {here : Position} {node : Json} {members : List Schema}
    {attempts : List Rejection} (store : Store) (hn : here.path.node? document = some node)
    (hr : Schema.Reaches grounds.targets root (.union members))
    (hrow : List.Forall₂ (grounds.Attempt node here) members attempts)
    (h : ∀ attempt ∈ attempts, Faithful grounds root document here.path attempt) :
    Tells grounds root document here.path (.error (here.reject
      (.noMemberMatched ((Schema.union members).render store) attempts)) : Except Report α) := by
  refine .one ⟨List.prefix_rfl, fun inner hi => ?_⟩
  cases hi with
  | self => exact .union hn hr hrow fun attempt ha => (h attempt ha).1
  | attempt ha hi => exact (h _ ha).2 inner hi

theorem truth_inductive (hpolicy : ∃ kind : PolicyKind, grounds.policy = kind.policy) :
    (truth grounds root document).Inductive where
  leaf rules leaf value here session hg hr hn hd := by
    have hrefusal : ∀ cause, rules.policy.check leaf value = .error cause → Refusal value cause := by
      obtain ⟨kind, hk⟩ := hpolicy
      have hsame : rules.policy = kind.policy := by rw [← hk, ← hg]; rfl
      intro cause h
      rw [hsame] at h
      exact PolicyKind.refusal h
    rw [check_leaf]
    cases h : rules.policy.check leaf value with
    | ok output => exact .ok output
    | error cause =>
      have hrefused := hrefusal cause h
      exact .reject (fun inner => hrefused.carries) (.refused hn hrefused)
  null rules inner value here h session hg hr hn hd := by
    rw [check_nullable_null rules value here session inner h]
    exact .ok _
  nullable rules inner value here h ih session hg hr hn hd := by
    rw [check_nullable rules value here session inner h]
    exact ih session hg (hr.part (List.mem_singleton_self _)) hn hd
  union rules members value here ih session hg hr hn hd := by
    rw [check_union]
    have hmembers := ih session
    rcases hm : checkMembers rules.failFast 0 members value here session with
      ⟨attempts | output, later⟩
    · rw [hm] at hmembers
      obtain ⟨hrow, hall⟩ := hmembers attempts rfl hg (fun member hm => hr.part hm) hn hd rfl
      exact .noMemberMatched later.store hn hr hrow hall
    · exact .ok output
  intersection rules members value here ih session hg hr hn hd := by
    rw [check_intersection]
    exact ih session hg (fun member hm => hr.part hm) hn hd fun previous h => by cases h
  followed rules r value here h ih session hg hr hn hd := by
    obtain ⟨later, hf, ht⟩ := Session.onStore_fetch? session r.cell
    rw [check_reference rules value here session h, hf]
    cases htarget : session.store.target? r.cell with
    | none => exact .reject (fun inner hi => by cases hi; rfl) (.unresolved hn)
    | some target =>
      have htargets : grounds.targets r.cell = some target := by rw [← hg]; exact htarget
      exact ih target later ((rules.grounds_congr ht).trans hg) (hr.target htargets) hn hd
  blocked rules r value here h session hg hr hn hd := by
    rw [check_reference_blocked rules value here session h]
    exact .reject (fun inner hi => by cases hi; rfl) (.cyclic hn)
  plain rules schema value here hs hview session hg hr hn hd := by
    rw [check_plain rules value here session hs hview]
    exact .ok value
  mismatch rules schema value here expected hview session hg hr hn hd := by
    obtain ⟨hexpected, hkind⟩ := View.mismatch_of hview
    rw [check_mismatch rules value here session hview]
    exact .reject (fun inner hi => by cases hi; rfl) (.shape hn hexpected hkind)
  deep rules schema value here children assemble hc hdeep session hg hr hn hd := by
    have hlimit : grounds.maxDepth = rules.maxDepth := by rw [← hg]; rfl
    have hkind : value.kind = "list" ∨ value.kind = "object" := by
      cases hc with
      | items => exact .inl rfl
      | entries | fields => exact .inr rfl
    rw [check_deep hc hdeep, ← hlimit]
    exact .reject (fun inner hi => by cases hi; rfl) (.deep hn hkind (by rw [hlimit]; exact hdeep))
  container rules schema value here children assemble hc hdeep ih session hg hr hn hd := by
    have hrow := ih session value hg hn fun child hm => ⟨hr.child hc hm, hc.within hd hm⟩
    rw [check_container hc hdeep]
    rcases hm : checkChildren rules children here session with ⟨report | outputs, later⟩ <;>
      rw [hm] at hrow
    · exact hrow.report
    · exact .ok _
  present rules segment schema value here ih session node hg hr hn hwithin := by
    have hnode : (here.child segment).path.node? document = some value := by
      rw [Position.child, Path.node?_append, hn]
      exact hwithin.1
    have hchild := ih session hg hr hnode hwithin.2
    rw [checkChild_present]
    rcases hc : check rules schema value (here.child segment) session with
      ⟨report | output, later⟩ <;> rw [hc] at hchild
    · exact hchild.shorten
    · exact .ok _
  absent rules name schema here session node hg hr hn hwithin := by
    obtain ⟨entries, rfl, hl⟩ := hwithin
    rw [checkChild_absent]
    rcases Session.onStore schema.acceptsAbsent session with ⟨_ | _, later⟩
    · refine .one (.alone (List.prefix_append _ _) (fun inner hi => by cases hi; rfl) ?_)
      exact .missing hn hl
    · exact .ok _
  noChildren rules here session node hg hn hall := by
    rw [checkChildren_nil]
    exact .ok _
  moreChildren rules child rest here ihc ihr session node hg hn hall := by
    obtain ⟨⟨hreach, hwithin⟩, hrest⟩ := List.forall_mem_cons.mp hall
    have hchild := ihc session node hg hreach hn hwithin
    have hkeep := checkChild_target? rules child here session
    rw [checkChildren_cons]
    rcases hc : checkChild rules child here session with ⟨report | output, later⟩ <;>
      rw [hc] at hchild hkeep <;>
      have hothers := ihr later node ((rules.grounds_congr hkeep).trans hg) hn hrest <;> dsimp only
    · split
      · rcases hr : checkChildren rules rest here later with ⟨more | outputs, last⟩
        · rw [hr] at hothers
          exact hchild.report.append hothers
        · exact hchild.report
      · exact hchild.report
    · rcases hr : checkChildren rules rest here later with ⟨more | outputs, last⟩
      · rw [hr] at hothers
        exact hothers
      · exact .ok _
  noMembers rules index value here session attempts hfast hg hall hn hd h := by
    rw [checkMembers_nil] at h
    cases h
    exact ⟨.nil, fun attempt ha => by cases ha⟩
  moreMembers rules index member rest value here ihm ihr session attempts hfast hg hall hn hd h := by
    obtain ⟨hreach, hrest⟩ := List.forall_mem_cons.mp hall
    have hmember := ihm session hg hreach hn hd
    obtain ⟨_, hkeep⟩ := check_gives rules member value here session
    rw [checkMembers_cons] at h
    rcases hc : check rules member value here session with ⟨report | output, later⟩ <;>
      rw [hc] at h hmember hkeep <;> dsimp only at h
    · have hgl : rules.grounds (Session.record (.memberRejected index report.head) later).2.store =
          grounds := (rules.grounds_congr hkeep).trans hg
      have hattempt : grounds.Attempt value here member report.head := by
        refine ⟨session, report, by rw [← hg]; rfl, ?_, rfl⟩
        have hrules : (⟨grounds.policy, .failFast, grounds.maxDepth⟩ : Rules) = rules := by
          rw [← hg]
          exact hfast
        rw [hrules, hc]
      have hothers := fun others => ihr _ others hfast hgl hrest hn hd
      rcases hm : checkMembers rules (index + 1) rest value here
          (Session.record (.memberRejected index report.head) later).2 with ⟨others | output, last⟩ <;>
        rw [hm] at h hothers
      · cases h
        obtain ⟨hrow, htell⟩ := hothers others rfl
        refine ⟨.cons hattempt hrow, List.forall_mem_cons.mpr ⟨?_, htell⟩⟩
        exact hmember report rfl report.head List.mem_cons_self
      · cases h
    · cases h
  everyDone rules index merged value here session hg hall hn hd hmerged := by
    rw [checkEvery_nil]
    exact .ok _
  everyMore rules index member rest merged value here ihm ihr session hg hall hn hd hmerged := by
    obtain ⟨hreach, hrest⟩ := List.forall_mem_cons.mp hall
    have hmember := ihm session hg hreach hn hd
    have hgives := check_gives rules member value here session
    rw [checkEvery_cons]
    rcases hc : check rules member value here session with ⟨causes | output, later⟩ <;>
      rw [hc] at hmember hgives
    · exact hmember.memberFailed index hn
    · have hflat : grounds.policy.Flat := by
        obtain ⟨kind, hk⟩ := hpolicy
        rw [hk]
        exact kind.policy_flat
      have haccept := (hgives.ok_iff output).mp rfl
      rw [hg] at haccept
      have htrims := Grounds.accept_trims hflat haccept
      dsimp only
      cases hboth : mergeInto merged output with
      | ok both =>
        refine ihr both later ((rules.grounds_congr hgives.2).trans hg) hrest hn hd ?_
        intro previous heq
        cases heq
        exact value.trims_mergeInto hmerged htrims hboth
      | error way =>
        obtain ⟨node, hnode⟩ := exists_node_of_mergeInto_error hboth htrims
        refine .one (.alone (List.prefix_append _ _) (fun inner hi => by cases hi; rfl) ?_)
        have hlead : Path.node? (here.path ++ way) document = some node := by
          rw [Path.node?_append, hn]
          exact hnode
        exact .conflict hlead

end Steps

/-- Whatever a validator with built-in policy reports of a document, and whatever that
carries, is true of the document. -/
theorem rejections_truthful (schema : Schema) (settings : Settings) (session : Session)
    (document : Json) (hkeys : document.DistinctKeys) (report : Report)
    (h : ((Validator.ofSettings schema settings).validate document session).1 = .error report)
    (rejection : Rejection) (hr : rejection ∈ report.toList) (inner : Rejection)
    (hc : rejection.Carries inner) :
    inner.Truthful ((Validator.ofSettings schema settings).grounds session.store) schema
      document := by
  rw [Validator.validate_fst] at h
  have htells := (truth_inductive ⟨settings.policy, rfl⟩).holds
    (Validator.ofSettings schema settings).toRules schema document .root session rfl .root rfl hkeys
  exact (htells report h rejection hr).2 inner hc

/-- A field that holds a number or an object with a text. -/
def numberOrNamed : Schema :=
  .struct [⟨"a", .union [.leaf .number, .struct [⟨"b", .leaf .string, none, false⟩]], none, false⟩]

/-- A truth value in place of the text is found by the second attempt of the union. -/
theorem numberOrNamed_truthful :
    Rejection.Truthful ((Validator.ofSettings numberOrNamed {}).grounds .empty) numberOrNamed
      (.object [("a", .object [("b", .bool true)])])
      ⟨[.key "a", .key "b"], .typeMismatch "string" "boolean"⟩ := by
  have hkeys : (Json.object [("a", .object [("b", .bool true)])]).DistinctKeys := by
    refine .object (List.nodup_singleton _) fun entry he => ?_
    rw [List.mem_singleton.mp he]
    refine .object (List.nodup_singleton _) fun entry he => ?_
    rw [List.mem_singleton.mp he]
    exact .bool true
  have hrun : ((Validator.ofSettings numberOrNamed {}).validate
      (.object [("a", .object [("b", .bool true)])]) ⟨.empty, #[]⟩).1 =
      .error (.singleton ⟨[.key "a"], .noMemberMatched "Number | \x7b b: String \x7d"
        [⟨[.key "a"], .typeMismatch "number" "object"⟩,
          ⟨[.key "a", .key "b"], .typeMismatch "string" "boolean"⟩]⟩) := by
    rw [Validator.validate_fst, Validator.ofSettings, numberOrNamed]
    simp [check_struct, checkChildren_cons, checkChildren_nil, checkChild_present, check_union,
      checkMembers_cons, checkMembers_nil, check_leaf, Child.ofField, Entries.lookup]
    rfl
  refine rejections_truthful numberOrNamed {} ⟨.empty, #[]⟩ _ hkeys _ hrun _ List.mem_cons_self _ ?_
  exact .attempt (List.mem_cons_of_mem _ List.mem_cons_self) (.self _)

end Conformance
