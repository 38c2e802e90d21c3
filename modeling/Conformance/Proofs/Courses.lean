import Conformance.Pipeline

/-!
# The course of a run

A run goes through a row of links turn by turn, whatever values the links handle and whatever
state they change. In its turn a link sees a call, and either answers or hands an input on to
the next one; the answer then goes back through the links that handed on, the last of them
first. The turns of a run are those of the first links of the row, one for each, in order, and
the end of the row is met only if all links hand on. Two rows one after the other are one row
whose second part goes on with what the first hands on at its end.
-/

namespace Conformance

variable {Λ σ γ ι ω : Type}

/-- What a link makes of an answer that comes back from the links after it. -/
def Move.back {m : Type → Type} [Monad m] : Move m ι ω → Response ω → m (Response ω)
  | .answer reply, _ => pure reply
  | .handOn _ after, reply => after reply

/-- A row without links leaves the input unhandled. -/
theorem Middleware.handle_nil (context : γ) (input : ι) (session : σ) :
    Middleware.handle context ([] : List (Middleware (StateM σ) γ ι ω)) input session =
      (.error .unhandled, session) := rfl

/-- A row goes on after its first link with what that hands on, and the link makes its answer
of that of the rest. -/
theorem Middleware.handle_cons (context : γ) (first : Middleware (StateM σ) γ ι ω)
    (rest : List (Middleware (StateM σ) γ ι ω)) (input : ι) (session : σ) :
    Middleware.handle context (first :: rest) input session =
      match first ⟨input, context, rest.length⟩ session with
      | (.answer answer, later) => (answer, later)
      | (.handOn next after, later) => after (Middleware.handle context rest next later).1
          (Middleware.handle context rest next later).2 := by
  rw [Middleware.handle]
  rcases h : first ⟨input, context, rest.length⟩ session with ⟨_ | _, later⟩ <;>
    simp only [bind, StateT.bind, h] <;> rfl

/-- The turn of a link in a run. -/
structure Turn (Λ σ γ ι ω : Type) where
  /-- The link. -/
  link : Λ
  /-- What the link sees. -/
  request : Call γ ι
  /-- The state in which it is invoked. -/
  start : σ
  /-- What it does. -/
  step : Move (StateM σ) ι ω
  /-- The state after that. -/
  later : σ

/-- The link of a turn does with its request what the turn says. -/
def Turn.Happens (act : Λ → Middleware (StateM σ) γ ι ω) (turn : Turn Λ σ γ ι ω) : Prop :=
  act turn.link turn.request turn.start = (turn.step, turn.later)

/-- How the turns of a run end. -/
inductive Ending (ι ω : Type) where
  /-- The link that was invoked last answers. -/
  | answered (answer : Response ω)
  /-- All links hand on, and this is what comes out at the end. -/
  | handedOn (input : ι)

/-- The course of a run through a row of links. -/
structure Course (Λ σ γ ι ω : Type) where
  /-- The turns, in order. -/
  turns : List (Turn Λ σ γ ι ω)
  /-- How they end. -/
  ending : Ending ι ω
  /-- The state after the last turn. -/
  last : σ

namespace Course

/-- The course with a turn before it. -/
def cons (turn : Turn Λ σ γ ι ω) (course : Course Λ σ γ ι ω) : Course Λ σ γ ι ω :=
  { course with turns := turn :: course.turns }

/-- What the links make of an answer that comes back to the last of them. -/
def back (course : Course Λ σ γ ι ω) (answer : Response ω) : StateM σ (Response ω) :=
  course.turns.foldr (fun turn behind => behind >>= turn.step.back) (pure answer)

/-- What comes of a course if something else takes what is handed on at its end. -/
def close (course : Course Λ σ γ ι ω) (rest : ι → StateM σ (Response ω)) : Response ω × σ :=
  match course.ending with
  | .answered answer => course.back answer course.last
  | .handedOn input => (rest input >>= course.back) course.last

/-- A course takes place from an input and a state on: every turn happens with what was
handed on to it, where the turn before it left off, and ends the course if it answers. -/
inductive Occurs (act : Λ → Middleware (StateM σ) γ ι ω) : ι → σ → Course Λ σ γ ι ω → Prop
  /-- No link is left. -/
  | exhausted (input : ι) (session : σ) : Occurs act input session ⟨[], .handedOn input, session⟩
  /-- A link answers. -/
  | answered {turn : Turn Λ σ γ ι ω} {answer : Response ω} (h : turn.Happens act)
    (hstep : turn.step = .answer answer) :
    Occurs act turn.request.input turn.start ⟨[turn], .answered answer, turn.later⟩
  /-- A link hands on. -/
  | handedOn {turn : Turn Λ σ γ ι ω} {next : ι} {after : Response ω → StateM σ (Response ω)}
    {course : Course Λ σ γ ι ω} (h : turn.Happens act) (hstep : turn.step = .handOn next after)
    (hrest : Occurs act next turn.later course) :
    Occurs act turn.request.input turn.start (course.cons turn)

/-- A link makes its answer of that of the course after it. -/
theorem close_cons (turn : Turn Λ σ γ ι ω) (course : Course Λ σ γ ι ω)
    (rest : ι → StateM σ (Response ω)) :
    (course.cons turn).close rest = turn.step.back (course.close rest).1 (course.close rest).2 := by
  obtain ⟨turns, _ | _, last⟩ := course <;> rfl

namespace Occurs

variable {act : Λ → Middleware (StateM σ) γ ι ω} {input : ι} {session : σ}
  {course : Course Λ σ γ ι ω}

/-- Without turns the input is all that is handed on. -/
theorem of_turns_eq_nil (h : course.Occurs act input session) (hnone : course.turns = []) :
    course.ending = .handedOn input := by
  cases h with
  | exhausted => rfl
  | answered | handedOn => cases hnone

/-- What a course hands on at its end, its last link hands on. -/
theorem handsOn (h : course.Occurs act input session) {value : ι}
    (hending : course.ending = .handedOn value) :
    ∀ turn ∈ course.turns.getLast?, ∃ after, turn.step = .handOn value after := by
  induction h with
  | exhausted => exact fun _ hm => by cases hm
  | answered => cases hending
  | @handedOn turn next after course _ hstep hrest ih =>
    have hturns : (course.cons turn).turns = turn :: course.turns := rfl
    have hrestending : course.ending = .handedOn value := hending
    rw [hturns]
    cases hmore : course.turns with
    | nil =>
      rw [hrest.of_turns_eq_nil hmore] at hrestending
      cases hrestending
      rintro _ ⟨⟩
      exact ⟨after, hstep⟩
    | cons other more =>
      rw [List.getLast?_cons_cons, ← hmore]
      exact ih hrestending

end Occurs

section Links

variable (act : Λ → Middleware (StateM σ) γ ι ω) (context : γ)

/-- The course that an input takes through a row of links. -/
def ofLinks : List Λ → ι → σ → Course Λ σ γ ι ω
  | [], input, session => ⟨[], .handedOn input, session⟩
  | link :: rest, input, session =>
    match act link ⟨input, context, rest.length⟩ session with
    | (.answer reply, later) =>
      ⟨[⟨link, ⟨input, context, rest.length⟩, session, .answer reply, later⟩],
        .answered reply, later⟩
    | (.handOn next after, later) =>
      .cons ⟨link, ⟨input, context, rest.length⟩, session, .handOn next after, later⟩
        (ofLinks rest next later)

/-- What holds where no link is left, where a link answers, and where a link hands on if it
does of the course after that, holds of the course through every row. -/
@[elab_as_elim]
theorem ofLinks_induction {motive : List Λ → ι → σ → Course Λ σ γ ι ω → Prop}
    (exhausted : ∀ input session, motive [] input session ⟨[], .handedOn input, session⟩)
    (answered : ∀ link rest input session reply later,
      act link ⟨input, context, rest.length⟩ session = (.answer reply, later) →
      motive (link :: rest) input session
        ⟨[⟨link, ⟨input, context, rest.length⟩, session, .answer reply, later⟩],
          .answered reply, later⟩)
    (handedOn : ∀ link rest input session next after later,
      act link ⟨input, context, rest.length⟩ session = (.handOn next after, later) →
      motive rest next later (ofLinks act context rest next later) →
      motive (link :: rest) input session
        (.cons ⟨link, ⟨input, context, rest.length⟩, session, .handOn next after, later⟩
          (ofLinks act context rest next later)))
    (links : List Λ) (input : ι) (session : σ) :
    motive links input session (ofLinks act context links input session) := by
  induction links generalizing input session with
  | nil => exact exhausted input session
  | cons link rest ih =>
    rw [ofLinks]
    rcases h : act link ⟨input, context, rest.length⟩ session with ⟨reply | ⟨next, after⟩, later⟩
    · exact answered link rest input session reply later h
    · exact handedOn link rest input session next after later h (ih next later)

variable (links : List Λ) (input : ι) (session : σ)

/-- The course of an input takes place. -/
theorem ofLinks_occurs : (ofLinks act context links input session).Occurs act input session := by
  refine ofLinks_induction act context
    (motive := fun _ input session course => course.Occurs act input session)
    ?exhausted ?answered ?handedOn links input session
  case exhausted => exact .exhausted
  case answered =>
    intro link rest input session reply later hact
    have hhappens : Turn.Happens act
        ⟨link, ⟨input, context, rest.length⟩, session, .answer reply, later⟩ := hact
    exact .answered hhappens rfl
  case handedOn =>
    intro link rest input session next after later hact ih
    have hhappens : Turn.Happens act
        ⟨link, ⟨input, context, rest.length⟩, session, .handOn next after, later⟩ := hact
    exact .handedOn hhappens rfl ih

/-- The links that are invoked are the first ones of the row, in order. -/
theorem ofLinks_links : (ofLinks act context links input session).turns.map Turn.link =
    links.take (ofLinks act context links input session).turns.length := by
  refine ofLinks_induction act context
    (motive := fun links _ _ course => course.turns.map Turn.link = links.take course.turns.length)
    ?exhausted ?answered ?handedOn links input session
  case exhausted => exact fun _ _ => rfl
  case answered => exact fun _ _ _ _ _ _ _ => rfl
  case handedOn =>
    intro link rest input session next after later _ ih
    exact congrArg (link :: ·) ih

/-- The first link of a row is invoked in any case. -/
theorem eq_nil_of_ofLinks (h : (ofLinks act context links input session).turns = []) :
    links = [] := by
  have hlinks := ofLinks_links act context links input session
  cases links with
  | nil => rfl
  | cons link rest =>
    rw [ofLinks] at h
    rcases hact : act link ⟨input, context, rest.length⟩ session with ⟨_ | _, later⟩ <;>
      rw [hact] at h <;> cases h

/-- A link sees the context of the run, and how many links come after it. -/
theorem ofLinks_requests :
    ∀ i turn, (ofLinks act context links input session).turns[i]? = some turn →
      turn.request.context = context ∧ turn.request.remaining = links.length - 1 - i := by
  refine ofLinks_induction act context
    (motive := fun links _ _ course => ∀ i turn, course.turns[i]? = some turn →
      turn.request.context = context ∧ turn.request.remaining = links.length - 1 - i)
    ?exhausted ?answered ?handedOn links input session
  case exhausted => exact fun _ _ i turn h => by cases h
  case answered =>
    rintro link rest input session reply later _ (_ | i) turn ⟨⟩
    exact ⟨rfl, rfl⟩
  case handedOn =>
    rintro link rest input session next after later _ ih (_ | i) turn h
    · cases h
      exact ⟨rfl, rfl⟩
    · obtain ⟨hcontext, hremaining⟩ := ih i turn h
      have hlength : (link :: rest).length - 1 = rest.length := rfl
      exact ⟨hcontext, by omega⟩

/-- The end of a row is met after all its links. -/
theorem ofLinks_exhausted {value : ι}
    (h : (ofLinks act context links input session).ending = .handedOn value) :
    (ofLinks act context links input session).turns.length = links.length := by
  refine ofLinks_induction act context
    (motive := fun links _ _ course => course.ending = .handedOn value →
      course.turns.length = links.length)
    ?exhausted ?answered ?handedOn links input session h
  case exhausted => exact fun _ _ _ => rfl
  case answered =>
    intro link rest input session reply later _ h
    cases h
  case handedOn =>
    intro link rest input session next after later _ ih h
    exact congrArg (· + 1) (ih h)

/-- What a row gives is what comes of the course if its end leaves the input unhandled. -/
theorem handle_eq_close : Middleware.handle context (links.map act) input session =
    (ofLinks act context links input session).close fun _ => pure (.error .unhandled) := by
  refine ofLinks_induction act context
    (motive := fun links input session course =>
      Middleware.handle context (links.map act) input session =
        course.close fun _ => pure (.error .unhandled))
    ?exhausted ?answered ?handedOn links input session
  case exhausted => exact fun _ _ => rfl
  case answered =>
    intro link rest input session reply later hact
    rw [List.map_cons, Middleware.handle_cons, List.length_map, hact]
    rfl
  case handedOn =>
    intro link rest input session next after later hact ih
    rw [List.map_cons, Middleware.handle_cons, List.length_map, hact, close_cons, ← ih]
    rfl

end Links

end Course

/-- What a link does with an input does not depend on how many links come after it. -/
def Middleware.IgnoresRemaining {m : Type → Type} (link : Middleware m γ ι ω) : Prop :=
  ∀ input context remaining other,
    link ⟨input, context, remaining⟩ = link ⟨input, context, other⟩

/-- Two runs agree up to a relation: they give the same and leave related states. -/
def AgreeUpTo {α : Type} (R : σ → σ → Prop) (run other : α × σ) : Prop :=
  run.1 = other.1 ∧ R run.2 other.2

/-- A link respects a relation: in related states it does the same up to the relation, however
many links come after it, and so it does with an answer that comes back. -/
structure Middleware.Respects (R : σ → σ → Prop) (link : Middleware (StateM σ) γ ι ω) : Prop where
  /-- It does the same in its turn. -/
  act : ∀ input context remaining other s t, R s t →
    AgreeUpTo R (link ⟨input, context, remaining⟩ s) (link ⟨input, context, other⟩ t)
  /-- It makes the same of an answer. -/
  back : ∀ request start reply s t, R s t →
    AgreeUpTo R ((link request start).1.back reply s) ((link request start).1.back reply t)

/-- A link that ignores how many links come after it does the same in the same state. -/
theorem Middleware.IgnoresRemaining.respects {link : Middleware (StateM σ) γ ι ω}
    (h : link.IgnoresRemaining) : link.Respects Eq := by
  constructor
  · rintro input context remaining other s _ rfl
    rw [h input context remaining other]
    exact ⟨rfl, rfl⟩
  · rintro request start reply s _ rfl
    exact ⟨rfl, rfl⟩

/-- Links that respect a relation, in a longer row, take the course that they take alone, and
what goes on at its end is what the rest of the row does there. -/
theorem Course.handle_append {R : σ → σ → Prop} {act : Λ → Middleware (StateM σ) γ ι ω}
    (context : γ) {links : List Λ} (hlinks : ∀ link ∈ links, (act link).Respects R)
    (more : List Λ) {rest : ι → StateM σ (Response ω)} (hmore : ∀ input s t, R s t →
      AgreeUpTo R (Middleware.handle context (more.map act) input s) (rest input t))
    (input : ι) {s t : σ} (hst : R s t) :
    AgreeUpTo R (Middleware.handle context ((links ++ more).map act) input s)
      ((ofLinks act context links input t).close rest) := by
  refine ofLinks_induction act context
    (motive := fun links input t course => (∀ link ∈ links, (act link).Respects R) →
      ∀ s, R s t → AgreeUpTo R (Middleware.handle context ((links ++ more).map act) input s)
        (course.close rest))
    ?exhausted ?answered ?handedOn links input t hlinks s hst
  case exhausted => exact fun input t _ s hst => hmore input s t hst
  case answered =>
    intro link others input t reply last ht hlinks s hst
    have hact := (hlinks link List.mem_cons_self).act input context (others ++ more).length
      others.length s t hst
    rw [List.cons_append, List.map_cons, Middleware.handle_cons, List.length_map]
    rcases hs : act link ⟨input, context, (others ++ more).length⟩ s with ⟨move, later⟩
    rw [hs, ht] at hact
    obtain ⟨rfl, hlater⟩ := hact
    exact ⟨rfl, hlater⟩
  case handedOn =>
    intro link others input t next after last ht ih hlinks s hst
    obtain ⟨hlink, hothers⟩ := List.forall_mem_cons.mp hlinks
    have hact := hlink.act input context (others ++ more).length others.length s t hst
    have hback := hlink.back ⟨input, context, others.length⟩ t
    rw [List.cons_append, List.map_cons, Middleware.handle_cons, List.length_map, close_cons]
    rcases hs : act link ⟨input, context, (others ++ more).length⟩ s with ⟨move, later⟩
    rw [hs, ht] at hact
    rw [ht] at hback
    obtain ⟨rfl, hlater⟩ := hact
    obtain ⟨hanswer, hstate⟩ := ih hothers later hlater
    dsimp only
    rw [hanswer]
    exact hback _ _ _ hstate

/-- A run of any links over any values takes a course through them. The turns are those of the
first links, one for each and in order, and the first link has a turn; each link sees the
context of the run and how many links come after it; and only if all links were invoked and the
last one handed on is the input left unhandled by the row itself. If the links ignore how many
links come after them, a row with more links at its end gives what comes of the same course if
these links take what is handed on at the end of it. -/
theorem handle_takes_turns (act : Λ → Middleware (StateM σ) γ ι ω) (links : List Λ) (context : γ)
    (input : ι) (session : σ) :
    ∃ course : Course Λ σ γ ι ω,
      course.Occurs act input session ∧
      course.turns.map Turn.link = links.take course.turns.length ∧
      (course.turns = [] → links = []) ∧
      (∀ i turn, course.turns[i]? = some turn →
        turn.request.context = context ∧ turn.request.remaining = links.length - 1 - i) ∧
      Middleware.handle context (links.map act) input session =
        course.close (fun _ => pure (.error .unhandled)) ∧
      (∀ value, course.ending = .handedOn value → course.turns.length = links.length ∧
        ∀ turn ∈ course.turns.getLast?, ∃ after, turn.step = .handOn value after) ∧
      ((∀ link ∈ links, (act link).IgnoresRemaining) → ∀ more : List Λ,
        Middleware.handle context ((links ++ more).map act) input session =
          course.close (Middleware.handle context (more.map act))) := by
  have hoccurs := Course.ofLinks_occurs act context links input session
  refine ⟨_, hoccurs, Course.ofLinks_links act context links input session,
    Course.eq_nil_of_ofLinks act context links input session,
    Course.ofLinks_requests act context links input session,
    Course.handle_eq_close act context links input session, ?_, ?_⟩
  · intro value hending
    exact ⟨Course.ofLinks_exhausted act context links input session hending,
      hoccurs.handsOn hending⟩
  · intro hignore more
    have hlinks : ∀ link ∈ links, (act link).Respects Eq := fun link hm => (hignore link hm).respects
    obtain ⟨hanswer, hstate⟩ := Course.handle_append context hlinks more
      (fun input s t hst => ⟨by rw [hst], by rw [hst]⟩) input (rfl : session = session)
    exact Prod.ext hanswer hstate

end Conformance
