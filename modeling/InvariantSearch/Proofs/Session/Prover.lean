import InvariantSearch.Proofs.Computation.Basic

/-!
# Steps of a prover

What the steps of a prover come to, each as one equation or one lemma about the state that it
leaves.

* `Prover.asks`, `Prover.Recorded` — the queries that were asked, and that were answered.
* `Prover.Adds` — what was asserted since, on top of the innermost scope.
* `Prover.Idle`, `Prover.Same` — steps that make no difference to answers to come.
* `Prover.Hears` — an attempt at a query was answered. `Prover.Follows` is what comes of that.

Main results: `attempt_cases`, `check_eq` and `push_eq_ite` say what attempts at a query, a query and
the opening of a scope do.
-/

namespace InvariantSearch

open List hiding get modify

variable {scope : List Term}

/-- Whether an error is raised by a search that finds itself wrong. -/
def Error.isSelfCheck : Error → Bool
  | .mayEnded | .smoke _ _ _ | .notInductive _ _ _ _ => true
  | _ => false

/-- Whether an error tells that something was asked for that there is not: a name, a sort or a
state to encode, a frame, or a run of some shape. -/
def Error.isMisstep : Error → Bool
  | .encoding _ | .noFrame _ _ | .unknownTransition _ | .traceQuery _ _ => true
  | _ => false

namespace Prover

variable {p q : Prover} {ts us : List Term}

/-! ## Records -/

/-- How many queries were asked. -/
def asked (p : Prover) : Nat :=
  p.events.countP fun
    | .check _ _ => true
    | _ => false

/-- A query was answered. -/
def Recorded (p : Prover) (query : Query) (answer : Answer) : Prop :=
  Event.check query (some answer) ∈ p.events

/-- The queries that were asked, with their answers, newest first. -/
def asks (p : Prover) : List (Query × Option Answer) :=
  p.events.filterMap fun
    | .check query answer => some (query, answer)
    | _ => none

/-- What a prover has asked since it was in a state, with the answers, newest first. -/
def asksSince (p q : Prover) : List (Query × Option Answer) :=
  q.asks.take (q.asks.length - p.asks.length)

theorem mem_asks {query : Query} {answer : Option Answer} :
    (query, answer) ∈ p.asks ↔ .check query answer ∈ p.events := by
  unfold asks
  rw [mem_filterMap]
  constructor
  · rintro ⟨event, hEvent, hAsk⟩
    split at hAsk
    · cases hAsk
      exact hEvent
    · cases hAsk
  · exact fun h => ⟨_, h, rfl⟩

/-- A verdict that settles a query. -/
def Settles : Bool → Verdict → Prop
  | true, verdict => ∃ m, verdict = .sat m
  | false, verdict => ∃ core, verdict = .unsat core

/-- The assumptions that a core names; all of them when there is no core. -/
def coreTerms (assumptions : List Term) : Option (List Nat) → List Term
  | none => assumptions
  | some positions => positions.filterMap fun i => assumptions[i]?

/-! ## What is asserted -/

/-- A term is asserted in an open scope or outside of all. -/
def InForce (p : Prover) (t : Term) : Prop := t ∈ p.inForce.flatten

theorem exists_inForce (p : Prover) : ∃ scope scopes, p.inForce = scope :: scopes := by
  unfold inForce
  cases p.scopes with
  | nil => exact ⟨p.base, [], rfl⟩
  | cons scope scopes => exact ⟨scope, scopes ++ [p.base], rfl⟩

/-- Some terms, oldest first, were asserted in the innermost scope. -/
def Adds (p : Prover) (ts : List Term) (q : Prover) : Prop :=
  ∃ scope scopes, p.inForce = scope :: scopes ∧ q.inForce = (ts.reverse ++ scope) :: scopes

theorem adds_nil (h : q.inForce = p.inForce) : p.Adds [] q := by
  obtain ⟨scope, scopes, hForce⟩ := p.exists_inForce
  exact ⟨scope, scopes, hForce, h.trans hForce⟩

theorem Adds.eq (h : p.Adds [] q) : q.inForce = p.inForce := by
  obtain ⟨scope, scopes, hp, hq⟩ := h
  exact hq.trans hp.symm

theorem Adds.trans {r : Prover} (h : p.Adds ts q) (h' : q.Adds us r) : p.Adds (ts ++ us) r := by
  obtain ⟨scope, scopes, hp, hq⟩ := h
  obtain ⟨scope', scopes', hq', hr⟩ := h'
  obtain ⟨rfl, rfl⟩ := cons.inj (hq.symm.trans hq')
  exact ⟨scope, scopes, hp, by rw [hr, reverse_append, append_assoc]⟩

theorem Adds.after {r : Prover} (h : q.Adds ts r) (hForce : q.inForce = p.inForce) :
    p.Adds ts r := by
  rw [Adds, ← hForce]
  exact h

theorem Adds.inForce_iff (h : p.Adds ts q) (t : Term) : q.InForce t ↔ t ∈ ts ∨ p.InForce t := by
  obtain ⟨scope, scopes, hp, hq⟩ := h
  rw [InForce, InForce, hp, hq]
  simp

theorem Adds.base (h : p.Adds ts q) : p.base <:+ q.base := by
  obtain ⟨scope, scopes, hp, hq⟩ := h
  have hLast : ∀ r : Prover, r.inForce.getLast? = some r.base := fun r => by simp [inForce]
  have hBase := hLast p
  have hBase' := hLast q
  rw [hp] at hBase
  rw [hq] at hBase'
  cases scopes with
  | nil =>
    obtain rfl := Option.some.inj hBase
    exact ⟨ts.reverse, Option.some.inj hBase'⟩
  | cons outer scopes =>
    rw [getLast?_cons_cons] at hBase hBase'
    exact Option.some.inj (hBase.symm.trans hBase') ▸ suffix_refl _

theorem mem_inForce_of_mem_base {t : Term} (h : t ∈ p.base) : p.InForce t := by
  simp [InForce, inForce, h]

theorem inForce_assertIn (t : Term) (p : Prover) {scopes : List (List Term)}
    (h : p.inForce = scope :: scopes) : (assertIn t p).inForce = (t :: scope) :: scopes := by
  unfold assertIn inForce at *
  cases hScopes : p.scopes with
  | nil =>
    rw [hScopes] at h
    cases h
    rfl
  | cons inner outer =>
    rw [hScopes] at h
    cases h
    rfl

theorem adds_assertIn (t : Term) (p : Prover) : p.Adds [t] (assertIn t p) := by
  obtain ⟨scope, scopes, h⟩ := p.exists_inForce
  exact ⟨scope, scopes, h, inForce_assertIn t p h⟩

theorem fresh_assertIn (t : Term) (p : Prover) : (assertIn t p).fresh = p.fresh := by
  unfold assertIn
  split <;> rfl

/-! ## Steps that make no difference -/

/-- All that bears on answers to come is the same, but for numbers and assertions. -/
structure Idle (p q : Prover) : Prop where
  options : q.options = p.options
  heeds : q.heedsInterrupts = p.heedsInterrupts
  interrupted : q.interrupted = p.interrupted
  canceled : q.canceled = p.canceled
  stopRequested : q.stopRequested = p.stopRequested
  script : q.script = p.script
  solver : q.solver = p.solver
  directories : q.log.disk.directories = p.log.disk.directories
  asks : q.asks = p.asks

/-- Nothing has changed but what was told to the solver about time, counted or logged. -/
structure Same (p q : Prover) : Prop extends Idle p q where
  fresh : q.fresh = p.fresh
  inForce : q.inForce = p.inForce
  last : q.last = p.last
  lastAssumptions : q.lastAssumptions = p.lastAssumptions

theorem Idle.refl (p : Prover) : p.Idle p := ⟨rfl, rfl, rfl, rfl, rfl, rfl, rfl, rfl, rfl⟩

theorem Idle.trans {r : Prover} (h : p.Idle q) (h' : q.Idle r) : p.Idle r where
  options := h'.options.trans h.options
  heeds := h'.heeds.trans h.heeds
  interrupted := h'.interrupted.trans h.interrupted
  canceled := h'.canceled.trans h.canceled
  stopRequested := h'.stopRequested.trans h.stopRequested
  script := h'.script.trans h.script
  solver := h'.solver.trans h.solver
  directories := h'.directories.trans h.directories
  asks := h'.asks.trans h.asks

/-- No answer will interrupt a prover, and nobody has interrupted it. It asks its solver only. -/
structure Mute (p : Prover) : Prop where
  script : p.script = ⟨[], none⟩
  solver : ∀ query answer, p.solver query = some answer →
    (answer.interrupts && p.heedsInterrupts) = false
  interrupted : p.interrupted = false
  canceled : p.canceled = false
  stopRequested : p.stopRequested = false

theorem Idle.mute (h : p.Idle q) (hp : p.Mute) : q.Mute := by
  refine ⟨h.script.trans hp.script, ?_, h.interrupted.trans hp.interrupted,
    h.canceled.trans hp.canceled, h.stopRequested.trans hp.stopRequested⟩
  rw [h.solver, h.heeds]
  exact hp.solver

theorem Mute.next (h : p.Mute) {query : Query} {answer : Answer} {script : Script}
    (hNext : p.next? query = some (answer, script)) :
    script = ⟨[], none⟩ ∧ (answer.interrupts && p.heedsInterrupts) = false := by
  unfold next? at hNext
  rw [h.script] at hNext
  obtain ⟨_, hAnswer, hEq⟩ := Option.map_eq_some_iff.mp hNext
  cases hEq
  exact ⟨rfl, h.solver query answer hAnswer⟩

theorem Same.refl (p : Prover) : p.Same p := ⟨.refl p, rfl, rfl, rfl, rfl⟩

theorem idle_assertIn (t : Term) (p : Prover) : p.Idle (assertIn t p) := by
  unfold assertIn
  split <;> exact ⟨rfl, rfl, rfl, rfl, rfl, rfl, rfl, rfl, rfl⟩

/-- How a time limit is told. -/
def wire (milliseconds : UInt32) : UInt32 := if milliseconds = 0 then noLimit else milliseconds

/-- A prover whose solver was told a time limit, unless it is the one it has. -/
def tell (milliseconds : UInt32) (p : Prover) : Prover :=
  if p.timeout = milliseconds then p
  else { p with timeout := milliseconds, events := .timeout (wire milliseconds) :: p.events }

theorem setTimeout_eq_tell (milliseconds : UInt32) (p : Prover) :
    setTimeout milliseconds p = .ok () (p.tell milliseconds) := by
  show (if p.timeout ≠ milliseconds then _ else _ : ProverM Unit) p = _
  unfold tell
  by_cases h : p.timeout = milliseconds
  · rw [if_neg (not_not.mpr h), if_pos h]
    rfl
  · rw [if_pos h, if_neg h]
    rfl

theorem same_tell (milliseconds : UInt32) (p : Prover) :
    p.Same (p.tell milliseconds) ∧ p.events <:+ (p.tell milliseconds).events := by
  unfold tell
  split_ifs
  · exact ⟨.refl p, suffix_refl _⟩
  · exact ⟨⟨⟨rfl, rfl, rfl, rfl, rfl, rfl, rfl, rfl, rfl⟩, rfl, rfl, rfl, rfl⟩, suffix_cons _ _⟩

/-! ## Scopes -/

/-- A prover with a new scope. -/
def opened (p : Prover) : Prover :=
  { p with events := .push :: p.events, scopes := [] :: p.scopes }

/-- A prover without its innermost scope. -/
def closed (p : Prover) : Prover :=
  { p with events := .pop 1 :: p.events, scopes := p.scopes.drop 1 }

theorem push_eq_ite (p : Prover) :
    push p = if p.canceled then
        .error (.inconclusive ⟨"push of a query scope",
          "solver context was canceled by an interrupt", true⟩) p
      else .ok () p.opened := by
  unfold push failIfCanceled
  dsimp only [bind, EStateM.bind, get, getThe, MonadStateOf.get, EStateM.get]
  cases p.canceled <;> rfl

theorem Adds.inForce_opened (h : p.opened.Adds ts q) : q.inForce = ts.reverse :: p.inForce := by
  obtain ⟨scope, scopes, hp, hq⟩ := h
  obtain ⟨rfl, rfl⟩ := cons.inj (show [] :: p.inForce = scope :: scopes from hp)
  rw [hq, append_nil]

theorem inForce_closed (h : q.inForce = scope :: p.inForce) : q.closed.inForce = p.inForce := by
  show q.scopes.drop 1 ++ [q.base] = p.inForce
  obtain ⟨inner, rest, hp⟩ := p.exists_inForce
  cases hScopes : q.scopes with
  | nil =>
    rw [inForce, hScopes, hp] at h
    simp at h
  | cons inner' outer =>
    rw [inForce, hScopes, cons_append] at h
    exact (cons.inj h).2

/-! ## Queries -/

theorem ask_eq (query : Query) (p : Prover) :
    ask query p = match p.next? query with
      | none =>
        .error .unanswered { p with checking := true, events := .check query none :: p.events }
      | some (answer, script) =>
        let heard := answer.interrupts && p.heedsInterrupts
        .ok answer.verdict { p with
          script
          checking := false
          last := answer.verdict
          lastAssumptions := query.assumptions
          stats := p.stats.count answer.verdict.outcome
          interrupted := heard || p.interrupted
          canceled := heard || p.canceled
          stopRequested := heard || p.stopRequested
          events := (if heard then [.interrupt] else []) ++
            .check query (some answer) :: p.events } := by
  unfold ask
  dsimp only [bind, EStateM.bind, modify, modifyGet, MonadStateOf.modifyGet, EStateM.modifyGet, get,
    getThe, MonadStateOf.get, EStateM.get]
  rw [show next? query { p with checking := true } = p.next? query from rfl]
  cases h : p.next? query with
  | none => rfl
  | some next =>
    obtain ⟨answer, script⟩ := next
    dsimp only
    -- the solver is at work when the interrupt arrives
    show (if (answer.interrupts && p.heedsInterrupts) = true then _ else _ : ProverM Verdict) _ = _
    cases answer.interrupts && p.heedsInterrupts <;> rfl

/-- A query was answered once. -/
structure Hears (p : Prover) (query : Query) (answer : Answer) (q : Prover) : Prop where
  options : q.options = p.options
  heeds : q.heedsInterrupts = p.heedsInterrupts
  fresh : q.fresh = p.fresh
  inForce : q.inForce = p.inForce
  timeout : q.timeout = p.timeout
  checking : q.checking = false
  interrupted : q.interrupted = (answer.interrupts && p.heedsInterrupts || p.interrupted)
  canceled : q.canceled = (answer.interrupts && p.heedsInterrupts || p.canceled)
  last : q.last = answer.verdict
  lastAssumptions : q.lastAssumptions = query.assumptions
  stats : ∃ retries, q.stats = { p.stats.count answer.verdict.outcome with retries }
  events : q.events = (if answer.interrupts && p.heedsInterrupts then [.interrupt] else []) ++
    .check query (some answer) :: p.events

section Hears

variable {query : Query} {answer : Answer}

theorem Hears.logged (h : p.Hears query answer q) (log : Log) (retries : Nat) :
    p.Hears query answer { q with log, stats := { q.stats with retries } } := by
  refine { h with stats := ⟨retries, ?_⟩ }
  obtain ⟨_, hStats⟩ := h.stats
  rw [hStats]

theorem Hears.events_suffix (h : p.Hears query answer q) :
    (.check query (some answer) :: p.events) <:+ q.events :=
  h.events ▸ suffix_append _ _

theorem Hears.asks (h : p.Hears query answer q) : q.asks = (query, some answer) :: p.asks := by
  unfold Prover.asks
  rw [h.events]
  split <;> rfl

end Hears

theorem ask_cases (query : Query) (p : Prover) :
    ask query p = .error .unanswered
        { p with checking := true, events := .check query none :: p.events } ∨
      ∃ answer q, p.Hears query answer q ∧ ask query p = .ok answer.verdict q := by
  rw [ask_eq]
  cases p.next? query with
  | none => exact .inl rfl
  | some next =>
    obtain ⟨answer, script⟩ := next
    refine .inr ⟨answer, _, ?_, rfl⟩
    exact ⟨rfl, rfl, rfl, rfl, rfl, rfl, rfl, rfl, rfl, rfl, ⟨_, rfl⟩, rfl⟩

/-- What follows on an answer to a query: the verdict is returned, or the query is given up, or it
is asked again. -/
inductive Follows (query : Query) (answer : Answer) (q : Prover) (milliseconds : UInt32) :
    Nat → EStateM.Result Error Prover Bool → Prop
  | settled {retries : Nat} {found : Bool} : Settles found answer.verdict →
      Follows query answer q milliseconds retries (.ok found (q.tell q.options.timeout))
  | interrupted {retries : Nat} {why : String} : answer.verdict = .unknown why →
      q.interrupted = true → Follows query answer q milliseconds retries
        (.error (.inconclusive ⟨query.question.description, "interrupted", true⟩)
          (q.tell q.options.timeout))
  | exhausted {why : String} : answer.verdict = .unknown why → q.interrupted = false →
      Follows query answer q milliseconds 0
        (.error (.inconclusive ⟨query.question.description, beforeNul why, false⟩)
          (q.tell q.options.timeout))
  | again {retries : Nat} {why : String} : answer.verdict = .unknown why → q.interrupted = false →
      Follows query answer q milliseconds (retries + 1)
        (attempt query (doubled milliseconds) retries (q.tell (doubled milliseconds)))

/-- **An attempt at a query goes unanswered, or an answer is heard and followed.** -/
theorem attempt_cases (query : Query) (milliseconds : UInt32) (retries : Nat) (p : Prover) :
    attempt query milliseconds retries p = .error .unanswered
        { p with checking := true, events := .check query none :: p.events } ∨
      ∃ answer q, p.Hears query answer q ∧
        Follows query answer q milliseconds retries (attempt query milliseconds retries p) := by
  have hTell : ∀ {milliseconds : UInt32} {next : ProverM Bool} {q : Prover},
      (setTimeout milliseconds >>= fun _ => next) q = next (q.tell milliseconds) := by
    intro milliseconds next q
    show EStateM.bind _ _ q = _
    rw [EStateM.bind, setTimeout_eq_tell]
  rw [attempt.eq_def]
  show EStateM.bind (ask query) _ p = _ ∨
    ∃ answer q, _ ∧ Follows _ _ _ _ _ (EStateM.bind (ask query) _ p)
  unfold EStateM.bind
  rcases ask_cases query p with hRun | ⟨answer, q, hHears, hRun⟩
  · rw [hRun]
    exact .inl rfl
  rw [hRun]
  refine .inr ⟨answer, ?_⟩
  -- the prover that goes on differs from this one in the log and in the count of retries
  have hSettled : ∀ {found : Bool} {log : Log}, Settles found answer.verdict →
      ∃ u, p.Hears query answer u ∧ Follows query answer u milliseconds retries
        ((setTimeout q.options.timeout >>= fun _ => pure found : ProverM Bool) { q with log }) := by
    intro found log hSettles
    refine ⟨_, hHears.logged log q.stats.retries, ?_⟩
    rw [hTell]
    exact .settled hSettles
  cases hVerdict : answer.verdict with
  | sat m => exact hSettled ⟨m, hVerdict⟩
  | unsat core => exact hSettled ⟨core, hVerdict⟩
  | unknown why =>
    let log := q.log.entry .queries fun _ =>
      attemptLine query (Verdict.unknown why).outcome q.stats.queries
    show ∃ u, _ ∧ Follows _ _ _ _ _ ((if q.interrupted = true then _ else _ : ProverM Bool)
      { q with log })
    by_cases hInterrupted : q.interrupted = true
    · refine ⟨_, hHears.logged log q.stats.retries, ?_⟩
      rw [if_pos hInterrupted, hTell]
      exact .interrupted hVerdict hInterrupted
    · rw [if_neg hInterrupted]
      have hFree : q.interrupted = false := by simpa using hInterrupted
      cases retries with
      | zero =>
        refine ⟨_, hHears.logged log q.stats.retries, ?_⟩
        dsimp only
        rw [hTell]
        exact .exhausted hVerdict hFree
      | succ retries =>
        refine ⟨_, hHears.logged (log.progress fun _ =>
          retryLine query (beforeNul why) (doubled milliseconds)) (q.stats.retries + 1), ?_⟩
        show Follows _ _ _ _ _ ((setTimeout (doubled milliseconds) >>= fun _ =>
          attempt query (doubled milliseconds) retries) { q with log := _, stats := _ })
        rw [hTell]
        exact .again hVerdict hFree

theorem check_eq (assumptions : List Term) (question : Question) (p : Prover) :
    check assumptions question p =
      if p.canceled then
        .error (.inconclusive ⟨question.description,
          "solver context was canceled by an interrupt", true⟩) p
      else if p.interrupted then
        .error (.inconclusive ⟨question.description, "interrupted", true⟩) p
      else attempt ⟨question, p.inForce, assumptions⟩ p.options.timeout p.options.retries
        (p.tell p.options.timeout) := by
  have hCheck : failIfCanceled question.description p =
      if p.canceled then
        .error (.inconclusive ⟨question.description,
          "solver context was canceled by an interrupt", true⟩) p
      else .ok () p := by
    show (if p.canceled then _ else _ : ProverM Unit) p = _
    split <;> rfl
  show EStateM.bind (failIfCanceled question.description) _ p = _
  rw [EStateM.bind, hCheck]
  by_cases hCanceled : p.canceled = true
  · rw [if_pos hCanceled, if_pos hCanceled]
  · rw [if_neg hCanceled, if_neg hCanceled]
    show (if p.interrupted then _ else _ : ProverM Bool) p = _
    split
    · rfl
    · show EStateM.bind (setTimeout p.options.timeout) _ p = _
      rw [EStateM.bind, setTimeout_eq_tell]

end Prover

end InvariantSearch
