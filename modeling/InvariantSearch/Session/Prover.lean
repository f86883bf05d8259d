import InvariantSearch.Session.Error
import InvariantSearch.Solver.Script

/-!
# The prover

A prover guards the door to the solver. It keeps the stack of scopes, asks
queries again when they come back undecided, and sees to it that an interrupt
is never lost.

* `Prover.push` and `Prover.pop` open and close scopes; `Prover.assert` adds a
  term to the innermost one.
* `Prover.check` asks a query. An undecided query is asked again, with twice
  the time each time, as often as the options allow.
* An interrupt that arrives between queries holds up every query until it is
  cleared. One that arrives during a query cancels the solver for good.
-/

namespace InvariantSearch

/-- How a prover asks. -/
structure ProverOptions where
  /-- Milliseconds for the first attempt at a query; 0 for no limit. -/
  timeout : UInt32
  seed : Nat
  /-- How often an undecided query is asked again. -/
  retries : Nat
  minimizeCores : Bool
  /-- Whether models are made as small as possible. -/
  minimizeModels : Bool
  deriving DecidableEq, Repr

/-- The options a prover has when nothing else is asked for. -/
def ProverOptions.standard : ProverOptions := ⟨0, 0, 2, true, true⟩

/-- How many queries were asked, and how they ended. -/
structure QueryStats where
  queries : Nat
  sat : Nat
  unsat : Nat
  unknown : Nat
  retries : Nat
  deriving DecidableEq, Repr

namespace QueryStats

def zero : QueryStats := ⟨0, 0, 0, 0, 0⟩

def count (s : QueryStats) : Outcome → QueryStats
  | .sat => { s with queries := s.queries + 1, sat := s.sat + 1 }
  | .unsat => { s with queries := s.queries + 1, unsat := s.unsat + 1 }
  | .unknown => { s with queries := s.queries + 1, unknown := s.unknown + 1 }

end QueryStats

/-- The state of the conversation with a solver. -/
structure Prover where
  options : ProverOptions
  script : Script
  /-- What the solver says to a query when the script is used up. -/
  solver : Query → Option Answer := fun _ => none
  /-- The number of the next fresh constant. -/
  fresh : Nat
  /-- What is asserted outside of all scopes, newest first. -/
  base : List Term
  /-- What is asserted in each open scope, innermost scope and newest
  assertion first. -/
  scopes : List (List Term)
  /-- The time limit that the solver was last told. -/
  timeout : UInt32
  interrupted : Bool
  canceled : Bool
  /-- Whether the solver is at work. -/
  checking : Bool
  /-- Whether a search is asked to stop. -/
  stopRequested : Bool
  /-- Whether an answer that arrives with an interrupt interrupts this
  prover. -/
  heedsInterrupts : Bool
  /-- The last verdict, and the assumptions it was given under. -/
  last : Verdict
  lastAssumptions : List Term
  stats : QueryStats
  log : Log
  /-- What passed between prover and solver, newest first. -/
  events : List Event

/-- Computations with a prover. What a failing computation did stays done. -/
abbrev ProverM := EStateM Error Prover

namespace Prover

def record (event : Event) : ProverM Unit :=
  modify fun p => { p with events := event :: p.events }

def logging (f : Log → Log) : ProverM Unit := modify fun p => { p with log := f p.log }

def onDisk {ε α : Type} (f : ε → Error) (act : EStateM ε Disk α) : ProverM α := fun p =>
  match act p.log.disk with
  | .ok a disk => .ok a { p with log := { p.log with disk } }
  | .error e disk => .error (f e) { p with log := { p.log with disk } }

def noLimit : UInt32 := 4294967295

/-- Tells the solver its time limit, unless it is the one it has. -/
def setTimeout (milliseconds : UInt32) : ProverM Unit := do
  if (← get).timeout ≠ milliseconds then
    record (.timeout (if milliseconds = 0 then noLimit else milliseconds))
    modify fun p => { p with timeout := milliseconds }

def start (options : ProverOptions) (script : Script) (heedsInterrupts : Bool) (log : Log) :
    Prover :=
  let seed := toString options.seed
  let events : List Event := [
    .parameter "model_evaluator.completion" "true",
    .parameter "smt.core.minimize" (if options.minimizeCores then "true" else "false"),
    .parameter "sat.random_seed" seed,
    .parameter "smt.random_seed" seed]
  { options, script, heedsInterrupts, log
    fresh := 0, base := [], scopes := []
    timeout := options.timeout
    interrupted := false, canceled := false, checking := false, stopRequested := false
    last := .unknown "", lastAssumptions := []
    stats := .zero
    events := if options.timeout = 0 then events else .timeout options.timeout :: events }

/-! ## Scopes and assertions -/

/-- Fails when the solver was canceled. -/
def failIfCanceled (query : String) : ProverM Unit := do
  if (← get).canceled then
    throw (.inconclusive ⟨query, "solver context was canceled by an interrupt", true⟩)

def push : ProverM Unit := do
  failIfCanceled "push of a query scope"
  record .push
  modify fun p => { p with scopes := [] :: p.scopes }

def close (count : Nat) : ProverM Unit := do
  record (.pop count)
  modify fun p => { p with scopes := p.scopes.drop count }

def pop (count : Nat) : ProverM Unit := do
  let opened := (← get).scopes.length
  if opened < count then throw (.scopes count opened)
  close count

def assertIn (term : Term) (p : Prover) : Prover :=
  match p.scopes with
  | [] => { p with base := term :: p.base }
  | scope :: scopes => { p with scopes := (term :: scope) :: scopes }

def assert (term : Term) : ProverM Unit := do
  logging fun log => log.framedEntry .assertions fun _ => "Asserting:\n" ++ term.render ++ "\n"
  record (.assert term)
  modify (assertIn term)

/-- The assertions in force, scope by scope. -/
def inForce (p : Prover) : List (List Term) := p.scopes ++ [p.base]

def assertionCount (p : Prover) : Nat := p.inForce.flatten.length

/-- A fresh truth value, to switch assertions with. -/
def indicator (name : String) : ProverM SolverConst := do
  let number := (← get).fresh
  modify fun p => { p with fresh := number + 1 }
  return ⟨beforeNul name ++ "!" ++ toString number, .bool, number⟩

/-! ## Interrupts -/

/-- An interrupt arrives. Only a solver at work hears of it. -/
def interrupt : ProverM Unit := do
  modify fun p => { p with interrupted := true }
  if (← get).checking then
    modify fun p => { p with canceled := true }
    record .interrupt

def requestStop : ProverM Unit := do
  modify fun p => { p with stopRequested := true }
  interrupt

/-- Forgets an interrupt. A canceled solver stays canceled. -/
def clearInterrupt : ProverM Unit := modify fun p => { p with interrupted := false }

/-! ## Queries -/

/-- The answer to a query, and the script after it. -/
def next? (query : Query) (p : Prover) : Option (Answer × Script) :=
  match p.script.next? with
  | some next => some next
  | none => (p.solver query).map fun answer => (answer, p.script)

def ask (query : Query) : ProverM Verdict := do
  modify fun p => { p with checking := true }
  match (← get).next? query with
  | none => do
    record (.check query none)
    throw .unanswered
  | some (answer, script) => do
    record (.check query (some answer))
    modify fun p => { p with script }
    if answer.interrupts && (← get).heedsInterrupts then requestStop
    modify fun p => { p with
      checking := false
      last := answer.verdict
      lastAssumptions := query.assumptions
      stats := p.stats.count answer.verdict.outcome }
    return answer.verdict

/-- Twice the time, as far as it can be told. -/
def doubled (milliseconds : UInt32) : UInt32 :=
  if noLimit / 2 < milliseconds then noLimit else milliseconds * 2

def attemptLine (query : Query) (outcome : Outcome) (number : Nat) : String :=
  "[query " ++ toString number ++ "] " ++ query.question.description ++ ": " ++ outcome.word ++
    " in T s, " ++ toString query.assumptions.length ++ " assumptions\n"

/-- The log's line before another attempt. -/
def retryLine (query : Query) (reason : String) (milliseconds : UInt32) : String :=
  "Query \"" ++ query.question.description ++ "\" returned unknown (" ++ reason ++
    "), retrying with timeout " ++ toString milliseconds.toNat ++ " ms\n"

/-- Asks a query, and as often again as `retries` says while it is undecided
and nobody interrupts. -/
def attempt (query : Query) (milliseconds : UInt32) (retries : Nat) : ProverM Bool := do
  let verdict ← ask query
  let p ← get
  logging fun log => log.entry .queries fun _ =>
    attemptLine query verdict.outcome p.stats.queries
  match verdict with
  | .sat _ => do
    setTimeout p.options.timeout
    return true
  | .unsat _ => do
    setTimeout p.options.timeout
    return false
  | .unknown why =>
    let reason := beforeNul why
    if p.interrupted then do
      setTimeout p.options.timeout
      throw (.inconclusive ⟨query.question.description, "interrupted", true⟩)
    else
      match retries with
      | 0 => do
        setTimeout p.options.timeout
        throw (.inconclusive ⟨query.question.description, reason, false⟩)
      | retries + 1 => do
        let milliseconds := doubled milliseconds
        modify fun p => { p with stats := { p.stats with retries := p.stats.retries + 1 } }
        logging fun log => log.progress fun _ => retryLine query reason milliseconds
        setTimeout milliseconds
        attempt query milliseconds retries

/-- Whether the assertions in force are satisfiable together with some
assumptions. -/
def check (assumptions : List Term) (question : Question) : ProverM Bool := do
  failIfCanceled question.description
  let p ← get
  if p.interrupted then throw (.inconclusive ⟨question.description, "interrupted", true⟩)
  setTimeout p.options.timeout
  attempt ⟨question, p.inForce, assumptions⟩ p.options.timeout p.options.retries

/-- The model of the last query, which must have been satisfiable. -/
def model : ProverM SolverModel := do
  match (← get).last with
  | .sat m => return m
  | _ => throw .noModel

/-- The unsatisfiable core of the last query: assumptions that contradict the
assertions on their own. -/
def core : ProverM (List Term) := do
  let p ← get
  match p.last with
  | .unsat none => return p.lastAssumptions
  | .unsat (some positions) =>
    return positions.filterMap fun position => p.lastAssumptions[position]?
  | _ => throw .noCore

end Prover

end InvariantSearch
