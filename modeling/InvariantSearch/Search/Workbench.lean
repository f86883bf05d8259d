import InvariantSearch.Search.Basic

/-!
# The workbench

A session for single steps. It keeps what steps hand on to each other: the
indicators made so far, the last trace and the last diagram, a generalizer,
and a search.
-/

namespace InvariantSearch

/-- A session, and what steps hand on to each other. -/
structure Workbench where
  session : Session
  indicators : List Term
  trace : Trace
  diagram : Diagram
  generalizer : Generalizer
  search : Option Search

/-- Steps at a workbench. What a failing step did stays done. -/
abbrev BenchM := EStateM Error Workbench

namespace Workbench

def new (s : Session) : Workbench := ⟨s, [], .empty, .empty, .new true, none⟩

variable {α : Type}

def inSession (act : SessionM α) : BenchM α := fun w =>
  match act w.session with
  | .ok a session => .ok a { w with session }
  | .error e session => .error e { w with session }

def inGeneralizer (act : WorkM Generalizer α) : BenchM α := fun w =>
  match act (w.session, w.generalizer) with
  | .ok a (session, generalizer) => .ok a { w with session, generalizer }
  | .error e (session, generalizer) => .error e { w with session, generalizer }

/-- Starts a new search, which nobody has asked to stop. -/
def startSearch (options : SearchOptions) : BenchM Search := do
  let search ← liftExcept .program (Search.new (← get).session.program options)
  inSession (Session.proving (modify fun p => { p with stopRequested := false }))
  modify fun w => { w with search := some search }
  return search

/-- Lets the search do something. One with the standard options is started when
there is none. -/
def inSearch (act : SearchM α) : BenchM α := do
  let search ← match (← get).search with
    | some search => pure search
    | none => startSearch .standard
  fun w =>
    match act (w.session, search) with
    | .ok a (session, search) => .ok a { w with session, search := some search }
    | .error e (session, search) => .error e { w with session, search := some search }

/-- Keeps a trace, if there is one. -/
def keepTrace (t : Option Trace) : BenchM Unit := modify fun w => { w with trace := t.getD w.trace }

/-- Keeps the trace of a run that was found, also where its steps cannot be
named. -/
def keepSighting (found : Option Session.Sighting) : BenchM (Option Trace) := do
  keepTrace (found.map Session.Sighting.shown)
  let t ← Session.Sighting.settle found
  keepTrace t
  return t

def keepDiagram (d : Diagram) : BenchM Unit := modify fun w => { w with diagram := d }

def indicator (name : String) : BenchM Term := do
  let c ← inSession (Session.proving (Prover.indicator name))
  modify fun w => { w with indicators := w.indicators ++ [c.term] }
  return c.term

def chosenIndicators (positions : List Nat) : BenchM (List Term) := do
  let indicators := (← get).indicators
  return positions.filterMap fun i => indicators[i]?

def transition (name : String) : BenchM Transition := do
  match (← get).session.program.transition? name with
  | some t => return t
  | none => throw (.unknownTransition name)

/-- Keeps the diagram of a state of the last trace. -/
def diagramOfTrace (index : Nat) (simplify : Bool) : BenchM Diagram := do
  let d ← inSession (Session.diagram (← get).trace index simplify)
  keepDiagram d
  return d

/-- Looks for a predecessor of the last diagram, and keeps the trace that shows
it. -/
def predecessor (frame : Formula) (context : String) (wantCore : Bool) :
    BenchM PredecessorAnswer := do
  let d := (← get).diagram
  let answer ← inGeneralizer (Generalizer.predecessor frame d context ⟨true, wantCore⟩)
  keepTrace (answer.predecessor.bind Predecessor.trace)
  return answer

/-- Generalizes the last diagram, and keeps the result. -/
def generalize (frame : Formula) (context : String) : BenchM Diagram := do
  let d ← inGeneralizer (Generalizer.generalize (← get).diagram frame context)
  keepDiagram d
  return d

def restore (source text : String) : BenchM Unit := do
  let p := (← get).session.program
  inSearch (Search.restoreFrom source (Checkpoint.read p source text))

/-- Hands out the events since the last time, oldest first. -/
def takeEvents (w : Workbench) : List Event × Workbench :=
  let prover := w.session.prover
  (prover.events.reverse,
    { w with session := { w.session with prover := { prover with events := [] } } })

end Workbench

end InvariantSearch
