import InvariantSearch.CommandLine.Options
import InvariantSearch.Report.Json

/-!
# Runs

`run` does what a command line asks for. It is a function of the words, the
files and the solver's answers; what it gives is the exit status, what was
printed, what was complained about, the files and the record of all queries.

* Results go to standard output, as text or as JSON. The log goes there too,
  unless it has a file.
* A search that ends with an invariant is not taken at its word: a session of
  its own checks that the invariant is inductive and implies safety.
* An error ends the run; what was printed and written before stays.
-/

namespace InvariantSearch

/-- How a run ends. -/
inductive ExitStatus where
  | success
  /-- A property fails. -/
  | violation
  | inconclusive
  | error
  deriving DecidableEq, Repr

def ExitStatus.code : ExitStatus → Nat
  | .success => 0
  | .violation => 1
  | .inconclusive => 2
  | .error => 3

/-- What a run works with. -/
structure Desk where
  /-- The log, with standard output and the disk. -/
  log : Log
  script : Script
  /-- What passed between provers and solver, newest first. -/
  events : List Event

/-- Parts of a run. What a failing part did stays done. -/
abbrev RunM := EStateM Error Desk

def Failure.toReport (f : Failure) : Report :=
  .parts ([("kind", .text f.kind.word), ("property", .text f.property)] ++
    (if f.transition = "" then [] else [("transition", .text f.transition)]) ++
    [("counterexample", f.violation.toReport)])

namespace Run

variable {α : Type}

/-! ## Sessions and output -/

def putBack (s : Session) (d : Desk) : Desk :=
  { d with
    log := s.prover.log
    script := s.prover.script
    events := s.prover.events ++ d.events }

/-- Does something in a session of its own, and counts the queries. -/
def inSession (o : Options) (p : Program) (act : SessionM α) : RunM (α × Nat) := fun d =>
  match Session.start p o.label (.start o.prover d.script false d.log) with
  | .error e s => .error e (putBack s d)
  | .ok _ s =>
    match act s with
    | .error e s => .error e (putBack s d)
    | .ok a s => .ok (a, s.prover.stats.queries) (putBack s d)

def print (text : String) : RunM Unit := modify fun d => { d with log := d.log.print text }

/-- Prints a result, as text or as JSON. -/
def printResult (o : Options) (text : String) (entries : List (String × Report)) : RunM Unit :=
  print (if o.json then
    Report.render ([("version", .nat 1), ("subcommand", .text o.subcommand.word)] ++ entries)
  else text)

/-! ## Subcommands -/

def readProgram (file : String) : RunM Program := do
  match (← get).log.disk.read? file with
  | none => throw (.unreadable file)
  | some text => liftExcept (.source file) (Program.read text)

def typecheck (o : Options) (p : Program) : RunM Unit :=
  printResult o
    (o.file ++ ": " ++ toString p.sorts.length ++ " sorts, " ++ toString p.symbols.length ++
      " symbols, " ++ toString p.transitions.length ++ " transitions, " ++
      toString p.invariants.length ++ " invariants\n")
    [("result", .text "ok")]

/-- Goes on from a checkpoint, if there is one, and searches. -/
def resume (fuel : Nat) (o : Options) (p : Program) : SearchM SearchResult := do
  if o.checkpoint ≠ "" then
    let disk := (← WorkM.session).prover.log.disk
    Search.restoreFrom o.checkpoint (Checkpoint.load p o.checkpoint disk)
  Search.run fuel

def searchStatus : Conclusion → ExitStatus
  | .proved _ _ => .success
  | .disproved _ => .violation
  | .interrupted => .inconclusive

/-- Searches for an inductive invariant, and checks the one that is found. -/
def search (fuel : Nat) (o : Options) (p : Program) : RunM (ExitStatus × Nat) := do
  let ((result, state), queries) ← inSession o p do
    let start ← liftExcept .program (Search.new p o.search)
    WorkM.startingWith start (resume fuel o p)
  let result ← liftExcept id result
  if let .proved _ invariant := result.conclusion then
    let (failures, _) ← inSession o p (Session.checkInductive invariant state.safety)
    if let failure :: _ := failures then throw (.refuted failure.render)
  printResult o result.render result.toReport
  return (searchStatus result.conclusion, queries)

def reportFailures (o : Options) (what : String) (failures : List Failure) :
    RunM ExitStatus := do
  let text :=
    if failures.isEmpty then "All " ++ what ++ " hold\n"
    else
      toString failures.length ++ " check(s) on " ++ what ++ " failed:\n" ++
        String.join (failures.map fun f => f.render ++ "\n")
  printResult o text
    [("result", .text (if failures.isEmpty then "valid" else "invalid")),
      ("failures", .list (failures.map Failure.toReport))]
  return if failures.isEmpty then .success else .violation

/-- The violation of a property within the fewest steps, where so many numbers
of steps are tried, from one number on. -/
def shortestViolation (property : Formula) (depth : Nat) : Nat → SessionM (Option (Nat × Trace))
  | 0 => return none
  | tries + 1 => do
    match ← Session.findViolation property depth with
    | some t => return some (depth, t)
    | none => shortestViolation property (depth + 1) tries

def bounded (o : Options) (p : Program) : RunM (ExitStatus × Nat) := do
  let (found, queries) ← inSession o p do
    let safety ← liftExcept .program (p.safety o.search.safetyName)
    shortestViolation safety 0 (o.depth + 1)
  match found with
  | some (depth, t) =>
    printResult o ("Safety is violated after " ++ toString depth ++ " steps:\n" ++ t.render)
      [("result", .text "disproved"), ("depth", .nat depth), ("counterexample", t.toReport)]
    return (.violation, queries)
  | none =>
    printResult o ("No safety violation within " ++ toString o.depth ++ " steps\n")
      [("result", .text "bounded-safe"), ("depth", .nat o.depth)]
    return (.success, queries)

/-- Verifies something of the program, and reports the failures. -/
def verify (o : Options) (p : Program) (what : String) (act : SessionM (List Failure)) :
    RunM (ExitStatus × Nat) := do
  let (failures, queries) ← inSession o p act
  return (← reportFailures o what failures, queries)

/-- The last lines of a run. Nothing here measures time and memory, so letters
stand for them. -/
def closingLines (queries : Nat) : String :=
  "Solver queries: " ++ toString queries ++ "\nTime: T\nPeak memory: M\n"

def perform (fuel : Nat) (o : Options) : RunM ExitStatus := do
  let p ← readProgram o.file
  let closing (work : RunM (ExitStatus × Nat)) : RunM ExitStatus := do
    let (status, queries) ← work
    modify fun d => { d with log := d.log.progress fun _ => closingLines queries }
    return status
  match o.subcommand with
  | .typecheck => do
    typecheck o p
    return .success
  | .search => closing (search fuel o p)
  | .verify =>
    closing (verify o p "invariants" (Session.verifyInvariants o.invariants o.transitions))
  | .theorems => closing (verify o p "theorems" Session.verifyTheorems)
  | .bounded => closing (bounded o p)

/-! ## The whole run -/

def name : String := "fopdr: "

/-- Whether the complaint about an error ends its line. Of the internal errors,
only those of a model's values do, and those that a NUL cuts short. -/
def endsLine : Error → Bool
  | .readback (.model _) => true
  | e => e.kind ≠ .internal || hasNul e.wording

/-- The complaint about an error. A script that is used up is no fault of the
run, and nothing is said about it. -/
def complaint (e : Error) : String :=
  let line (heading : String) : String :=
    name ++ heading ++ e.message ++ (if endsLine e then "\n" else "")
  match e.kind with
  | .input => line "error: "
  | .checkpoint => line "error: "
  | .inconclusive => line "inconclusive: "
  | .internal => line "internal error: InternalError: "
  | .unanswered => ""

/-- The exit status that an error leads to; a script that is used up leads to
none. -/
def errorStatus? (e : Error) : Option ExitStatus :=
  match e.kind with
  | .inconclusive => some .inconclusive
  | .unanswered => none
  | _ => some .error

end Run

/-- What a run leaves behind. -/
structure Aftermath where
  /-- None when the solver's script was used up. -/
  status : Option ExitStatus
  /-- What was printed to standard output. -/
  output : String
  /-- What was printed to standard error. -/
  complaints : String
  disk : Disk
  /-- What passed between provers and solver, oldest first. -/
  events : List Event

namespace Aftermath

/-- The aftermath of what lies on a desk. -/
def ofDesk (d : Desk) (status : Option ExitStatus) (complaints : String) : Aftermath :=
  ⟨status, d.log.output, complaints, d.log.disk, d.events.reverse⟩

end Aftermath

/-- Does what a command line asks for. Rounds of a search are bounded by
`fuel`. -/
def run (fuel : Nat) (script : Script) (disk : Disk) (words : List String) : Aftermath :=
  let desk : Desk := ⟨.new disk, script, []⟩
  match Options.read (words.map beforeNul) with
  | .error fault => .ofDesk desk (some .error) (Run.name ++ fault.message ++ "\n")
  | .ok .help => .ofDesk { desk with log := desk.log.print Options.help } (some .success) ""
  | .ok (.run o) =>
    let log := desk.log.start o.logFile o.compression
    let (log, unknown) := log.enableAll o.topics.toList
    let desk := { desk with log }
    match unknown with
    | some topic => .ofDesk desk (some .error) (Run.name ++ topic.message)
    | none =>
      match Run.perform fuel o desk with
      | .ok status desk => .ofDesk desk (some status) ""
      | .error e desk => .ofDesk desk (Run.errorStatus? e) (Run.complaint e)

end InvariantSearch
