import InvariantSearch.Session.Bounded
import InvariantSearch.Session.Verification
import InvariantSearch.Search.Generalization
import InvariantSearch.Search.Frames
import InvariantSearch.Search.Result
import InvariantSearch.Checkpoint.File

/-!
# The search for an inductive invariant

Property directed reachability. The search keeps frames of predicates and
strengthens them until two neighbours are equal, which are then an inductive
invariant, or until a chain of obligations reaches an initial state.

* `Search.processObligations` works off the stack: the top gets a predecessor
  one frame lower, or is excluded by a predicate that is learned.
* `Search.blockBadStates` turns violations of safety in the last frame into
  obligations.
* `Search.pushPredicates` moves predicates on to later frames where they hold.
* `Search.run` does all that again and again. It stops on request, at a limit,
  or when a query is interrupted, and can then be run again or saved.

Rounds are bounded by an explicit `fuel`.
-/

namespace InvariantSearch

/-- Which violations of safety are looked for together. -/
inductive ObligationOrder where
  /-- Any violation of any safety property, by one query. -/
  | deepest
  /-- The safety properties one after the other. -/
  | declared
  deriving DecidableEq, Repr

/-- The order that a word stands for. -/
def ObligationOrder.ofWord? : String → Option ObligationOrder
  | "deepest" => some .deepest
  | "declared" => some .declared
  | _ => none

/-- Whether predicates are pushed out of frame 0. -/
inductive PushFrameZero where
  | ifTrivial | always | never
  deriving DecidableEq, Repr

def PushFrameZero.ofWord? : String → Option PushFrameZero
  | "if_trivial" => some .ifTrivial
  | "always" => some .always
  | "never" => some .never
  | _ => none

/-- How a search works. -/
structure SearchOptions where
  order : ObligationOrder
  pushFrameZero : PushFrameZero
  /-- Whether states that keep a predicate from being pushed become
  obligations. -/
  blockMay : Bool
  /-- Whether learned predicates are checked by bounded unrolling. -/
  smokeTest : Bool
  /-- Whether each frame is checked to lead into the next one. -/
  assertInductive : Bool
  useCores : Bool
  simplifyDiagrams : Bool
  /-- Whether counterexamples are made concrete. -/
  concretize : Bool
  /-- How many iterations are done; 0 for no limit. -/
  maxIterations : Nat
  /-- The invariant to establish; all safety properties when empty. -/
  safetyName : String
  /-- The file for checkpoints; none when empty. -/
  checkpoint : String
  deriving DecidableEq, Repr

/-- The options a search has when nothing else is asked for. -/
def SearchOptions.standard : SearchOptions :=
  ⟨.deepest, .ifTrivial, false, false, false, true, true, true, 0, "", ""⟩

/-- What a search has done. -/
structure SearchStats where
  obligations : Nat
  mayObligations : Nat
  discarded : Nat
  badStateQueries : Nat
  pushAttempts : Nat
  pushed : Nat
  smokeTests : Nat
  subsumed : Nat
  deriving DecidableEq, Repr

def SearchStats.zero : SearchStats := ⟨0, 0, 0, 0, 0, 0, 0, 0⟩

/-- A search for an inductive invariant. -/
structure Search where
  options : SearchOptions
  safety : Formula
  /-- The safety properties, one by one. -/
  properties : List Formula
  generalizer : Generalizer
  state : SearchState
  stats : SearchStats

/-- Computations of a search. -/
abbrev SearchM := WorkM Search

namespace Search

open WorkM

def new (p : Program) (options : SearchOptions) : Except ProgramFault Search := do
  let safety ← p.safety options.safetyName
  let properties :=
    if options.safetyName ≠ "" then [safety] else p.safeties.map fun i => i.formula
  return {
    options, safety, properties
    generalizer := .new options.useCores, state := .empty, stats := .zero }

/-! ## Parts of a search -/

def change (f : SearchState → SearchState) : SearchM Unit :=
  update fun s => { s with state := f s.state }

def count (f : SearchStats → SearchStats) : SearchM Unit :=
  update fun s => { s with stats := f s.stats }

def inGeneralizer {α : Type} (act : WorkM Generalizer α) : SearchM α :=
  inPart Search.generalizer (fun generalizer s => { s with generalizer }) act

def frame (s : SearchState) (index : Nat) : Except Error (List Formula) :=
  match s.frames[index]? with
  | some predicates => .ok predicates
  | none => .error (.noFrame index s.frames.length)

def frameFormula (p : Program) (s : SearchState) (index : Nat) : Except Error Formula := do
  let predicates ← frame s index
  return Formula.conj (if index = 0 then p.initial :: predicates else predicates)

def currentFormula (index : Nat) : SearchM Formula := do
  let p := (← session).program
  liftExcept id (frameFormula p (← own).state index)

/-- The diagram of a state of a trace, as the options ask for it. -/
def diagramOf (t : Trace) (index : Nat) : SearchM Diagram := do
  let simplify := (← own).options.simplifyDiagrams
  inSession (Session.diagram t index simplify)

/-! ## Counterexamples -/

/-- Makes a chain of conditions and transitions concrete: as it stands, or by
any run of that length. The message tells which. -/
def concretize (safety : Formula) (states : List Formula) (transitions : List String) :
    SessionM (Option Trace × String) := do
  let steps := toString transitions.length ++ " steps"
  match ← Session.findTrace (states.map some) transitions "replay of the counterexample chain" with
  | some t => return (some t, "Safety is violated by a concrete trace of " ++ steps)
  | none =>
    match ← Session.findViolation safety transitions.length with
    | some t => return (some t, "Safety is violated within " ++ steps)
    | none => return (none, "Safety is violated by an abstract trace of " ++ steps)

/-- A conclusion and a message. -/
abbrev Ending := Conclusion × String

/-- The counterexample that the stack shows once its top is at frame 0. The
stack is empty afterwards. -/
def counterexample : SearchM Ending := do
  let s ← own
  let (states, transitions) := chainSteps s.safety [] s.state.chain
  let (trace, message) ←
    if s.options.concretize then inSession (concretize s.safety states transitions)
    else pure (none, "Safety is violated by an abstract trace of " ++
      toString transitions.length ++ " steps")
  change fun state => { state with obligations := [] }
  return (.disproved ⟨states, transitions, trace⟩, message)

/-! ## Blocking -/

def smokeTest (predicate : Formula) (index : Nat) : SearchM Unit := do
  count fun s => { s with smokeTests := s.smokeTests + 1 }
  match ← inSession (Session.findViolation predicate index) with
  | some t => throw (.smoke predicate index t)
  | none => pure ()

def learn (predicate : Formula) (index : Nat) : SearchM Unit := do
  change fun s => s.learn predicate index
  logging fun log => log.entry .blocking fun _ =>
    "Learned at frames 0.." ++ toString index ++ ": " ++ predicate.render ++ "\n"

/-- Works on the obligation on top of the stack, which is above frame 0. -/
def processTop (position : Nat) (o : Obligation) : SearchM Unit := do
  let context := "obligation " ++ toString position ++ " at frame " ++ toString o.frame
  let before ← currentFormula (o.frame - 1)
  let answer ← inGeneralizer (Generalizer.predecessor before o.diagram context ⟨true, false⟩)
  match answer.predecessor with
  | some ⟨transition, trace⟩ => do
    let d ← diagramOf (trace.getD .empty) 0
    change fun s => s.pushObligation ⟨o.frame - 1, d, transition, position, o.may⟩
    count fun s => { s with obligations := s.obligations + 1 }
    logging fun log => log.entry .blocking fun _ =>
      "Predecessor of " ++ context ++ " via " ++ transition ++ ", new obligation at frame " ++
        toString (o.frame - 1) ++ "\n"
  | none => do
    let small ← inGeneralizer (Generalizer.generalize o.diagram before context)
    let predicate := small.toPredicate
    learn predicate o.frame
    if (← own).options.smokeTest then smokeTest predicate o.frame
    change SearchState.popObligation

/-- Gives up on an obligation that would disprove nothing. -/
def discardMay : SearchM Unit := do
  logging fun log => log.entry .blocking fun _ =>
    "May obligation reached frame 0, giving up on it\n"
  change SearchState.discardChain
  count fun s => { s with discarded := s.discarded + 1 }

/-- Works off the stack of obligations. Ends early with a counterexample when
one of them reaches frame 0. -/
def processObligations : Nat → SearchM (Option Ending)
  | 0 => throw .outOfFuel
  | fuel + 1 => do
    let stack := (← own).state.obligations
    match stack.getLast? with
    | none => return none
    | some o =>
      if o.frame = 0 then
        if o.may then
          discardMay
          processObligations fuel
        else
          let ending ← counterexample
          return some ending
      else
        processTop (stack.length - 1) o
        processObligations fuel

/-- A state of a frame that violates a property, if there is one. -/
def findBadState (index : Nat) (property : Formula) : SearchM (Option Trace) := do
  let e ← inSession (Session.overSteps 1)
  let formula ← currentFormula index
  let question := Question.badState index formula property
  let answer ← inSession (Session.pose e
    (do
      let states ← Session.encode e formula 0
      Session.assert states
      let bad ← Session.encode e (.not property) 0
      Session.assert bad)
    (fun _ => do
      if ← Session.check [] question then
        let t ← Session.minimalTrace e [] question
        return some t
      else return none))
  count fun s => { s with badStateQueries := s.badStateQueries + 1 }
  liftExcept id answer

/-- Excludes the violations of a property from a frame one by one. -/
def blockProperty (index : Nat) (property : Formula) : Nat → SearchM (Option Ending)
  | 0 => throw .outOfFuel
  | fuel + 1 => do
    match ← findBadState index property with
    | none => return none
    | some bad =>
      let d ← diagramOf bad 0
      change fun s => s.pushObligation ⟨index, d, "", Obligation.root, false⟩
      count fun s => { s with obligations := s.obligations + 1 }
      logging fun log => log.framedEntry .blocking fun _ =>
        "Bad state in frame " ++ toString index ++ ":\n" ++ d.render false ++ "\n"
      match ← processObligations fuel with
      | some ending => return some ending
      | none => blockProperty index property fuel

def blockProperties (fuel index : Nat) : List Formula → SearchM (Option Ending)
  | [] => return none
  | property :: properties => do
    match ← blockProperty index property fuel with
    | some ending => return some ending
    | none => blockProperties fuel index properties

/-- Excludes the violations of safety from the last frame. -/
def blockBadStates (fuel : Nat) : SearchM (Option Ending) := do
  let s ← own
  let properties := match s.options.order with
    | .declared => s.properties
    | .deepest => [s.safety]
  blockProperties fuel (s.state.frames.length - 1) properties

/-! ## Pushing -/

/-- A step by one of some transitions from an assumption into a violation of a
predicate. -/
def findLeak (assumption predicate : Formula) : List Transition → SessionM (Option Trace)
  | [] => return none
  | t :: ts => do
    match ← Session.violatesConsecution assumption predicate t with
    | some trace => return some trace
    | none => findLeak assumption predicate ts

/-- What keeps a predicate from being pushed out of a frame. -/
def pushLeak (predicate : Formula) (index : Nat) : SearchM (Option Trace) := do
  let before ← currentFormula index
  let transitions := (← session).program.transitions
  inSession (findLeak before predicate transitions)

/-- Tries to exclude the state that keeps a predicate from being pushed, and
tells what keeps it then. -/
def blockLeak (fuel : Nat) (predicate : Formula) (index : Nat) (leak : Trace) :
    SearchM (Option Trace) := do
  let d ← diagramOf leak 1
  change fun s => s.pushObligation ⟨index + 1, d, "", Obligation.root, true⟩
  count fun s => { s with mayObligations := s.mayObligations + 1 }
  if (← processObligations fuel).isSome then throw .mayEnded
  pushLeak predicate index

/-- Pushes a predicate of a frame to the next one, if it holds there. -/
def pushPredicate (fuel index : Nat) (predicate : Formula) : SearchM Unit := do
  let s ← own
  if s.state.frameHas (index + 1) predicate then return
  count fun s => { s with pushAttempts := s.pushAttempts + 1 }
  let leak ← pushLeak predicate index
  let leak ← match leak with
    | some trace =>
      if s.options.blockMay then blockLeak fuel predicate index trace else pure (some trace)
    | none => pure none
  if leak.isNone then
    change fun s => s.addToFrame predicate (index + 1)
    count fun s => { s with pushed := s.pushed + 1 }
    logging fun log => log.entry .pushing fun _ =>
      "Pushed to frame " ++ toString (index + 1) ++ ": " ++ predicate.render ++ "\n"

/-- Pushes the predicates of a frame that it has at the start. -/
def pushFrame (fuel index : Nat) : SearchM Unit := do
  let predicates := ((← own).state.frames[index]?).getD []
  predicates.forM (pushPredicate fuel index)

/-- Pushes predicates from frame to frame, the first frame first. -/
def pushPredicates (fuel : Nat) : SearchM Unit := do
  let s ← own
  let first := if s.options.pushFrameZero = .never then 1 else 0
  (List.range' first (s.state.frames.length - 1 - first)).forM (pushFrame fuel)

/-! ## Checks and checkpoints -/

/-- Checks that each frame leads into the next one. -/
def checkInductiveTrace : SearchM Unit := do
  let s ← own
  let transitions := (← session).program.transitions
  (List.range (s.state.frames.length - 1)).forM fun index => do
    let before ← currentFormula index
    (((s.state.frames[index + 1]?).getD [])).forM fun predicate =>
      transitions.forM fun t => do
        match ← inSession (Session.violatesConsecution before predicate t) with
        | some trace => throw (.notInductive index predicate t.name trace)
        | none => pure ()

def simplify : SearchM Unit := do
  let before := (← own).state
  let after := before.simplify
  change fun _ => after
  count fun s =>
    { s with subsumed := s.subsumed + (before.predicateCount - after.predicateCount) }

/-- Writes a checkpoint, if there is a file for it and anything to go on
from. -/
def writeCheckpoint : SearchM Unit := do
  let s ← own
  if s.options.checkpoint = "" ∨ s.state.frames.length < 2 then return
  let p := (← session).program
  inSession (Session.proving
    (Prover.onDisk .checkpoint (Checkpoint.save p s.state s.options.checkpoint)))
  logging fun log => log.entry .checkpoints fun _ =>
    "Checkpoint written to " ++ s.options.checkpoint ++ " after iteration " ++
      toString s.state.iterations.toNat ++ "\n"

def restore (state : SearchState) : SearchM Unit := do
  if state.frames.length = 1 then throw .singleFrame
  let state := state.normalize
  change fun _ => state
  logging fun log => log.progress fun _ =>
    "Restored " ++ toString state.frames.length ++ " frames, " ++ toString state.log.length ++
      " predicates and " ++ toString state.obligations.length ++ " obligations\n"

def restoreFrom (source : String) (found : Except CheckpointFault SearchState) :
    SearchM Unit := do
  let state ← liftExcept .checkpoint found
  logging fun log => log.entry .checkpoints fun _ => Checkpoint.loadedLine source state
  restore state

/-! ## The search -/

def statistics (s : Search) (queries : Nat) : String :=
  let g := s.generalizer.stats
  "Iterations: " ++ toString s.state.iterations.toNat ++
  "\nFrames: " ++ toString s.state.frames.length ++
  "\nLearned states: " ++ toString s.state.learned.toNat ++
  "\nDistinct predicates: " ++ toString s.state.distinct.toNat ++
  "\nObligations: " ++ toString s.stats.obligations ++
  "\nMay obligations: " ++ toString s.stats.mayObligations ++
  "\nPush attempts / pushed: " ++ toString s.stats.pushAttempts ++ " / " ++
    toString s.stats.pushed ++
  "\nSubsumed predicates removed: " ++ toString s.stats.subsumed ++
  "\nGeneralizations: " ++ toString g.generalizations ++
  "\nLiterals before / after generalization: " ++ toString g.literalsIn ++ " / " ++
    toString g.literalsOut ++
  "\nSolver queries: " ++ toString queries ++ "\n"

def finish (ending : Ending) : SearchM SearchResult := do
  let s ← own
  let queries := (← session).prover.stats.queries
  logging fun log => log.framedEntry .statistics fun _ => statistics s queries
  return ⟨ending.1, ending.2, s.state.frames.length, queries⟩

/-- Looks for an initial state that violates safety, and makes the first two
frames when there is none. Does nothing if there are frames. -/
def openFrames : SearchM (Option Ending) := do
  let s ← own
  if s.state.frames.isEmpty then
    match ← inSession (Session.findViolation s.safety 0) with
    | some t =>
      return some (.disproved ⟨[], [], some t⟩, "An initial state violates safety")
    | none =>
      change fun s => s.addFrame.addFrame
      return none
  else return none

/-- Why a search should not go on, if there is a reason. -/
def stopReason? (s : Search) (stopRequested : Bool) : Option String :=
  if stopRequested then some "Interrupted on request"
  else if s.options.maxIterations ≠ 0 ∧ s.options.maxIterations ≤ s.state.iterations.toNat then
    some ("Iteration limit of " ++ toString s.options.maxIterations ++ " reached")
  else none

/-- Blocks, pushes and prunes once. -/
def iterate (fuel : Nat) : SearchM (Option Ending) := do
  change fun s => { s with iterations := s.iterations + 1 }
  let s ← own
  let queries := (← session).prover.stats.queries
  logging fun log => log.progress fun _ =>
    "UPDR iteration " ++ toString s.state.iterations.toNat ++ ": " ++
      toString s.state.frames.length ++ " frames, " ++ toString s.state.log.length ++
      " predicates, " ++ toString queries ++ " queries\n"
  if let some ending ← processObligations fuel then return some ending
  if let some ending ← blockBadStates fuel then return some ending
  if s.options.assertInductive then checkInductiveTrace
  change SearchState.addFrame
  pushPredicates fuel
  simplify
  let state := (← own).state
  logging fun log => log.framedEntry .frames fun _ => state.renderFrames
  match state.fixpoint? with
  | some index =>
    return some (.proved index ((state.frames[index]?).getD []),
      "Frames " ++ toString index ++ " and " ++ toString (index + 1) ++ " are equal")
  | none =>
    writeCheckpoint
    return none

/-- Iterates until the search ends or there is a reason to stop. -/
def iterateAll (fuel : Nat) : Nat → SearchM Ending
  | 0 => throw .outOfFuel
  | rounds + 1 => do
    let stopRequested := (← session).prover.stopRequested
    match stopReason? (← own) stopRequested with
    | some reason => return (.interrupted, reason)
    | none =>
      match ← iterate fuel with
      | some ending => return ending
      | none => iterateAll fuel rounds

/-- Begins or goes on, until the search ends or is to stop. -/
def explore (fuel : Nat) : SearchM Ending := do
  match ← openFrames with
  | some ending => return ending
  | none => iterateAll fuel fuel

/-- Leaves a search that stops in a state it can go on from. -/
def suspend (message : String) : SearchM Unit := do
  inSession (Session.proving do
    modify fun p => { p with stopRequested := false }
    Prover.clearInterrupt)
  writeCheckpoint
  logging fun log => log.progress fun _ => "UPDR interrupted: " ++ message ++ "\n"

/-- Searches for an inductive invariant. A query that is interrupted stops the
search and is no error; any other error is. -/
def run (fuel : Nat) : SearchM SearchResult := do
  let ending : Ending ← match ← attempt (explore fuel) with
    | .ok ending => pure ending
    | .error (.inconclusive cause) =>
      if cause.interrupted then pure (.interrupted, cause.message)
      else throw (.inconclusive cause)
    | .error error => throw error
  if ending.1 = .interrupted then suspend ending.2
  finish ending

end Search

end InvariantSearch
