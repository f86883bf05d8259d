import InvariantSearch.Checkpoint.Fault
import InvariantSearch.Program.Notation
import InvariantSearch.Encoding.Readback
import InvariantSearch.Trace.Report
import InvariantSearch.Formula.Draft
import InvariantSearch.Log.Basic

/-!
# What can stop a run

* `Inconclusive` — a query without a verdict, the one cause a search recovers
  from when it goes back to an interrupt.
* `Error` — all causes. `Error.kind` tells whose business a cause is: that of
  the input, of a checkpoint, of the solver, or of the program itself.

Messages end before a NUL, if names in them hold one.
-/

namespace InvariantSearch

/-- A query that could not be decided. -/
structure Inconclusive where
  query : String
  reason : String
  /-- Whether an interrupt is to blame, and not the question. -/
  interrupted : Bool
  deriving DecidableEq, Repr

def Inconclusive.message (i : Inconclusive) : String :=
  beforeNul ("Solver could not decide query: " ++ i.query ++ " (reason: " ++ i.reason ++ ")")

/-- A cause that stops a run. -/
inductive Error where
  | program (fault : ProgramFault)
  /-- The file of a program cannot be read. -/
  | unreadable (file : String)
  /-- A text is not a valid program. -/
  | source (name : String) (fault : Program.ReadError)
  | formula (fault : Formula.ReadError)
  /-- A text is not a sequence of s-expressions. -/
  | sexpr (name : String) (fault : Located Fault)
  | topic (unknown : UnknownTopic)
  | checkpoint (fault : CheckpointFault)
  | inconclusive (cause : Inconclusive)
  /-- The script has no answer left. -/
  | unanswered
  | encoding (fault : EncodingFault)
  | readback (fault : ReadbackFault)
  | diagram (fault : DiagramFault)
  | trace (fault : TraceFault)
  | draft (fault : MissingOperand)
  /-- More scopes are to be closed than are open. -/
  | scopes (count opened : Nat)
  | noModel
  | noCore
  | notValidated
  /-- The states and steps of a trace query do not fit each other. -/
  | traceQuery (states steps : Nat)
  | unknownTransition (name : String)
  /-- A diagram that should have no predecessor has one. -/
  | hasPredecessor (context : String) (diagram : Diagram)
  | noFrame (index count : Nat)
  | singleFrame
  | mayEnded
  /-- A learned predicate is violated within the steps of its frame. -/
  | smoke (predicate : Formula) (frame : Nat) (violation : Trace)
  /-- A frame does not lead into the next one. -/
  | notInductive (frame : Nat) (predicate : Formula) (transition : String) (violation : Trace)
  /-- The invariant that a search ended with does not pass the final check. -/
  | refuted (failure : String)
  /-- A bound on the number of rounds was reached. -/
  | outOfFuel
  deriving DecidableEq

/-- Whose business a cause is. -/
inductive ErrorKind where
  | input | checkpoint | inconclusive | unanswered | internal
  deriving DecidableEq, Repr

namespace Error

def kind : Error → ErrorKind
  | .program _ => .input
  | .unreadable _ => .input
  | .source _ _ => .input
  | .formula _ => .input
  | .sexpr _ _ => .input
  | .topic _ => .input
  | .checkpoint _ => .checkpoint
  | .inconclusive _ => .inconclusive
  | .unanswered => .unanswered
  | _ => .internal

def wording : Error → String
  | .program fault => fault.message
  | .unreadable file => "Could not open program file \"" ++ file ++ "\""
  | .source name fault => fault.message name
  | .formula fault => fault.message
  | .sexpr name fault => atLine name fault.line fault.value.message
  | .topic unknown => unknown.message
  | .checkpoint fault => fault.message
  | .inconclusive cause => cause.message
  | .unanswered => "no verdict left in the script"
  | .encoding fault => fault.message
  | .readback fault => fault.message
  | .diagram fault => fault.message
  | .trace fault => fault.message
  | .draft fault => fault.message
  | .scopes count opened =>
    "Attempted to pop " ++ toString count ++ " scopes with only " ++ toString opened ++ " pushed"
  | .noModel =>
    "Z3TheoremProver::GetModel() called, but last solve was not satisfiable. " ++
      "No model to return."
  | .noCore =>
    "Z3TheoremProver::GetUnsatCore() called, but last solve was not unsatisfiable."
  | .notValidated => "Solver session created for a program that was not validated"
  | .traceQuery states steps =>
    "Trace query with " ++ toString states ++ " states and " ++ toString steps ++ " transitions"
  | .unknownTransition name => "Unknown transition \"" ++ name ++ "\" in trace query"
  | .hasPredecessor context d =>
    "Generalizing " ++ context ++ ", which has a predecessor:\n" ++ d.render false
  | .noFrame index count =>
    "Frame " ++ toString index ++ " requested, but there are only " ++ toString count ++ " frames"
  | .singleFrame => "Search state with a single frame"
  | .mayEnded => "A may obligation ended the search"
  | .smoke predicate frame violation =>
    "Smoke test failed: " ++ predicate.render ++ " was learned at frame " ++ toString frame ++
      " but is violated within as many steps:\n" ++ violation.render
  | .notInductive frame predicate transition violation =>
    "Frame " ++ toString frame ++ " does not imply " ++ predicate.render ++ " of frame " ++
      toString (frame + 1) ++ " after transition " ++ transition ++ ":\n" ++ violation.render
  | .refuted failure =>
    "The frame found by the search is not an inductive invariant:\n" ++ failure
  | .outOfFuel => "The bound on the number of rounds was reached"

/-- The message of an error: its wording before a NUL. -/
def message (e : Error) : String := beforeNul e.wording

end Error

end InvariantSearch
