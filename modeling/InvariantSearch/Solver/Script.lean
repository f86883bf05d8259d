import InvariantSearch.Solver.Model
import InvariantSearch.Question.Basic

/-!
# Verdicts, scripts and events

The search talks to a solver through a narrow door: it opens and closes scopes,
asserts terms and asks for verdicts. Here the solver is a script of answers, so
that every statement about a run can quantify over what a solver might say.
All that passes the door is recorded as events.
-/

namespace InvariantSearch

/-- What a solver says about a query. -/
inductive Verdict where
  | sat (model : SolverModel)
  /-- With a core: positions of assumptions, all of them when none is given.
  Positions out of range name nothing. -/
  | unsat (core : Option (List Nat))
  | unknown (reason : String)
  deriving DecidableEq, Repr

/-- Satisfiable, unsatisfiable, or undecided. -/
inductive Outcome where
  | sat | unsat | unknown
  deriving DecidableEq, Repr

def Outcome.word : Outcome → String
  | .sat => "sat"
  | .unsat => "unsat"
  | .unknown => "unknown"

def Verdict.outcome : Verdict → Outcome
  | .sat _ => .sat
  | .unsat _ => .unsat
  | .unknown _ => .unknown

/-- A verdict, and whether an interrupt arrives while it is worked out. -/
structure Answer where
  verdict : Verdict
  interrupts : Bool
  deriving DecidableEq, Repr

def Answer.word (a : Answer) : String :=
  if a.interrupts then "interrupt" else a.verdict.outcome.word

/-- The answers a solver gives in turn, and the one it gives ever after. -/
structure Script where
  answers : List Answer
  after : Option Answer
  deriving DecidableEq, Repr

/-- The next answer, and the script after it. -/
def Script.next? (s : Script) : Option (Answer × Script) :=
  match s.answers with
  | a :: rest => some (a, { s with answers := rest })
  | [] => s.after.map fun a => (a, s)

/-- A question to the solver: are the assertions in force satisfiable together
with the assumptions? -/
structure Query where
  question : Question
  /-- The assertions in force, scope by scope, innermost scope and newest
  assertion first; the last list is outside of all scopes. -/
  assertions : List (List Term)
  assumptions : List Term
  deriving DecidableEq

/-- Something that passes between search and solver. -/
inductive Event where
  | parameter (key value : String)
  | timeout (milliseconds : UInt32)
  | push
  | pop (count : Nat)
  | assert (term : Term)
  /-- A query and its answer; none when the script is used up. -/
  | check (query : Query) (answer : Option Answer)
  | interrupt
  deriving DecidableEq

namespace Event

def answerWord (a : Option Answer) : String := (a.map Answer.word).getD "none"

def render : Event → String
  | .parameter key value => "param " ++ key ++ "=" ++ value
  | .timeout milliseconds => "timeout " ++ toString milliseconds.toNat
  | .push => "push"
  | .pop count => "pop " ++ toString count
  | .assert term => "assert " ++ term.render
  | .check query answer =>
    "check" ++ Term.renderArgs query.assumptions ++ " -> " ++ answerWord answer
  | .interrupt => "interrupt"

/-- The short text of an event; only checks have one. -/
def renderBrief? : Event → Option String
  | .check query answer =>
    some ("check scopes=" ++ toString (query.assertions.length - 1) ++ " assertions=" ++
      toString query.assertions.flatten.length ++ " assumptions=" ++
      toString query.assumptions.length ++ " -> " ++ answerWord answer)
  | _ => none

end Event

end InvariantSearch
