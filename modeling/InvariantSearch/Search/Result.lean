import InvariantSearch.Trace.Report
import InvariantSearch.Search.State

/-!
# Results of a search
-/

namespace InvariantSearch

/-- How safety is violated: conditions on the states of a run, its transitions,
and a trace if the run was made concrete. -/
structure Counterexample where
  chain : List Formula
  transitions : List String
  trace : Option Trace
  deriving DecidableEq

/-- How a search ends. -/
inductive Conclusion where
  /-- The predicates of a frame are an inductive invariant. -/
  | proved (frame : Nat) (invariant : List Formula)
  | disproved (counterexample : Counterexample)
  /-- The search can go on later. -/
  | interrupted
  deriving DecidableEq

def Conclusion.word : Conclusion → String
  | .proved _ _ => "proved"
  | .disproved _ => "disproved"
  | .interrupted => "interrupted"

/-- The outcome of a search, with a message and counts. -/
structure SearchResult where
  conclusion : Conclusion
  message : String
  frames : Nat
  queries : Nat
  deriving DecidableEq

namespace Counterexample

/-- The text of the states of a run that was not made concrete, from some
number on. -/
def renderChain : Nat → List Formula → List String → String
  | _, [], _ => ""
  | i, state :: states, transitions =>
    "state " ++ toString i ++ ":\n    " ++ state.render ++ "\n" ++
    (match transitions with
    | [] => ""
    | name :: _ => "  --> transition " ++ name ++ "\n") ++
    renderChain (i + 1) states transitions.tail

def render (c : Counterexample) : String :=
  match c.trace with
  | some trace => "Counterexample trace:\n" ++ trace.render
  | none =>
    "Abstract counterexample, from an initial state:\n" ++ renderChain 0 c.chain c.transitions

def toReport (c : Counterexample) : List (String × Report) :=
  match c.trace with
  | some trace => [("counterexample", trace.toReport)]
  | none => [("abstract-counterexample", .parts [
      ("states", .texts (c.chain.map Formula.render)),
      ("transitions", .texts c.transitions)])]

end Counterexample

namespace SearchResult

def details (r : SearchResult) : String :=
  match r.conclusion with
  | .proved frame invariant =>
    "Inductive invariant from frame " ++ toString frame ++ ", " ++ toString invariant.length ++
      " predicates:\n" ++ String.join (invariant.map fun f => "    " ++ f.render ++ "\n")
  | .disproved counterexample => counterexample.render
  | .interrupted => ""

def render (r : SearchResult) : String :=
  "Result: " ++ r.conclusion.word ++ (if r.message = "" then "" else " (" ++ r.message ++ ")") ++
    "\n" ++ r.details ++ "Frames: " ++ toString r.frames ++ ", solver queries: " ++
    toString r.queries ++ "\n"

def toReport (r : SearchResult) : List (String × Report) :=
  [("result", .text r.conclusion.word), ("message", .text r.message), ("frames", .nat r.frames),
    ("queries", .nat r.queries)] ++
  match r.conclusion with
  | .proved _ invariant => [("predicates", .texts (invariant.map Formula.render))]
  | .disproved counterexample => counterexample.toReport
  | .interrupted => []

end SearchResult

end InvariantSearch
