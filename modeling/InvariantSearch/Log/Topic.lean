/-!
# Log topics

What a log can tell about. A topic has a tag, by which it is switched on, and
a description. Two of the topics stand for no topic and for all of them.
-/

namespace InvariantSearch

/-- A subject of log entries. -/
inductive Topic where
  | traces
  | checkpoints
  | diagrams
  | everything
  | minimal
  | nothing
  | generalization
  | assertions
  | queries
  | lowering
  | blocking
  | frames
  | pushing
  | statistics
  deriving DecidableEq, Repr

namespace Topic

def tag : Topic → String
  | .traces => "BoundedChecker.Traces"
  | .checkpoints => "Checkpoint.Detailed"
  | .diagrams => "Diagram.Extraction"
  | .everything => "FOPDR.All"
  | .minimal => "FOPDR.Minimal"
  | .nothing => "FOPDR.None"
  | .generalization => "Generalizer.Detailed"
  | .assertions => "TheoremProver.Assertions"
  | .queries => "TheoremProver.Queries"
  | .lowering => "Translator.Lowered"
  | .blocking => "UPDR.Blocking"
  | .frames => "UPDR.Frames"
  | .pushing => "UPDR.Pushing"
  | .statistics => "UPDR.Stats"

def description : Topic → String
  | .traces => "Print every trace found by bounded unrolling."
  | .checkpoints => "Print the contents of checkpoints as they are written and read."
  | .diagrams => "Print every diagram extracted from a model."
  | .everything => "Turns ON ALL tracing options."
  | .minimal =>
    "Bare minimal trace output from the search engine, serving only to indicate progress. " ++
    "Disabling this will cause NOTHING to ever be printed on the trace stream by the FOPDR " ++
    "library. This is option is always enabled, unless disabled by FOPDR.None below. " ++
    "Further, this option is enabled, even if the FOPDR library has been built without " ++
    "-DFOPDR_ENABLE_TRACING_ set."
  | .nothing => "Turns off ALL tracing options (including FOPDR.Minimal)."
  | .generalization =>
    "Print every literal removal attempted while generalizing a diagram, and the unsat cores used."
  | .assertions => "Print assertions as they are asserted into the theorem prover."
  | .queries =>
    "Print a line for every satisfiability query, with its description, verdict and time taken."
  | .lowering => "Print formulas along with their lowered Z3 counterparts."
  | .blocking => "Print proof obligations as they are pushed and discharged."
  | .frames => "Print the frames at the end of every iteration of the search."
  | .pushing => "Print predicates as they are pushed to later frames."
  | .statistics => "Print statistics at the end of the search."

/-- All topics, in the order of their tags. -/
def every : List Topic :=
  [.traces, .checkpoints, .diagrams, .everything, .minimal, .nothing, .generalization,
    .assertions, .queries, .lowering, .blocking, .frames, .pushing, .statistics]

def ofTag? (tag : String) : Option Topic := every.find? fun topic => topic.tag == tag

/-- A line of the overview: the tag, filled up to a common width, and the
description. -/
def overviewLine (topic : Topic) : String :=
  topic.tag ++ String.ofList (List.replicate (28 - topic.tag.length) ' ') ++ ": " ++
    topic.description ++ "\n"

def overview : String := "Available logging options:\n" ++ String.join (every.map overviewLine)

end Topic

end InvariantSearch
