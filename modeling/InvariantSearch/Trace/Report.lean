import InvariantSearch.Trace.Basic
import InvariantSearch.Report.Basic

/-!
# Traces as text and as reports

`Trace.render` writes a trace for reading, `Trace.toReport` for machines.
-/

namespace InvariantSearch

namespace Interpretation

def application (i : Interpretation) (args : List String) : String :=
  if args.isEmpty then i.symbol else i.symbol ++ "(" ++ ", ".intercalate args ++ ")"

def renderEntry (i : Interpretation) (entry : List String × String) : String :=
  let application := i.application entry.1
  match i.kind with
  | .relation => "    " ++ (if entry.2 = "true" then "" else "!") ++ application ++ "\n"
  | _ => "    " ++ application ++ " = " ++ entry.2 ++ "\n"

def render (i : Interpretation) : String := String.join (i.entries.map i.renderEntry)

def toReport (i : Interpretation) : Report :=
  .list (i.entries.map fun entry =>
    .parts [("args", .texts entry.1), ("value", .text entry.2)])

end Interpretation

namespace Trace

def renderState (s : TraceState) : String := String.join (s.map Interpretation.render)

/-- The name of the transition after a state, as shown. -/
def transitionShown (t : Trace) (index : Nat) : String :=
  match t.transitions[index]? with
  | some name => if name = "" then "<unknown>" else name
  | none => "<unknown>"

/-- The lines of the states from number `index` on. -/
def renderStates (t : Trace) (index : Nat) : List TraceState → String
  | [] => ""
  | [s] => "state " ++ toString index ++ ":\n" ++ renderState s
  | s :: rest =>
    "state " ++ toString index ++ ":\n" ++ renderState s ++
      "  --> transition " ++ t.transitionShown index ++ "\n" ++ t.renderStates (index + 1) rest

def render (t : Trace) : String :=
  String.join (t.universes.map fun entry =>
    "sort " ++ entry.1 ++ ": \x7b" ++ ", ".intercalate entry.2 ++ "\x7d\n") ++
  (if t.immutable.isEmpty then "" else "immutable:\n" ++ renderState t.immutable) ++
  t.renderStates 0 t.states

/-- The report of a state. A constant has one value, the last one given. -/
def stateToReport (s : TraceState) : Report :=
  let ofKind (kind : SymbolKind) :=
    (s.filter (fun i => i.kind == kind)).map fun i => (i.symbol, i.toReport)
  let constants := (s.filter (fun i => i.kind == .constant)).foldl (fun entries i =>
    match i.entries with
    | [] => entries
    | entry :: _ => Report.put i.symbol (.text entry.2) entries) []
  .parts [("relations", .parts (ofKind .relation)), ("constants", .parts constants),
    ("functions", .parts (ofKind .function))]

def toReport (t : Trace) : Report :=
  .parts [
    ("universes", .list (t.universes.map fun entry =>
      .parts [("sort", .text entry.1), ("elements", .texts entry.2)])),
    ("immutable", stateToReport t.immutable),
    ("mutable", .list (t.states.map stateToReport)),
    ("transitions", .texts t.transitions)]

end Trace

end InvariantSearch
