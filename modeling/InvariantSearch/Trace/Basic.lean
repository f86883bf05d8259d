import InvariantSearch.Program.Basic

/-!
# Traces

A trace is a finite run: a universe of named elements for each sort, the
meaning of the immutable symbols, and for each state the meaning of the
mutable ones. Between two states stands the name of the transition taken.

Relations have the values `true` and, for anything else, `false`; constants
and functions have elements as values.
-/

namespace InvariantSearch

/-- The meaning of a symbol in a state: its values, tuple by tuple. -/
structure Interpretation where
  symbol : String
  kind : SymbolKind
  entries : List (List String × String)
  deriving DecidableEq, Repr

namespace Interpretation

def value? (i : Interpretation) (args : List String) : Option String := i.entries.lookup args

end Interpretation

/-- The meanings of some symbols, in the order of their declarations. -/
abbrev TraceState := List Interpretation

/-- A finite run. -/
structure Trace where
  universes : List (String × List String)
  immutable : TraceState
  states : List TraceState
  /-- The transition taken after each state; the empty name where it is not
  known. -/
  transitions : List String
  deriving DecidableEq, Repr

/-- What a trace does not answer. -/
inductive TraceFault where
  | stateOutOfRange (index : Nat)
  | noUniverse (sort : String)
  | noInterpretation (symbol : String) (args : List String) (state : Nat)
  deriving DecidableEq, Repr

def TraceFault.message : TraceFault → String
  | .stateOutOfRange index => "State index " ++ toString index ++ " out of range in trace"
  | .noUniverse sort => "Sort " ++ sort ++ " has no universe in trace"
  | .noInterpretation symbol args state =>
    "No interpretation for " ++ symbol ++ "(" ++ ", ".intercalate args ++ ") in state " ++
      toString state

namespace Trace

/-- The trace without states. -/
def empty : Trace := ⟨[], [], [], []⟩

def addUniverse (t : Trace) (sort : String) (elements : List String) : Trace :=
  { t with universes := t.universes ++ [(sort, elements)] }

def addImmutable (t : Trace) (i : Interpretation) : Trace :=
  { t with immutable := t.immutable ++ [i] }

/-- Adds a state, in which nothing has a meaning yet. -/
def addState (t : Trace) : Trace := { t with states := t.states ++ [[]] }

def addMutable (t : Trace) (index : Nat) (i : Interpretation) : Except TraceFault Trace :=
  match t.states[index]? with
  | none => .error (.stateOutOfRange index)
  | some state => .ok { t with states := t.states.set index (state ++ [i]) }

/-- Names the transition of a step; steps before it that have no name yet get
the empty one. -/
def setTransition (t : Trace) (step : Nat) (name : String) : Trace :=
  let padded := t.transitions ++ List.replicate (step + 1 - t.transitions.length) ""
  { t with transitions := padded.set step name }

def elements (t : Trace) (sort : String) : Except TraceFault (List String) :=
  match t.universes.lookup sort with
  | some elements => .ok elements
  | none => .error (.noUniverse sort)

def state (t : Trace) (index : Nat) : Except TraceFault TraceState :=
  match t.states[index]? with
  | some state => .ok state
  | none => .error (.stateOutOfRange index)

def valueIn? (symbol : String) (args : List String) (s : TraceState) : Option String :=
  s.findSome? fun i => if i.symbol = symbol then i.value? args else none

/-- The value of a symbol in a state; immutable symbols come first. -/
def eval (t : Trace) (symbol : String) (args : List String) (index : Nat) :
    Except TraceFault String := do
  match valueIn? symbol args t.immutable with
  | some value => return value
  | none =>
    match valueIn? symbol args (← t.state index) with
    | some value => return value
    | none => throw (.noInterpretation symbol args index)

end Trace

end InvariantSearch
