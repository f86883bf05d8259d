import InvariantSearch.Encoding.Basic
import InvariantSearch.Solver.Model
import InvariantSearch.Trace.Basic

/-!
# Reading models back

A solver model becomes a trace over the states of an encoding.

* A model may use elements it does not list, so the universes are closed first:
  values of constants and functions are added until nothing changes.
* Elements are then named by their sort and position, and every symbol gets
  one entry for each tuple of elements.
-/

namespace InvariantSearch

/-- All choices of one item from each list, in lexicographic order. -/
def tuples {α : Type} : List (List α) → List (List α)
  | [] => [[]]
  | items :: rest => items.flatMap fun a => (tuples rest).map (a :: ·)

/-- Why a model is no trace. -/
inductive ReadbackFault where
  | encoding (fault : EncodingFault)
  | model (fault : ModelFault)
  /-- A value is not in the universe of its sort. -/
  | outside (application : Term) (sort : String)
  deriving DecidableEq

def ReadbackFault.message : ReadbackFault → String
  | .encoding fault => fault.message
  | .model fault => fault.message
  | .outside application sort =>
    "Value of " ++ application.render ++ " is not in the universe of " ++ sort

/-- The elements of each sort. -/
abbrev Universes := List (String × List Term)

namespace Universes

def of (u : Universes) (sort : String) : List Term := (u.lookup sort).getD []

/-- Adds elements to a sort, at the end. -/
def add (u : Universes) (sort : String) (elements : List Term) : Universes :=
  u.map fun entry => if entry.1 = sort then (sort, entry.2 ++ elements) else entry

end Universes

namespace Encoding

/-! ## Closed universes -/

def listedUniverses (e : Encoding) (m : SolverModel) : Universes :=
  e.program.sorts.map fun name => (name, m.elements (.named (beforeNul name)))

/-- How many states a symbol has a meaning of its own in. -/
def instances (e : Encoding) (s : Symbol) : Nat := if s.isMutable then e.keys.length else 1

/-- The values of a symbol that `known` lacks, in the order they are found. -/
def newValues (m : SolverModel) (symbol : SolverSymbol) (known : List Term)
    (args : List (List Term)) : Except ModelFault (List Term) :=
  args.foldlM (fun found as => do
    let value ← m.evaluate symbol as
    return if known.contains value || found.contains value then found else found ++ [value]) []

def addValues (e : Encoding) (m : SolverModel) (s : Symbol) (u : Universes) (index : Nat) :
    Except ReadbackFault Universes := do
  let symbol ← (e.symbol s index).mapError .encoding
  let found ← (newValues m symbol (u.of s.result) (tuples (s.args.map u.of))).mapError .model
  return u.add s.result found

/-- Adds the values of all constants and functions, symbol by symbol. -/
def closeOnce (e : Encoding) (m : SolverModel) (u : Universes) : Except ReadbackFault Universes :=
  (e.program.symbols.filter fun s => !s.isRelation).foldlM (fun u s =>
    (List.range (e.instances s)).foldlM (e.addValues m s) u) u

/-- Repeats `closeOnce` until nothing changes, at most `rounds` times. -/
def closeWithin (e : Encoding) (m : SolverModel) : Nat → Universes → Except ReadbackFault Universes
  | 0, u => .ok u
  | rounds + 1, u => do
    let grown ← e.closeOnce m u
    if grown = u then return u else e.closeWithin m rounds grown

/-- Where symbols have a meaning of their own. -/
def places (e : Encoding) : List (Symbol × Nat) :=
  e.program.symbols.flatMap fun x => (List.range (e.instances x)).map (Prod.mk x)

/-- A bound on the rounds that add something, unless they never end. Elements are values of
table entries, of defaults or of completions. Between two rounds that add one, applications
are added that are their own values, and each round nests them deeper. -/
def closingRounds (e : Encoding) (m : SolverModel) : Nat :=
  e.places.length * ((m.tables.flatMap fun table => table.2.entries).length + 2) *
    (e.places.length + 1) + e.places.length + 1

/-- The listed universes with all values of constants and functions. -/
def closedUniverses (e : Encoding) (m : SolverModel) : Except ReadbackFault Universes :=
  e.closeWithin m (e.closingRounds m) (e.listedUniverses m)

/-! ## Traces -/

/-- The elements of a sort, each with its name. -/
def namedElements (u : Universes) (sort : String) : List (Term × String) :=
  (u.of sort).mapIdx fun i element => (element, sort ++ toString i)

/-- The value of a symbol at some elements, as a trace writes it. -/
def readValue (m : SolverModel) (u : Universes) (s : Symbol) (symbol : SolverSymbol)
    (args : List Term) : Except ReadbackFault String := do
  if s.isRelation then
    return if ← (m.evaluateBool symbol args).mapError .model then "true" else "false"
  else
    let value ← (m.evaluate symbol args).mapError .model
    match (namedElements u s.result).lookup value with
    | some name => return name
    | none => throw (.outside (.app symbol args) s.result)

def readSymbol (e : Encoding) (m : SolverModel) (u : Universes) (s : Symbol) (index : Nat) :
    Except ReadbackFault Interpretation := do
  let symbol ← (e.symbol s index).mapError .encoding
  let entries ← (tuples (s.args.map (namedElements u))).mapM fun args => do
    let value ← readValue m u s symbol (args.map Prod.fst)
    return (args.map Prod.snd, value)
  return ⟨s.name, s.kind, entries⟩

def readModel (e : Encoding) (m : SolverModel) : Except ReadbackFault Trace := do
  let u ← e.closedUniverses m
  let immutable ← (e.program.symbols.filter fun s => !s.isMutable).mapM fun s =>
    e.readSymbol m u s 0
  let states ← (List.range e.keys.length).mapM fun index =>
    (e.program.symbols.filter Symbol.isMutable).mapM fun s => e.readSymbol m u s index
  return {
    universes := e.program.sorts.map fun sort => (sort, (namedElements u sort).map Prod.snd)
    immutable, states, transitions := [] }

end Encoding

end InvariantSearch
