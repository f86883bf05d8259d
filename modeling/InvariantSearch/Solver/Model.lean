import InvariantSearch.Solver.Term

/-!
# Solver models

What a solver shows of a satisfying interpretation: how many elements it lists
for each sort, and a finite table for each symbol it interprets. A table may
name elements that the universe does not list, leave a value open, or fail.

* `SolverModel.evaluate` gives the value of a symbol at some arguments. What no
  table decides is completed: false, or the first element.
-/

namespace InvariantSearch

/-- What a table holds for some arguments. -/
inductive TableValue where
  | bool (value : Bool)
  /-- An element of the symbol's range, by number. -/
  | element (index : Nat)
  /-- The application is its own value. -/
  | unevaluated
  /-- There is no value. -/
  | failing
  deriving DecidableEq, Repr

/-- The values of a symbol: by the numbers of the argument elements, and for
all other arguments. -/
structure SymbolTable where
  entries : List (List Nat × TableValue)
  otherwise : Option TableValue
  deriving DecidableEq, Repr

/-- Sizes of the universes, and tables by symbol name. -/
structure SolverModel where
  universes : List (String × Nat)
  tables : List (String × SymbolTable)
  deriving DecidableEq, Repr

/-- What a model does not answer. -/
inductive ModelFault where
  | noValue (application : Term)
  /-- A formula has a value that is no truth value. -/
  | notBool (application value : Term)
  deriving DecidableEq

def ModelFault.message : ModelFault → String
  | .noValue application => "Could not evaluate expression in model:\n" ++ application.render
  | .notBool application value =>
    "Expression did not evaluate to a boolean constant in model:\n" ++ application.render ++
      "\nGot: " ++ value.render

namespace SolverModel

def empty : SolverModel := ⟨[], []⟩

def elements (m : SolverModel) (sort : SolverSort) : List Term :=
  (List.range ((m.universes.lookup sort.render).getD 0)).map (.element sort)

def elementIndex? : Term → Option Nat
  | .element _ index => some index
  | _ => none

def tableValue? (table : SymbolTable) (args : List Term) : Option TableValue :=
  match args.mapM elementIndex? with
  | some key =>
    match table.entries.lookup key with
    | some value => some value
    | none => table.otherwise
  | none => table.otherwise

/-- The value where no table decides. -/
def completion : SolverSort → TableValue
  | .bool => .bool false
  | .named _ => .element 0

def evaluate (m : SolverModel) (symbol : SolverSymbol) (args : List Term) :
    Except ModelFault Term :=
  let application := Term.app symbol args
  let value := ((m.tables.lookup symbol.name).bind fun table => tableValue? table args).getD
    (completion symbol.range)
  match value with
  | .bool value => .ok (.bool value)
  | .element index => .ok (.element symbol.range index)
  | .unevaluated => .ok application
  | .failing => .error (.noValue application)

def evaluateBool (m : SolverModel) (symbol : SolverSymbol) (args : List Term) :
    Except ModelFault Bool := do
  match ← m.evaluate symbol args with
  | .bool value => return value
  | value => throw (.notBool (.app symbol args) value)

end SolverModel

end InvariantSearch
