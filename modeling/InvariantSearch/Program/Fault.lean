import InvariantSearch.Formula.Notation

/-!
# What can be wrong with a program

* `SortFault` — a formula does not fit the vocabulary of a program, or stands
  where it may not.
* `ProgramFault` — a declaration or a look-up is refused.

Both have a `message`, which is the wording users see.
-/

namespace InvariantSearch

/-- Where a sort is named. -/
inductive SortPlace where
  /-- In the declaration of a symbol. -/
  | declaration (symbol : String)
  /-- In the binder of a quantified formula. -/
  | binder (formula : Formula)
  /-- Among the parameters of a transition. -/
  | transition (name : String)
  deriving DecidableEq

def SortPlace.message : SortPlace → String
  | .declaration symbol => "declaration of \"" ++ symbol ++ "\""
  | .binder formula => "binder of \"" ++ formula.render ++ "\""
  | .transition name => "transition \"" ++ name ++ "\""

/-- Why a formula does not fit a program. -/
inductive SortFault where
  /-- A term stands where a formula should. -/
  | notFormula (part : Formula) (sort : String)
  | unknownIdentifier (name : String)
  /-- A symbol that takes arguments stands alone. -/
  | bareSymbol (name : String) (arity : Nat)
  /-- A mutable symbol stands where only immutable ones may. -/
  | mutableSymbol (name : String)
  /-- A variable is applied to arguments. -/
  | appliedVariable (name : String)
  | unknownSymbol (name : String)
  | wrongArity (whole : Formula) (expected : Nat)
  /-- An argument, counted from 1, has another sort than the symbol takes. -/
  | wrongArgument (position : Nat) (whole : Formula) (sort expected : String)
  | sides (whole : Formula) (left right : String)
  | branches (whole : Formula) (yes no : String)
  /-- A quantifier ranges over truth values. -/
  | quantifiedBool (whole : Formula)
  | unknownSort (name : String) (place : SortPlace)
  | hidingVariable (name : String)
  | repeatedVariable (name : String)
  | bodyNotFormula (whole : Formula)
  /-- The next state is named where there is none. -/
  | newNotAllowed (whole : Formula)
  | nestedNew (whole : Formula)
  /-- The whole is a term. -/
  | term (whole : Formula) (sort : String)
  deriving DecidableEq

def SortFault.message : SortFault → String
  | .notFormula part sort =>
    "Expected a formula, but \"" ++ part.render ++ "\" has sort " ++ sort
  | .unknownIdentifier name => "Unknown identifier \"" ++ name ++ "\""
  | .bareSymbol name arity =>
    "Symbol \"" ++ name ++ "\" expects " ++ toString arity ++
      " arguments, but is used without any"
  | .mutableSymbol name =>
    "Mutable symbol \"" ++ name ++ "\" cannot be referenced here"
  | .appliedVariable name =>
    "Bound variable \"" ++ name ++ "\" cannot be applied to arguments"
  | .unknownSymbol name => "Unknown relation or function \"" ++ name ++ "\""
  | .wrongArity whole expected =>
    "Symbol \"" ++ whole.name ++ "\" expects " ++ toString expected ++
      " arguments, but got " ++ toString whole.children.length ++
      " in \"" ++ whole.render ++ "\""
  | .wrongArgument position whole sort expected =>
    "Argument " ++ toString position ++ " of \"" ++ whole.render ++ "\" has sort " ++
      sort ++ ", expected " ++ expected
  | .sides whole left right =>
    "Sides of \"" ++ whole.render ++ "\" have different sorts " ++ left ++ " and " ++ right
  | .branches whole yes no =>
    "Branches of \"" ++ whole.render ++ "\" have different sorts " ++ yes ++ " and " ++ no
  | .quantifiedBool whole =>
    "Cannot quantify over formulas, in \"" ++ whole.render ++ "\""
  | .unknownSort name place =>
    "Unknown sort \"" ++ name ++ "\" in " ++ place.message
  | .hidingVariable name =>
    "Bound variable \"" ++ name ++ "\" hides the declared symbol of the same name"
  | .repeatedVariable name =>
    "Variable \"" ++ name ++ "\" is bound twice by the same quantifier"
  | .bodyNotFormula whole =>
    "Body of quantifier \"" ++ whole.render ++ "\" is not a formula"
  | .newNotAllowed whole =>
    "\"new\" is not allowed in \"" ++ whole.render ++
      "\"; only transitions and two state theorems may refer to the next state"
  | .nestedNew whole => "Nested \"new\" in \"" ++ whole.render ++ "\""
  | .term whole sort =>
    "\"" ++ whole.render ++ "\" is a term of sort " ++ sort ++ ", not a formula"

/-- Which part of a program a formula belongs to. -/
inductive Section where
  | definition (relation : String)
  | axiomatic (name : String)
  | initial (name : String)
  | transition (name : String)
  | invariant (name : String)
  | statement (name : String)
  deriving DecidableEq, Repr

def Section.message : Section → String
  | .definition relation => "definition of derived relation \"" ++ relation ++ "\""
  | .axiomatic name => "axiom " ++ name
  | .initial name => "init " ++ name
  | .transition name => "transition \"" ++ name ++ "\""
  | .invariant name => "invariant " ++ name
  | .statement name => "theorem " ++ name

/-- Why a program, or a request about it, is refused. -/
inductive ProgramFault where
  | invalidSymbol (name : String)
  | repeatedSymbol (name : String)
  | repeatedFormulaName (name : String)
  | invalidSort (name : String)
  | repeatedSort (name : String)
  /-- A function without arguments, which should be a constant. -/
  | argumentlessFunction (name : String)
  | unnamedTransition
  | repeatedTransition (name : String)
  /-- A symbol takes a truth value as an argument. -/
  | formulaArgument (symbol : String)
  /-- A constant or function has truth values, and should be a relation. -/
  | booleanSymbol (symbol : String)
  /-- A transition takes a truth value as a parameter. -/
  | formulaParameter (transition : String)
  | hidingParameter (name transition : String)
  | repeatedParameter (name transition : String)
  | unknownModified (symbol transition : String)
  | immutableModified (symbol transition : String)
  | derivedModified (symbol transition : String)
  | unknownSort (name : String) (place : SortPlace)
  /-- The body of a transition is a term. -/
  | bodyNotFormula (transition : String)
  /-- A formula of the program does not fit it. -/
  | inside (part : Section) (fault : SortFault)
  /-- A formula from elsewhere does not fit the program. -/
  | formula (fault : SortFault)
  | noInvariant (name : String)
  | noSafety
  | noInvariantToCheck (name : String)
  | noTransitionToCheck (name : String)
  deriving DecidableEq

def ProgramFault.message : ProgramFault → String
  | .invalidSymbol name => "Invalid symbol name \"" ++ name ++ "\""
  | .repeatedSymbol name => "Symbol \"" ++ name ++ "\" declared more than once"
  | .repeatedFormulaName name =>
    "Name \"" ++ name ++ "\" is used by more than one axiom, init, invariant or theorem"
  | .invalidSort name => "Invalid sort name \"" ++ name ++ "\""
  | .repeatedSort name => "Sort \"" ++ name ++ "\" declared more than once"
  | .argumentlessFunction name =>
    "Function \"" ++ name ++ "\" has no arguments, declare it as a constant instead"
  | .unnamedTransition => "Transitions must be named"
  | .repeatedTransition name => "Transition \"" ++ name ++ "\" declared more than once"
  | .formulaArgument symbol =>
    "Arguments cannot be formulas, in " ++ (SortPlace.declaration symbol).message
  | .booleanSymbol symbol =>
    "Use a relation instead of a boolean valued symbol, in " ++
      (SortPlace.declaration symbol).message
  | .formulaParameter transition =>
    "Parameters cannot be formulas, in " ++ (SortPlace.transition transition).message
  | .hidingParameter name transition =>
    "Parameter \"" ++ name ++ "\" of " ++ (SortPlace.transition transition).message ++
      " hides the declared symbol of the same name"
  | .repeatedParameter name transition =>
    "Parameter \"" ++ name ++ "\" of " ++ (SortPlace.transition transition).message ++
      " declared more than once"
  | .unknownModified symbol transition =>
    "Unknown symbol \"" ++ symbol ++ "\" in the modifies clause of " ++
      (SortPlace.transition transition).message
  | .immutableModified symbol transition =>
    "Immutable symbol \"" ++ symbol ++ "\" in the modifies clause of " ++
      (SortPlace.transition transition).message
  | .derivedModified symbol transition =>
    "Derived relation \"" ++ symbol ++ "\" in the modifies clause of " ++
      (SortPlace.transition transition).message
  | .unknownSort name place => (SortFault.unknownSort name place).message
  | .bodyNotFormula transition =>
    "In " ++ (Section.transition transition).message ++ ": Body is not a formula"
  | .inside part fault => "In " ++ part.message ++ ": " ++ fault.message
  | .formula fault => fault.message
  | .noInvariant name => "No invariant named \"" ++ name ++ "\""
  | .noSafety => "The program declares no safety properties"
  | .noInvariantToCheck name => "No invariant named \"" ++ name ++ "\" to check"
  | .noTransitionToCheck name => "No transition named \"" ++ name ++ "\" to check"

end InvariantSearch
