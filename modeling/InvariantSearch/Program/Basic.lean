import InvariantSearch.Program.Fault
import InvariantSearch.Formula.Operations

/-!
# Programs

A program is a first-order transition system: sorts, symbols that are the same
in all states (immutable) or not (mutable), axioms, initial conditions,
transitions, invariants and theorems.

* The `add..` operations grow a program by one declaration. A refused
  declaration leaves nothing behind, since the operation then has no result.
* Sorts, symbols and transitions have name spaces of their own. Axioms,
  initial conditions, invariants and theorems share one, in which the empty
  name stands for none.
* `initial` and `safety` are the conjunctions a search starts from and has to
  establish.
-/

namespace InvariantSearch

/-- The sort of truth values, which no program declares. -/
def boolSort : String := "bool"

/-- What a symbol is, with the sorts it relates. -/
inductive Signature where
  /-- A relation; a derived one has a defining formula. -/
  | relation (args : List String) (definition : Option Formula)
  | constant (sort : String)
  | function (args : List String) (result : String)
  deriving DecidableEq

/-- A declared symbol. -/
structure Symbol where
  name : String
  signature : Signature
  isMutable : Bool
  deriving DecidableEq

/-- Relation, constant or function. -/
inductive SymbolKind where
  | relation | constant | function
  deriving DecidableEq, Repr

def SymbolKind.word : SymbolKind → String
  | .relation => "relation"
  | .constant => "constant"
  | .function => "function"

namespace Symbol

def kind (s : Symbol) : SymbolKind :=
  match s.signature with
  | .relation _ _ => .relation
  | .constant _ => .constant
  | .function _ _ => .function

def args (s : Symbol) : List String :=
  match s.signature with
  | .relation args _ => args
  | .constant _ => []
  | .function args _ => args

def result (s : Symbol) : String :=
  match s.signature with
  | .relation _ _ => boolSort
  | .constant sort => sort
  | .function _ result => result

def definition? (s : Symbol) : Option Formula :=
  match s.signature with
  | .relation _ definition => definition
  | _ => none

def isRelation (s : Symbol) : Bool := s.kind == .relation

def isDerived (s : Symbol) : Bool := s.definition?.isSome

def arity (s : Symbol) : Nat := s.args.length

end Symbol

/-- A transition: for some values of the parameters its body holds between two
states, and mutable symbols outside `mods` keep their meaning. -/
structure Transition where
  name : String
  params : List Var
  mods : NameSet
  body : Formula
  deriving DecidableEq

/-- A formula and its name, which may be empty. -/
structure NamedFormula where
  name : String
  formula : Formula
  deriving DecidableEq

/-- A property that is meant to hold in all reachable states. A safety
property is what a search has to establish. -/
structure Invariant extends NamedFormula where
  isSafety : Bool
  deriving DecidableEq

/-- A property that is meant to hold in all states, or of all pairs of a
state and its next one. -/
structure Theorem extends NamedFormula where
  isTwoState : Bool
  deriving DecidableEq

/-- A first-order transition system. `validated` tells whether its formulas
have been checked since the last declaration. -/
structure Program where
  sorts : List String
  symbols : List Symbol
  axioms : List NamedFormula
  inits : List NamedFormula
  transitions : List Transition
  invariants : List Invariant
  theorems : List Theorem
  validated : Bool
  deriving DecidableEq

namespace Program

/-- The program without declarations. -/
def empty : Program := ⟨[], [], [], [], [], [], [], false⟩

/-! ## Look-up -/

def hasSort (p : Program) (name : String) : Bool := p.sorts.contains name

def symbol? (p : Program) (name : String) : Option Symbol :=
  p.symbols.find? (fun s => s.name == name)

def transition? (p : Program) (name : String) : Option Transition :=
  p.transitions.find? (fun t => t.name == name)

/-- The names that axioms, initial conditions, invariants and theorems use. -/
def formulaNames (p : Program) : List String :=
  (p.axioms.map NamedFormula.name ++ p.inits.map NamedFormula.name ++
    p.invariants.map (fun i => i.name) ++ p.theorems.map (fun t => t.name)).filter (· ≠ "")

/-! ## Declarations -/

def addSort (p : Program) (name : String) : Except ProgramFault Program :=
  if name = "" ∨ name = boolSort then .error (.invalidSort name)
  else if p.hasSort name then .error (.repeatedSort name)
  else .ok { p with sorts := p.sorts ++ [name], validated := false }

/-- Whether a symbol may be called `name`. -/
def checkSymbolName (p : Program) (name : String) : Except ProgramFault Unit :=
  if name = "" ∨ name = boolSort ∨ name = "true" ∨ name = "false" then
    .error (.invalidSymbol name)
  else if (p.symbol? name).isSome then .error (.repeatedSymbol name)
  else .ok ()

/-- Declares a relation, a constant or a function. -/
def addSymbol (p : Program) (s : Symbol) : Except ProgramFault Program := do
  p.checkSymbolName s.name
  match s.signature with
  | .function [] _ => throw (.argumentlessFunction s.name)
  | _ => return { p with symbols := p.symbols ++ [s], validated := false }

/-- Whether a formula may be called `name`; several may have no name. -/
def checkFormulaName (p : Program) (name : String) : Except ProgramFault Unit :=
  if name ≠ "" ∧ p.formulaNames.contains name then .error (.repeatedFormulaName name)
  else .ok ()

def addAxiom (p : Program) (f : NamedFormula) : Except ProgramFault Program := do
  p.checkFormulaName f.name
  return { p with axioms := p.axioms ++ [f], validated := false }

def addInit (p : Program) (f : NamedFormula) : Except ProgramFault Program := do
  p.checkFormulaName f.name
  return { p with inits := p.inits ++ [f], validated := false }

def addTransition (p : Program) (t : Transition) : Except ProgramFault Program :=
  if t.name = "" then .error .unnamedTransition
  else if (p.transition? t.name).isSome then .error (.repeatedTransition t.name)
  else .ok { p with transitions := p.transitions ++ [t], validated := false }

def addInvariant (p : Program) (i : Invariant) : Except ProgramFault Program := do
  p.checkFormulaName i.name
  return { p with invariants := p.invariants ++ [i], validated := false }

def addTheorem (p : Program) (t : Theorem) : Except ProgramFault Program := do
  p.checkFormulaName t.name
  return { p with theorems := p.theorems ++ [t], validated := false }

/-! ## Properties -/

def safeties (p : Program) : List Invariant := p.invariants.filter Invariant.isSafety

/-- What a search has to establish: all safety properties, or the invariant of
a name when one is given. -/
def safety (p : Program) (name : String) : Except ProgramFault Formula :=
  let chosen :=
    if name = "" then p.safeties else p.invariants.filter (fun i => i.name == name)
  match chosen with
  | [] => .error (if name = "" then .noSafety else .noInvariant name)
  | _ => .ok (Formula.conj (chosen.map (fun i => i.formula)))

def initial (p : Program) : Formula := Formula.conj (p.inits.map NamedFormula.formula)

end Program

end InvariantSearch
