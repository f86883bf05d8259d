import InvariantSearch.Trace.Basic

/-!
# Diagrams

A diagram describes a finite state up to its extensions: one variable for each
element, and literals that say how the elements differ and what the symbols do
with them. Literals can be switched off one by one; only those switched on
count.

* `Diagram.ofTrace` reads a diagram off a state of a trace.
* `Diagram.simplifyConstants` names elements by constants where it can.
* `Diagram.toFormula` says that some elements are as described, and
  `Diagram.toPredicate` that none are.
-/

namespace InvariantSearch

/-- What a literal of a diagram speaks of. -/
inductive ConjunctKind where
  | distinct | relation | constant | function
  deriving DecidableEq, Repr

namespace ConjunctKind

def word : ConjunctKind → String
  | .distinct => "distinct"
  | .relation => "relation"
  | .constant => "constant"
  | .function => "function"

def ofWord? (word : String) : Option ConjunctKind :=
  [distinct, relation, constant, function].find? (fun kind => kind.word == word)

end ConjunctKind

/-- A literal of a diagram, on or off. -/
structure Conjunct where
  kind : ConjunctKind
  enabled : Bool
  formula : Formula
  deriving DecidableEq

/-- Variables, and literals over them. -/
structure Diagram where
  vars : List Var
  conjuncts : List Conjunct
  deriving DecidableEq

/-- What a diagram cannot be built from or asked for. -/
inductive DiagramFault where
  | conjunctOutOfRange (index count : Nat)
  | unknownElement (element : String)
  | unknownSymbol (symbol : String)
  | trace (fault : TraceFault)
  deriving DecidableEq, Repr

def DiagramFault.message : DiagramFault → String
  | .conjunctOutOfRange index count =>
    "Conjunct index " ++ toString index ++ " out of range in diagram with " ++
      toString count ++ " conjuncts"
  | .unknownElement element => "Element " ++ element ++ " is not in any universe of the trace"
  | .unknownSymbol symbol => "Trace interprets unknown symbol " ++ symbol
  | .trace fault => fault.message

namespace Diagram

def empty : Diagram := ⟨[], []⟩

/-! ## Switching literals -/

def enabled (d : Diagram) : List Conjunct := d.conjuncts.filter Conjunct.enabled

def isEnabled (d : Diagram) (index : Nat) : Bool :=
  (d.conjuncts[index]?.map Conjunct.enabled).getD false

/-- The diagram with one literal switched; positions out of range change
nothing. -/
def switch (d : Diagram) (index : Nat) (on : Bool) : Diagram :=
  { d with conjuncts := d.conjuncts.modify index fun c => { c with enabled := on } }

/-- Switches a literal, whose position must be in range. -/
def setEnabled (d : Diagram) (index : Nat) (on : Bool) : Except DiagramFault Diagram :=
  if index < d.conjuncts.length then .ok (d.switch index on)
  else .error (.conjunctOutOfRange index d.conjuncts.length)

def enableAll (d : Diagram) : Diagram :=
  { d with conjuncts := d.conjuncts.map fun c => { c with enabled := true } }

/-! ## Formulas of a diagram -/

def usedVars (d : Diagram) : List Var :=
  let names := d.enabled.foldl (fun names c => c.formula.collectNames [] names) NameSet.empty
  d.vars.filter fun v => names.contains v.name

def matrix (d : Diagram) : Formula := Formula.conj (d.enabled.map Conjunct.formula)

def toFormula (d : Diagram) : Formula := Formula.thereIs d.usedVars d.matrix

/-- No elements are as the diagram says, as a clause. -/
def toPredicate (d : Diagram) : Formula :=
  Formula.forAll d.usedVars (Formula.disj (d.enabled.map fun c => c.formula.complement))

/-- The text of a diagram: a literal a line. With `all`, literals switched off
are shown and marked. -/
def render (all : Bool) (d : Diagram) : String :=
  "exists" ++ String.join (d.vars.map fun v => " " ++ v.name ++ ":" ++ v.sort) ++ ".\n" ++
  String.join ((d.conjuncts.filter fun c => all || c.enabled).map fun c =>
    "    " ++ (if c.enabled then "" else "[off] ") ++ c.formula.render ++ "\n")

/-! ## Constants -/

/-- The constants that name variables: the first enabled equation between a
constant and a variable decides. -/
def constantNames (d : Diagram) : Formula.Substitution :=
  (d.enabled.filter fun c => c.kind == .constant).foldl (fun named c =>
    match c.formula.children with
    | constant :: target :: _ =>
      if (named.lookup target.name).isSome then named
      else named ++ [(target.name, constant)]
    | _ => named) []

def isTrivial : Formula → Bool
  | .eq a b => a == b
  | _ => false

/-- Puts constants for the variables they name, and drops the equations that
say nothing any more. -/
def simplifyConstants (d : Diagram) : Diagram :=
  let named := d.constantNames
  if named.isEmpty then d
  else
    { vars := d.vars.filter fun v => (named.lookup v.name).isNone
      conjuncts := (d.conjuncts.map fun c =>
        { c with formula := c.formula.substitute named }).filter fun c => !isTrivial c.formula }

/-! ## The diagram of a state -/

/-- The first of `name`, `name_`, `name__`, ... that is not taken. Only so many
can be taken as there are taken names. -/
def freeName (taken : List String) (name : String) : String :=
  search taken.length name
where
  /-- Tries at most `tries` names. -/
  search : Nat → String → String
    | 0, name => name
    | tries + 1, name => if taken.contains name then search tries (name ++ "_") else name

/-- The variable for an element, which hides no symbol and no sort. -/
def variableFor (p : Program) (sort : String) (index : Nat) : Var :=
  ⟨freeName (p.symbols.map Symbol.name ++ p.sorts) ("V_" ++ sort ++ "_" ++ toString index), sort⟩

def variablesFor (p : Program) (sort : String) (elements : List String) : List (String × Var) :=
  elements.mapIdx fun index element => (element, variableFor p sort index)

/-- The inequations between different variables of a list. -/
def distinctness : List Var → List Conjunct
  | [] => []
  | v :: vars =>
    vars.map (fun w => ⟨.distinct, true, .ne (.id v.name) (.id w.name)⟩) ++ distinctness vars

/-- The variable of an element; when an element occurs in several universes,
the last one counts. -/
def elementVar (named : List (String × Var)) (element : String) :
    Except DiagramFault Formula :=
  match named.reverse.lookup element with
  | some v => .ok (.id v.name)
  | none => .error (.unknownElement element)

def literal (named : List (String × Var)) (s : Symbol) (entry : List String × String) :
    Except DiagramFault Conjunct := do
  let args ← entry.1.mapM (elementVar named)
  let application := Formula.apply s.name args
  match s.kind with
  | .relation =>
    return ⟨.relation, true, if entry.2 = "true" then application else .not application⟩
  | .constant => return ⟨.constant, true, .eq application (← elementVar named entry.2)⟩
  | .function => return ⟨.function, true, .eq application (← elementVar named entry.2)⟩

/-- The literals of a symbol. Derived relations follow from the others. -/
def literals (p : Program) (named : List (String × Var)) (i : Interpretation) :
    Except DiagramFault (List Conjunct) :=
  match p.symbol? i.symbol with
  | none => .error (.unknownSymbol i.symbol)
  | some s => if s.isDerived then .ok [] else i.entries.mapM (literal named s)

/-- The diagram of a state of a trace: first how the elements of each sort
differ, then the immutable symbols, then the mutable ones. -/
def ofTrace (p : Program) (t : Trace) (index : Nat) (simplify : Bool) :
    Except DiagramFault Diagram := do
  let universes := t.universes.map fun entry => variablesFor p entry.1 entry.2
  let named := universes.flatten
  let immutable ← t.immutable.mapM (literals p named)
  let state ← (t.state index).mapError .trace
  let mutables ← state.mapM (literals p named)
  let d : Diagram := {
    vars := named.map Prod.snd
    conjuncts := universes.flatMap (fun vars => distinctness (vars.map Prod.snd)) ++
      immutable.flatten ++ mutables.flatten }
  return if simplify then d.simplifyConstants else d

end Diagram

end InvariantSearch
