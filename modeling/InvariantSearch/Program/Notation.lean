import InvariantSearch.Program.Sorting
import InvariantSearch.Text.Fingerprint

/-!
# The notation of programs

A program text is a sequence of declarations:

    (sort NAME)
    (relation NAME (SORTS) MUTABILITY [(derived FORMULA)])
    (constant NAME SORT MUTABILITY)
    (function NAME (SORTS) SORT MUTABILITY)
    (axiom [NAME] FORMULA)              (init [NAME] FORMULA)
    (transition NAME (PARAMS) (mods SYMBOLS) FORMULA)
    (safety [NAME] FORMULA)             (invariant [NAME] FORMULA)
    (theorem [NAME] FORMULA)            (twostate-theorem [NAME] FORMULA)

* `Program.render` writes a program, its declarations grouped by kind in this
  order. Two programs have the same `fingerprint` when their texts agree.
* `Program.read` reads and validates one. Declarations are taken as they come,
  so a faulty one is reported before anything that follows it.
-/

namespace InvariantSearch

/-! ## Writing -/

/-- Where the body of a transition is written: on the line of its head, or on
a line of its own. -/
inductive Layout where
  | compact
  | spread
  deriving DecidableEq, Repr

def mutabilityWord (isMutable : Bool) : String := if isMutable then "mutable" else "immutable"

def sortsToSexpr (sorts : List String) : Sexpr := .ofItems (sorts.map .ofName)

namespace Symbol

def toSexpr (s : Symbol) : Sexpr :=
  let mutability : Sexpr := .ofName (mutabilityWord s.isMutable)
  match s.signature with
  | .relation args none =>
    .ofItems [.ofName "relation", .ofName s.name, sortsToSexpr args, mutability]
  | .relation args (some definition) =>
    .ofItems [.ofName "relation", .ofName s.name, sortsToSexpr args, mutability,
      .ofItems [.ofName "derived", definition.toSexpr]]
  | .constant sort =>
    .ofItems [.ofName "constant", .ofName s.name, .ofName sort, mutability]
  | .function args result =>
    .ofItems [.ofName "function", .ofName s.name, sortsToSexpr args, .ofName result, mutability]

def render (s : Symbol) : String := s.toSexpr.render

end Symbol

namespace Transition

/-- What stands before the body in the declaration of a transition. -/
def head (t : Transition) : List Sexpr :=
  [.ofName "transition", .ofName t.name, binderToSexpr t.params,
    .ofItems (.ofName "mods" :: t.mods.toList.map .ofName)]

def render (layout : Layout) (t : Transition) : String :=
  "(" ++ Sexpr.renderItems t.head ++
    (match layout with
    | .compact => " "
    | .spread => "\n    ") ++ t.body.render ++ ")"

end Transition

namespace NamedFormula

/-- The declaration of a formula under a keyword; an empty name is left out. -/
def render (keyword : String) (f : NamedFormula) : String :=
  "(" ++ keyword ++ " " ++ (if f.name = "" then "" else f.name ++ " ") ++ f.formula.render ++ ")"

end NamedFormula

def Invariant.keyword (i : Invariant) : String := if i.isSafety then "safety" else "invariant"

def Theorem.keyword (t : Theorem) : String :=
  if t.isTwoState then "twostate-theorem" else "theorem"

namespace Program

/-- The declarations of a program, one text each. -/
def declarations (layout : Layout) (p : Program) : List String :=
  p.sorts.map (fun name => "(sort " ++ name ++ ")") ++
  p.symbols.map Symbol.render ++
  p.axioms.map (NamedFormula.render "axiom") ++
  p.inits.map (NamedFormula.render "init") ++
  p.transitions.map (Transition.render layout) ++
  p.invariants.map (fun i => i.toNamedFormula.render i.keyword) ++
  p.theorems.map (fun t => t.toNamedFormula.render t.keyword)

/-- The text of a program, a declaration a line. -/
def render (layout : Layout) (p : Program) : String :=
  String.join ((p.declarations layout).map (· ++ "\n"))

def fingerprint (p : Program) : UInt64 := InvariantSearch.fingerprint (p.render .compact)

/-! ## Reading -/

def mutabilityOfSexpr (e : Sexpr) : Except (Located Fault) Bool := do
  let text ← e.expectAtom "\"mutable\" or \"immutable\""
  if text = "mutable" then return true
  else if text = "immutable" then return false
  else throw ⟨e.line, .expected "\"mutable\" or \"immutable\"" text⟩

def sortsOfSexpr (e : Sexpr) : Except (Located Fault) (List String) := do
  (← e.expectList "a list of sorts").mapM (Sexpr.expectAtom "a sort name")

/-- A declaration that has been read and not yet added to a program. -/
inductive Declaration where
  | ofSort (name : String)
  | ofSymbol (s : Symbol)
  | ofAxiom (f : NamedFormula)
  | ofInit (f : NamedFormula)
  | ofTransition (t : Transition)
  | ofInvariant (i : Invariant)
  | ofTheorem (t : Theorem)

def add (p : Program) : Declaration → Except ProgramFault Program
  | .ofSort name => p.addSort name
  | .ofSymbol s => p.addSymbol s
  | .ofAxiom f => p.addAxiom f
  | .ofInit f => p.addInit f
  | .ofTransition t => p.addTransition t
  | .ofInvariant i => p.addInvariant i
  | .ofTheorem t => p.addTheorem t

namespace Declaration

/-- Reads `(derived FORMULA)`. -/
def definitionOfSexpr (e : Sexpr) : Except (Located Fault) Formula := do
  match ← e.expectList "(derived FORMULA)" with
  | [word, definition] =>
    if (← word.expectAtom "\"derived\"") ≠ "derived" then
      throw ⟨e.line, .shape "(derived FORMULA)"⟩
    Formula.ofSexpr definition
  | _ => throw ⟨e.line, .shape "(derived FORMULA)"⟩

/-- Reads `(mods SYMBOLS)`. -/
def modsOfSexpr (e : Sexpr) : Except (Located Fault) NameSet := do
  match ← e.expectList "(mods SYMBOLS)" with
  | [] => throw ⟨e.line, .shape "(mods SYMBOLS)"⟩
  | word :: symbols =>
    if (← word.expectAtom "\"mods\"") ≠ "mods" then throw ⟨e.line, .shape "(mods SYMBOLS)"⟩
    return NameSet.ofList (← symbols.mapM (Sexpr.expectAtom "a symbol name"))

/-- Reads a relation, after its keyword. -/
def relationOfSexprs (line : Nat) (items : List Sexpr) : Except (Located Fault) Symbol := do
  let relation (name args mutability : Sexpr) (definition : Option Formula) := do
    let name ← name.expectAtom "a relation name"
    let args ← sortsOfSexpr args
    let isMutable ← mutabilityOfSexpr mutability
    return (⟨name, .relation args definition, isMutable⟩ : Symbol)
  match items with
  | [name, args, mutability] => relation name args mutability none
  | [name, args, mutability, derived] =>
    let definition ← definitionOfSexpr derived
    relation name args mutability (some definition)
  | _ => throw ⟨line, .shape "(relation NAME (SORTS) MUTABILITY [(derived FORMULA)])"⟩

/-- Reads a constant, after its keyword. -/
def constantOfSexprs (line : Nat) (items : List Sexpr) : Except (Located Fault) Symbol := do
  match items with
  | [name, sort, mutability] =>
    let name ← name.expectAtom "a constant name"
    let sort ← sort.expectAtom "a sort name"
    return ⟨name, .constant sort, ← mutabilityOfSexpr mutability⟩
  | _ => throw ⟨line, .shape "(constant NAME SORT MUTABILITY)"⟩

/-- Reads a function, after its keyword. -/
def functionOfSexprs (line : Nat) (items : List Sexpr) : Except (Located Fault) Symbol := do
  match items with
  | [name, args, result, mutability] =>
    let name ← name.expectAtom "a function name"
    let args ← sortsOfSexpr args
    let result ← result.expectAtom "a sort name"
    return ⟨name, .function args result, ← mutabilityOfSexpr mutability⟩
  | _ => throw ⟨line, .shape "(function NAME (SORTS) SORT MUTABILITY)"⟩

/-- Reads a transition, after its keyword. -/
def transitionOfSexprs (line : Nat) (items : List Sexpr) :
    Except (Located Fault) Transition := do
  match items with
  | [name, params, mods, body] =>
    let mods ← modsOfSexpr mods
    let name ← name.expectAtom "a transition name"
    let params ← binderOfSexpr params
    return ⟨name, params, mods, ← Formula.ofSexpr body⟩
  | _ => throw ⟨line, .shape "(transition NAME (PARAMS) (mods SYMBOLS) FORMULA)"⟩

/-- Reads `[NAME] FORMULA`, after a keyword. -/
def namedFormulaOfSexprs (line : Nat) (keyword : String) (items : List Sexpr) :
    Except (Located Fault) NamedFormula := do
  match items with
  | [formula] => return ⟨"", ← Formula.ofSexpr formula⟩
  | [name, formula] =>
    let name ← name.expectAtom "a name"
    return ⟨name, ← Formula.ofSexpr formula⟩
  | _ => throw ⟨line, .malformedDeclaration keyword⟩

def ofSexpr (e : Sexpr) : Except (Located Fault) Declaration := do
  match ← e.expectList "a declaration" with
  | [] => throw ⟨e.line, .emptyDeclaration⟩
  | keyword :: items =>
    let keyword ← keyword.expectAtom "a declaration keyword"
    match keyword with
    | "sort" =>
      match items with
      | [name] => return .ofSort (← name.expectAtom "a sort name")
      | _ => throw ⟨e.line, .shape "(sort NAME)"⟩
    | "relation" => return .ofSymbol (← relationOfSexprs e.line items)
    | "constant" => return .ofSymbol (← constantOfSexprs e.line items)
    | "function" => return .ofSymbol (← functionOfSexprs e.line items)
    | "transition" => return .ofTransition (← transitionOfSexprs e.line items)
    | "axiom" => return .ofAxiom (← namedFormulaOfSexprs e.line keyword items)
    | "init" => return .ofInit (← namedFormulaOfSexprs e.line keyword items)
    | "safety" => return .ofInvariant ⟨← namedFormulaOfSexprs e.line keyword items, true⟩
    | "invariant" => return .ofInvariant ⟨← namedFormulaOfSexprs e.line keyword items, false⟩
    | "theorem" => return .ofTheorem ⟨← namedFormulaOfSexprs e.line keyword items, false⟩
    | "twostate-theorem" =>
      return .ofTheorem ⟨← namedFormulaOfSexprs e.line keyword items, true⟩
    | _ => throw ⟨e.line, .unknownKeyword keyword⟩

end Declaration

/-- Why a text is not a valid program. -/
inductive ReadError where
  /-- The text is faulty at a line. -/
  | located (fault : Located Fault)
  /-- The declaration at a line is refused. -/
  | refused (fault : Located ProgramFault)
  /-- The program as a whole is not valid. -/
  | invalid (fault : ProgramFault)
  deriving DecidableEq

/-- The wording of a read error in a named source. A refusal that begins with
the source's name is taken to be located already. -/
def ReadError.message (source : String) : ReadError → String
  | .located fault => atLine source fault.line fault.value.message
  | .refused fault =>
    let text := fault.value.message
    if (source ++ ":").isPrefixOf text then text else atLine source fault.line text
  | .invalid fault => source ++ ": " ++ fault.message

def addSexpr (p : Program) (e : Sexpr) : Except ReadError Program := do
  let declaration ← (Declaration.ofSexpr e).mapError .located
  (p.add declaration).mapError fun fault => .refused ⟨e.line, fault⟩

def read (text : String) : Except ReadError Program := do
  let reading := Sexpr.read text
  let p ← reading.items.foldlM addSexpr empty
  match reading.stopped with
  | some fault => throw (.located fault)
  | none => p.validate.mapError .invalid

end Program

end InvariantSearch
