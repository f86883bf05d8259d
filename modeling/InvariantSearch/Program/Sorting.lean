import InvariantSearch.Program.Basic

/-!
# Sorts of formulas

`Program.sortOf` finds the sort of a formula or term against the vocabulary of
a program, in a context that decides what the formula may speak of:

* `singleState` — one state: every symbol, no next state;
* `twoState` — a state and its next one, where `new` does not nest;
* `immutableOnly` — what all states share.

`Program.check` accepts the closed formulas of a context, and
`Program.validate` checks a whole program, in the order symbols, axioms,
initial conditions, transitions, invariants, theorems.
-/

namespace InvariantSearch

/-- What a formula may speak of. -/
inductive FormulaContext where
  | singleState
  | twoState
  | immutableOnly
  deriving DecidableEq, Repr

namespace Program

/-- Variables in scope with their sorts, innermost first. -/
abbrev Scope := List Var

def Scope.sort? (scope : Scope) (name : String) : Option String :=
  (scope.find? (fun v => v.name == name)).map Var.sort

/-- Whether a sort is declared, or that of truth values. -/
def checkSort (p : Program) (name : String) (place : SortPlace) : Except SortFault Unit :=
  if name = boolSort ∨ p.hasSort name then .ok () else .error (.unknownSort name place)

/-- Checks the binder of a quantified formula: its variables have declared
sorts, hide no symbol and differ. -/
def checkBinder (p : Program) (whole : Formula) : List Var → List String → Except SortFault Unit
  | [], _ => .ok ()
  | v :: vars, seen => do
    if v.sort = boolSort then throw (.quantifiedBool whole)
    p.checkSort v.sort (.binder whole)
    if (p.symbol? v.name).isSome then throw (.hidingVariable v.name)
    if seen.contains v.name then throw (.repeatedVariable v.name)
    p.checkBinder whole vars (v.name :: seen)

def checkMention (context : FormulaContext) (s : Symbol) : Except SortFault Unit :=
  if context = .immutableOnly ∧ s.isMutable then .error (.mutableSymbol s.name) else .ok ()

/-- Fails unless a part has the sort of truth values. -/
def expectBool (part : Formula) (sort : String) : Except SortFault Unit :=
  if sort = boolSort then .ok () else .error (.notFormula part sort)

/-- Compares the sorts of arguments with those a symbol takes, the first
argument being number `position`. -/
def checkArgument (whole : Formula) (position : Nat) (sort expected : String) :
    Except SortFault Unit :=
  if sort = expected then .ok () else .error (.wrongArgument position whole sort expected)

mutual

/-- The sort of a formula or term. `underNew` tells whether a next-state
operator stands above it. -/
def sortOf (p : Program) (context : FormulaContext) (scope : Scope) (underNew : Bool) :
    Formula → Except SortFault String
  | .bool _ => .ok boolSort
  | .id name =>
    match Scope.sort? scope name with
    | some sort => .ok sort
    | none =>
      match p.symbol? name with
      | none => .error (.unknownIdentifier name)
      | some s => do
        if s.arity ≠ 0 then throw (.bareSymbol name s.arity)
        checkMention context s
        return s.result
  | .app name args =>
    if (Scope.sort? scope name).isSome then .error (.appliedVariable name)
    else
      match p.symbol? name with
      | none => .error (.unknownSymbol name)
      | some s => do
        if s.arity ≠ args.length then throw (.wrongArity (.app name args) s.arity)
        checkMention context s
        p.checkArguments context scope underNew (.app name args) 1 args s.args
        return s.result
  | .not a => do
    expectBool a (← p.sortOf context scope underNew a)
    return boolSort
  | .and parts | .or parts => do
    p.checkFormulas context scope underNew parts
    return boolSort
  | .imp a b | .iff a b => do
    expectBool a (← p.sortOf context scope underNew a)
    expectBool b (← p.sortOf context scope underNew b)
    return boolSort
  | .eq a b => do
    let left ← p.sortOf context scope underNew a
    let right ← p.sortOf context scope underNew b
    if left ≠ right then throw (.sides (.eq a b) left right)
    return boolSort
  | .ne a b => do
    let left ← p.sortOf context scope underNew a
    let right ← p.sortOf context scope underNew b
    if left ≠ right then throw (.sides (.ne a b) left right)
    return boolSort
  | .ite a b c => do
    expectBool a (← p.sortOf context scope underNew a)
    let yes ← p.sortOf context scope underNew b
    let no ← p.sortOf context scope underNew c
    if yes ≠ no then throw (.branches (.ite a b c) yes no)
    return yes
  | .all vars a => do
    p.checkBinder (.all vars a) vars []
    let sort ← p.sortOf context (vars ++ scope) underNew a
    if sort ≠ boolSort then throw (.bodyNotFormula (.all vars a))
    return boolSort
  | .ex vars a => do
    p.checkBinder (.ex vars a) vars []
    let sort ← p.sortOf context (vars ++ scope) underNew a
    if sort ≠ boolSort then throw (.bodyNotFormula (.ex vars a))
    return boolSort
  | .new a => do
    if context ≠ .twoState then throw (.newNotAllowed (.new a))
    if underNew then throw (.nestedNew (.new a))
    p.sortOf context scope true a

def checkFormulas (p : Program) (context : FormulaContext) (scope : Scope) (underNew : Bool) :
    List Formula → Except SortFault Unit
  | [] => .ok ()
  | f :: fs => do
    expectBool f (← p.sortOf context scope underNew f)
    p.checkFormulas context scope underNew fs

/-- Checks arguments against the sorts that are expected of them. -/
def checkArguments (p : Program) (context : FormulaContext) (scope : Scope) (underNew : Bool)
    (whole : Formula) (position : Nat) : List Formula → List String → Except SortFault Unit
  | f :: fs, expected :: rest => do
    checkArgument whole position (← p.sortOf context scope underNew f) expected
    p.checkArguments context scope underNew whole (position + 1) fs rest
  | _, _ => .ok ()

end

/-- Accepts the formulas without free variables that fit the program in a
context. -/
def check (p : Program) (f : Formula) (context : FormulaContext) : Except SortFault Unit := do
  let sort ← p.sortOf context [] false f
  if sort ≠ boolSort then throw (.term f sort)

/-! ## Validation -/

def checkSection (p : Program) (part : Section) (f : Formula) (context : FormulaContext) :
    Except ProgramFault Unit :=
  (p.check f context).mapError (.inside part)

def checkSymbol (p : Program) (s : Symbol) : Except ProgramFault Unit := do
  s.args.forM fun sort => do
    if sort = boolSort then throw (.formulaArgument s.name)
    if !p.hasSort sort then throw (.unknownSort sort (.declaration s.name))
  if !s.isRelation && s.result = boolSort then throw (.booleanSymbol s.name)
  if s.result ≠ boolSort && !p.hasSort s.result then
    throw (.unknownSort s.result (.declaration s.name))
  match s.definition? with
  | none => return
  | some definition =>
    p.checkSection (.definition s.name) definition
      (if s.isMutable then .singleState else .immutableOnly)

/-- Checks the parameters of a transition, `seen` being those before. -/
def checkParams (p : Program) (transition : String) :
    List Var → List String → Except ProgramFault Unit
  | [], _ => .ok ()
  | v :: params, seen => do
    if v.sort = boolSort then throw (.formulaParameter transition)
    if !p.hasSort v.sort then throw (.unknownSort v.sort (.transition transition))
    if (p.symbol? v.name).isSome then throw (.hidingParameter v.name transition)
    if seen.contains v.name then throw (.repeatedParameter v.name transition)
    p.checkParams transition params (v.name :: seen)

def checkModified (p : Program) (transition symbol : String) : Except ProgramFault Unit :=
  match p.symbol? symbol with
  | none => .error (.unknownModified symbol transition)
  | some s =>
    if !s.isMutable then .error (.immutableModified symbol transition)
    else if s.isDerived then .error (.derivedModified symbol transition)
    else .ok ()

def checkTransition (p : Program) (t : Transition) : Except ProgramFault Unit := do
  p.checkParams t.name t.params []
  t.mods.toList.forM (p.checkModified t.name)
  let sort ← (p.sortOf .twoState t.params false t.body).mapError
    (.inside (.transition t.name))
  if sort ≠ boolSort then throw (.bodyNotFormula t.name)

/-- Checks every declaration; the first fault is reported. -/
def checkAll (p : Program) : Except ProgramFault Unit := do
  p.symbols.forM p.checkSymbol
  p.axioms.forM fun f => p.checkSection (.axiomatic f.name) f.formula .immutableOnly
  p.inits.forM fun f => p.checkSection (.initial f.name) f.formula .singleState
  p.transitions.forM p.checkTransition
  p.invariants.forM fun i => p.checkSection (.invariant i.name) i.formula .singleState
  p.theorems.forM fun t =>
    p.checkSection (.statement t.name) t.formula
      (if t.isTwoState then .twoState else .singleState)

def validate (p : Program) : Except ProgramFault Program := do
  p.checkAll
  return { p with validated := true }

end Program

end InvariantSearch
