import InvariantSearch.Program.Basic
import InvariantSearch.Text.Terminated
import InvariantSearch.Solver.Term

/-!
# Encoding programs into solver terms

An encoding speaks of a sequence of states, one for each of its keys. A
mutable symbol becomes one solver symbol for each key, an immutable one stays
a single symbol. Quantified variables, parameters and witnesses become fresh
constants, which are numbered through. The solver learns of a name only what
stands before a NUL.

* `Encoding.lower` — a formula in some state. `new` moves on to the next state.
* `Encoding.frameCondition` — between two neighbouring states, mutable symbols
  outside a set keep their meaning. Derived relations follow from the others,
  so nothing is said about them.
* `Encoding.transition` — some parameters make the body of a transition hold,
  and the rest is kept.
* `Encoding.cardinalityBound` — a sort has at most so many elements.
-/

namespace InvariantSearch

/-- A program, seen over states named by keys. -/
structure Encoding where
  program : Program
  /-- What stands before every key. -/
  label : String
  keys : List String
  deriving DecidableEq

/-- What cannot be encoded. -/
inductive EncodingFault where
  | stateOutOfRange (index count : Nat)
  | noKeys
  | unknownSort (name : String)
  | unresolvedIdentifier (name : String)
  | unresolvedApplication (whole : Formula)
  deriving DecidableEq

def EncodingFault.message : EncodingFault → String
  | .stateOutOfRange index count =>
    "State index " ++ toString index ++ " requested from a translator with " ++
      toString count ++ " keys"
  | .noKeys => "Translator created without any keys"
  | .unknownSort name => "Unknown sort \"" ++ name ++ "\" in translation"
  | .unresolvedIdentifier name => "Unresolved identifier \"" ++ name ++ "\" in translation"
  | .unresolvedApplication whole =>
    "Unresolved application \"" ++ whole.render ++ "\" in translation"

/-- Computations that use up fresh names, counted by their state. What a
failing computation used stays used. -/
abbrev Fresh := EStateM EncodingFault Nat

/-- What free variables stand for; the first entry of a name counts. -/
abbrev Scope := List (String × Term)

/-- The keys of the first `count` states of a run. -/
def stepKeys (count : Nat) : List String := (List.range count).map fun i => "s" ++ toString i

namespace Encoding

/-! ## Sorts and symbols -/

/-- Fails unless there is a state of this position. -/
def checkState (e : Encoding) (index : Nat) : Except EncodingFault Unit :=
  if index < e.keys.length then .ok () else .error (.stateOutOfRange index e.keys.length)

/-- The position after a state's. Positions are words of 32 bits, so the first
one follows the last. -/
def nextState (index : Nat) : Nat := (index + 1) % UInt32.size

def sort (e : Encoding) (name : String) : Except EncodingFault SolverSort :=
  if name = boolSort then .ok .bool
  else if e.program.hasSort name then .ok (.named (beforeNul name))
  else .error (.unknownSort name)

def symbolName (e : Encoding) (s : Symbol) (index : Nat) : Except EncodingFault String :=
  if s.isMutable then
    match e.keys[index]? with
    | some key => .ok (e.label ++ key ++ "_" ++ s.name)
    | none => .error (.stateOutOfRange index e.keys.length)
  else .ok s.name

def symbol (e : Encoding) (s : Symbol) (index : Nat) : Except EncodingFault SolverSymbol := do
  let name ← e.symbolName s index
  let args ← s.args.mapM e.sort
  let range ← e.sort s.result
  return ⟨beforeNul name, args, range, none⟩

/-! ## Fresh constants -/

/-- A step without fresh names. -/
def sure {α : Type} (r : Except EncodingFault α) : Fresh α :=
  match r with
  | .ok a => pure a
  | .error fault => throw fault

def fresh (name : String) (sort : SolverSort) : Fresh SolverConst := do
  let number ← get
  set (number + 1)
  return ⟨beforeNul name ++ "!" ++ toString number, sort, number⟩

def freshOf (e : Encoding) (name sortName : String) : Fresh SolverConst := do
  let sort ← sure (e.sort sortName)
  fresh name sort

/-- Fresh constants for variables, and the scope in which they stand for
them. -/
def bindVars (e : Encoding) (scope : Scope) : List Var → Fresh (List SolverConst × Scope)
  | [] => return ([], scope)
  | v :: vars => do
    let c ← e.freshOf v.name v.sort
    let (cs, scope) ← e.bindVars ((v.name, c.term) :: scope) vars
    return (c :: cs, scope)

/-! ## Formulas -/

mutual

/-- A formula in the state of position `index`. -/
def lower (e : Encoding) (index : Nat) (scope : Scope) : Formula → Fresh Term
  | .bool value => return .bool value
  | .id name =>
    match scope.lookup name with
    | some t => return t
    | none =>
      match e.program.symbol? name with
      | none => throw (.unresolvedIdentifier name)
      | some s => do
        let f ← sure (e.symbol s index)
        return .app f []
  | .app name args =>
    match e.program.symbol? name with
    | none => throw (.unresolvedApplication (.app name args))
    | some s =>
      if s.arity ≠ args.length then throw (.unresolvedApplication (.app name args))
      else do
        let ts ← e.lowerList index scope args
        let f ← sure (e.symbol s index)
        return .app f ts
  | .not a => do
    let t ← e.lower index scope a
    return .not t
  | .and as => do
    let ts ← e.lowerList index scope as
    return Term.conj ts
  | .or as => do
    let ts ← e.lowerList index scope as
    return Term.disj ts
  | .imp a b => do
    let t ← e.lower index scope a
    let u ← e.lower index scope b
    return .imp t u
  | .iff a b => do
    let t ← e.lower index scope a
    let u ← e.lower index scope b
    return .iff t u
  | .eq a b => do
    let t ← e.lower index scope a
    let u ← e.lower index scope b
    return .eq t u
  | .ne a b => do
    let t ← e.lower index scope a
    let u ← e.lower index scope b
    return .not (.eq t u)
  | .ite a b c => do
    let t ← e.lower index scope a
    let u ← e.lower index scope b
    let v ← e.lower index scope c
    return .ite t u v
  | .all vars a => do
    let (consts, inner) ← e.bindVars scope vars
    let t ← e.lower index inner a
    return Term.forAll consts t
  | .ex vars a => do
    let (consts, inner) ← e.bindVars scope vars
    let t ← e.lower index inner a
    return Term.thereIs consts t
  | .new a => do
    sure (e.checkState (nextState index))
    e.lower (nextState index) scope a

/-- Formulas in the state of position `index`, in order. -/
def lowerList (e : Encoding) (index : Nat) (scope : Scope) : List Formula → Fresh (List Term)
  | [] => return []
  | f :: fs => do
    let t ← e.lower index scope f
    let ts ← e.lowerList index scope fs
    return t :: ts

end

/-- A formula in a state, which must exist. -/
def encode (e : Encoding) (f : Formula) (index : Nat) (scope : Scope) : Fresh Term := do
  sure (e.checkState index)
  e.lower index scope f

/-! ## Transitions -/

/-- A mutable symbol has the same meaning in a state and the next one. -/
def keeps (e : Encoding) (index : Nat) (s : Symbol) : Fresh Term := do
  let consts ← s.args.mapM (e.freshOf "x")
  let args := consts.map SolverConst.term
  let old ← sure (e.symbol s index)
  let new ← sure (e.symbol s (nextState index))
  return Term.forAll consts (.eq (.app old args) (.app new args))

/-- The symbols that keep their meaning when only `mods` may change. -/
def kept (p : Program) (mods : NameSet) : List Symbol :=
  p.symbols.filter fun s => s.isMutable && !s.isDerived && !mods.contains s.name

/-- All that is not in `mods` keeps its meaning. -/
def frameCondition (e : Encoding) (mods : NameSet) (index : Nat) : Fresh Term := do
  sure (e.checkState (nextState index))
  let parts ← (kept e.program mods).mapM (e.keeps index)
  return Term.conj parts

def transition (e : Encoding) (t : Transition) (index : Nat) : Fresh Term := do
  sure (e.checkState (nextState index))
  let (consts, scope) ← e.bindVars [] t.params
  let body ← e.lower index scope t.body
  let frame ← e.frameCondition t.mods index
  return Term.thereIs consts (.and [body, frame])

/-! ## Universes -/

/-- A sort has at most `size` elements. -/
def cardinalityBound (e : Encoding) (sortName : String) (size : Nat) : Fresh Term := do
  let element ← e.freshOf "elem" sortName
  let witnesses ← (List.range size).mapM fun i =>
    e.freshOf (sortName ++ "_" ++ toString i) sortName
  return .all [element] (Term.disj (witnesses.map fun w => .eq element.term w.term))

end Encoding

end InvariantSearch
