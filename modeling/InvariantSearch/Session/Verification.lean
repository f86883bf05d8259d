import InvariantSearch.Session.Basic

/-!
# Verification

Whether properties of a program hold, each asked as one query for a
counterexample: a property holds when its query is unsatisfiable.

* Initiation — it holds in all initial states.
* Consecution — it holds after a transition from states of an assumption.
* Implication — it follows from an assumption.
-/

namespace InvariantSearch

/-- What a query was to establish. -/
inductive CheckKind where
  | initiation | consecution | safety | statement
  deriving DecidableEq, Repr

def CheckKind.word : CheckKind → String
  | .initiation => "initiation"
  | .consecution => "consecution"
  | .safety => "safety"
  | .statement => "theorem"

/-- A check with a counterexample. -/
structure Failure where
  kind : CheckKind
  property : String
  /-- The transition of a consecution; else empty. -/
  transition : String
  violation : Trace
  deriving DecidableEq, Repr

def Failure.render (f : Failure) : String :=
  f.kind.word ++ " check failed for " ++ f.property ++
    (if f.transition = "" then "" else " over transition " ++ f.transition) ++
    ", counterexample:\n" ++ f.violation.render

namespace Session

/-- A trace that satisfies some terms, if there is one. -/
def witness (e : Encoding) (terms : List Term) (question : Question) :
    SessionM (Option Trace) :=
  query e do
    assertAll terms
    if ← check [] question then
      let t ← minimalTrace e [] question
      return some t
    else return none

/-- An initial state that violates a property, if there is one. -/
def violatesInitiation (property : Formula) : SessionM (Option Trace) := do
  let e ← overSteps 1
  let initial ← encode e e.program.initial 0
  let bad ← encode e (.not property) 0
  witness e [initial, bad] (.initiation property)

/-- A step by a transition from a state of an assumption into a violation of a
property, if there is one. -/
def violatesConsecution (assumption property : Formula) (t : Transition) :
    SessionM (Option Trace) := do
  let e ← overSteps 2
  let before ← encode e assumption 0
  let step ← transition e t 0
  let bad ← encode e (.not property) 1
  let found ← witness e [before, step, bad] (.consecution assumption property t)
  return found.map fun trace => trace.setTransition 0 t.name

/-- A state of an assumption that violates a property, if there is one. -/
def violatesImplication (assumption property : Formula) : SessionM (Option Trace) := do
  let e ← overSteps 1
  let before ← encode e assumption 0
  let bad ← encode e (.not property) 0
  witness e [before, bad] (.implication assumption property)

/-- States that violate a theorem, if there are any. -/
def violatesTheorem (t : Theorem) : SessionM (Option Trace) := do
  let e ← overSteps (if t.isTwoState then 2 else 1)
  let bad ← encode e (.not t.formula) 0
  witness e [bad] (.statement t)

def failureOf (kind : CheckKind) (property transition : String) (violation : Option Trace) :
    List Failure :=
  (violation.map fun trace => (⟨kind, property, transition, trace⟩ : Failure)).toList

/-- The failures of an invariant: of initiation first, then of each
transition. -/
def verifyInvariant (assumption : Formula) (transitions : List Transition) (i : Invariant) :
    SessionM (List Failure) := do
  let initiation ← violatesInitiation i.formula
  let consecution ← transitions.mapM fun t => do
    let found ← violatesConsecution assumption i.formula t
    return failureOf .consecution i.name t.name found
  return failureOf .initiation i.name "" initiation ++ consecution.flatten

/-- The members of a list whose name is asked for; all when no name is. -/
def chosen {α : Type} (names : NameSet) (name : α → String) (items : List α) : List α :=
  items.filter fun item => names.isEmpty || names.contains (name item)

/-- Verifies that the invariants of a program are inductive together. Only the
invariants and transitions that are named count, if any are. -/
def verifyInvariants (invariants transitions : NameSet) : SessionM (List Failure) := do
  let p := (← get).program
  let assumption := Formula.conj (p.invariants.map fun i => i.formula)
  match invariants.toList.find? fun name => p.invariants.all fun i => i.name != name with
  | some name => throw (.program (.noInvariantToCheck name))
  | none =>
    match transitions.toList.find? fun name => (p.transition? name).isNone with
    | some name => throw (.program (.noTransitionToCheck name))
    | none =>
      let checked := chosen invariants (fun i : Invariant => i.name) p.invariants
      let steps := chosen transitions Transition.name p.transitions
      let failures ← checked.mapM (verifyInvariant assumption steps)
      let failures := failures.flatten
      logging fun log => log.progress fun _ =>
        "Checked " ++ toString checked.length ++ " invariants, " ++ toString failures.length ++
          " failures\n"
      return failures

def verifyTheorems : SessionM (List Failure) := do
  let failures ← (← get).program.theorems.mapM fun t => do
    let found ← violatesTheorem t
    return failureOf .statement t.name "" found
  return failures.flatten

/-- Verifies that some predicates are an inductive invariant that implies a
safety property. -/
def checkInductive (predicates : List Formula) (safety : Formula) : SessionM (List Failure) := do
  let invariant := Formula.conj predicates
  let name := invariant.render
  let initiation ← violatesInitiation invariant
  let consecution ← (← get).program.transitions.mapM fun t => do
    let found ← violatesConsecution invariant invariant t
    return failureOf .consecution name t.name found
  let implication ← violatesImplication invariant safety
  return failureOf .initiation name "" initiation ++ consecution.flatten ++
    failureOf .safety safety.render "" implication

end Session

end InvariantSearch
