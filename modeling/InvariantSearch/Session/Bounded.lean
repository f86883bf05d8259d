import InvariantSearch.Session.Basic

/-!
# Bounded checking

Whether there is a run of a given length that meets a condition in each state
and takes the transitions asked for. A step may be left open: then a fresh
indicator for each transition, and one for stuttering, shows in the model which
one was taken. Since steps may stutter, a run of exactly `n` steps covers all
shorter ones.
-/

namespace InvariantSearch

namespace Session

/-- A transition a step may take, and the indicator that shows it. Without an
indicator it is the only choice. -/
abbrev Choice := String × Option SolverConst

def choose (name label : String) (step : SessionM Term) : SessionM (Choice × Term) := do
  let indicator ← proving (Prover.indicator label)
  let term ← step
  assert (.imp indicator.term term)
  return ((name, some indicator), indicator.term)

/-- Constrains one step, and lists what it may be. -/
def constrainStep (e : Encoding) (index : Nat) (wanted : String) : SessionM (List Choice) := do
  if wanted = stutterName then
    let term ← stutter e index
    assert term
    return [(stutterName, none)]
  else if wanted ≠ "" then
    match e.program.transition? wanted with
    | none => throw (.unknownTransition wanted)
    | some t =>
      let term ← transition e t index
      assert term
      return [(wanted, none)]
  else
    let label := "step" ++ toString index ++ "_"
    let choices ← e.program.transitions.mapM fun t =>
      choose t.name (label ++ t.name) (transition e t index)
    let rest ← choose stutterName (label ++ "stutter") (stutter e index)
    let choices := choices ++ [rest]
    assert (Term.disj (choices.map Prod.snd))
    return choices.map Prod.fst

/-- The first choice that a model takes. -/
def taken? (m : SolverModel) : List Choice → Except ModelFault (Option String)
  | [] => .ok none
  | (name, none) :: _ => .ok (some name)
  | (name, some indicator) :: rest => do
    if ← m.evaluateBool indicator.symbol [] then return some name else taken? m rest

def nameSteps (m : SolverModel) (choices : List (List Choice)) (t : Trace) :
    Except ModelFault Trace :=
  choices.zipIdx.foldlM (fun t (step, index) => do
    match ← taken? m step with
    | some name => return t.setTransition index name
    | none => return t) t

/-- A run that was found: the trace that a model shows, and the same with its
steps named, unless the model fails to tell them. -/
structure Sighting where
  shown : Trace
  named : Except Error Trace

/-- Looks for a run that meets a condition in each state, where one is given,
and takes the named transitions; the empty name leaves a step open. States are
counted by words of 32 bits. -/
def sightTrace (constraints : List (Option Formula)) (names : List String)
    (description : String) : SessionM (Option Sighting) := do
  let count := constraints.length % UInt32.size
  if count = 0 ∨ names.length + 1 ≠ count then throw (.traceQuery count names.length)
  let e ← overSteps count
  query e do
    let initial ← encode e e.program.initial 0
    assert initial
    (constraints.take count).zipIdx.forM fun (constraint, index) =>
      match constraint with
      | some f => do
        let term ← encode e f index
        assert term
      | none => pure ()
    let choices ← names.zipIdx.mapM fun (name, index) => constrainStep e index name
    let question := Question.run description (constraints.take count) names
    if ← check [] question then
      let m ← minimalModel e [] question
      let t ← readModel e m
      let named := (nameSteps m choices t).mapError fun fault => .readback (.model fault)
      if let .ok t := named then
        logging fun log => log.framedEntry .traces fun _ =>
          "Trace found for " ++ description ++ ":\n" ++ t.render ++ "\n"
      return some ⟨t, named⟩
    else return none

/-- Looks for a run of at most `depth` steps that ends in a violation of a
property. -/
def sightViolation (property : Formula) (depth : Nat) : SessionM (Option Sighting) :=
  sightTrace (List.replicate depth none ++ [some (.not property)]) (List.replicate depth "")
    ("bounded check of " ++ property.render ++ " at depth " ++ toString depth)

/-- The trace of a run that was found, with its steps named. -/
def Sighting.settle {σ : Type} : Option Sighting → EStateM Error σ (Option Trace)
  | none => return none
  | some sighting => do
    let t ← liftExcept id sighting.named
    return some t

/-- A run that meets a condition in each state, where one is given, and takes
the named transitions. -/
def findTrace (constraints : List (Option Formula)) (names : List String) (description : String) :
    SessionM (Option Trace) := do
  let found ← sightTrace constraints names description
  Sighting.settle found

/-- A run of at most `depth` steps that ends in a violation of a property. -/
def findViolation (property : Formula) (depth : Nat) : SessionM (Option Trace) := do
  let found ← sightViolation property depth
  Sighting.settle found

end Session

end InvariantSearch
