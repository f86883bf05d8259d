import InvariantSearch.Session.Work

/-!
# Generalization

A diagram without predecessors among the states of a frame stays without them
when some of its literals are dropped. Dropping as many as possible makes the
predicate that excludes it as strong as possible.

* `Generalizer.predecessor` looks for a state of the frame that reaches the
  diagram by stuttering or by a transition. Each literal has an indicator, so
  that unsatisfiable cores tell which literals matter.
* `Generalizer.generalize` first keeps to the cores, until they cover all that
  is left, and then tries to drop the remaining literals one by one.
-/

namespace InvariantSearch

/-! ## Dropping literals -/

namespace Diagram

def keepWhere (d : Diagram) (test : Nat → Bool) : Diagram :=
  { d with conjuncts := d.conjuncts.mapIdx fun i c => { c with enabled := c.enabled && test i } }

def restrictTo (d : Diagram) (core : List Nat) : Diagram :=
  d.keepWhere fun i => core.contains i

/-- Switches off the literals after a position that are outside of some
positions. -/
def restrictAfter (d : Diagram) (position : Nat) (core : List Nat) : Diagram :=
  d.keepWhere fun i => i ≤ position || core.contains i

end Diagram

/-- What a generalizer has done. -/
structure GeneralizerStats where
  generalizations : Nat
  predecessorQueries : Nat
  coreDrops : Nat
  bruteDrops : Nat
  literalsIn : Nat
  literalsOut : Nat
  deriving DecidableEq, Repr

def GeneralizerStats.zero : GeneralizerStats := ⟨0, 0, 0, 0, 0, 0⟩

/-- Whether cores are used, and what was done so far. -/
structure Generalizer where
  useCores : Bool
  stats : GeneralizerStats
  deriving DecidableEq, Repr

/-- A predecessor of a diagram: the step into the diagram, and a trace that
shows it, if one was asked for. -/
structure Predecessor where
  transition : String
  trace : Option Trace
  deriving DecidableEq, Repr

/-- What is found about predecessors: one of them, if there is any, and the
positions of the literals that cores name. -/
structure PredecessorAnswer where
  predecessor : Option Predecessor
  core : List Nat
  deriving DecidableEq, Repr

/-- What the caller wants to know besides. -/
structure Wanted where
  trace : Bool
  core : Bool
  deriving DecidableEq, Repr

namespace Generalizer

open WorkM

def new (useCores : Bool) : Generalizer := ⟨useCores, .zero⟩

def count (f : GeneralizerStats → GeneralizerStats) : WorkM Generalizer Unit :=
  update fun g => { g with stats := f g.stats }

/-! ## Predecessors -/

/-- The ways into a diagram: stuttering, then the transitions in order. -/
def ways (p : Program) : List (Option Transition) := none :: p.transitions.map some

/-- The first step, by a way. -/
def wayTerm (e : Encoding) : Option Transition → SessionM Term
  | none => Session.stutter e 0
  | some t => Session.transition e t 0

/-- Asserts the literals of a diagram in the second state, each under an
indicator of its own. Positions go with the indicators. -/
def assertLiterals (e : Encoding) (scope : Scope) (d : Diagram) :
    SessionM (List (Nat × Term)) :=
  (d.conjuncts.zipIdx.filter fun (c, _) => c.enabled).mapM fun (c, index) => do
    let indicator ← Session.proving (Prover.indicator ("conj" ++ toString index))
    let term ← Session.encodeWith e c.formula 1 scope
    Session.assert (.imp indicator.term term)
    return (index, indicator.term)

/-- Asserts that a state of the frame reaches the diagram by a way. -/
def assertStep (e : Encoding) (frame : Formula) (d : Diagram) (way : Option Transition) :
    SessionM (List (Nat × Term)) := do
  let before ← Session.encode e frame 0
  Session.assert before
  let step ← wayTerm e way
  Session.assert step
  let (_, scope) ← Session.encoding (e.bindVars [] d.vars)
  assertLiterals e scope d

/-- The positions of the literals whose indicators are in a core, in order. -/
def corePositions (literals : List (Nat × Term)) (core : List Term) : List Nat :=
  (literals.filter fun literal => core.contains literal.2).map Prod.fst

/-- Asks for a predecessor by a way whose step is asserted. -/
def askWay (e : Encoding) (question : Question) (wanted : Wanted) (way : Option Transition)
    (literals : List (Nat × Term)) : SessionM PredecessorAnswer := do
  let assumptions := literals.map Prod.snd
  if ← Session.check assumptions question then
    if wanted.trace then
      let t ← Session.minimalTrace e assumptions question
      return ⟨some ⟨wayName way, some (t.setTransition 0 (wayName way))⟩, []⟩
    else return ⟨some ⟨wayName way, none⟩, []⟩
  else if wanted.core then
    let core ← Session.proving Prover.core
    return ⟨none, corePositions literals core⟩
  else return ⟨none, []⟩

def tryWay (e : Encoding) (frame : Formula) (d : Diagram) (context : String) (wanted : Wanted)
    (way : Option Transition) : WorkM Generalizer PredecessorAnswer := do
  let answer ← inSession (Session.pose e (assertStep e frame d way)
    (askWay e (.predecessor context frame d way) wanted way))
  count fun s => { s with predecessorQueries := s.predecessorQueries + 1 }
  liftExcept id answer

/-- Looks for a predecessor by some ways in turn, and joins the cores. -/
def tryWays (e : Encoding) (frame : Formula) (d : Diagram) (context : String) (wanted : Wanted) :
    List (Option Transition) → List Nat → WorkM Generalizer PredecessorAnswer
  | [], core => return ⟨none, core⟩
  | way :: rest, core => do
    let answer ← tryWay e frame d context wanted way
    match answer.predecessor with
    | some found => return ⟨some found, core⟩
    | none => tryWays e frame d context wanted rest (core ++ answer.core)

/-- Looks for a state of a frame that reaches a diagram in one step. The core
lists positions in order, each once. -/
def predecessor (frame : Formula) (d : Diagram) (context : String) (wanted : Wanted) :
    WorkM Generalizer PredecessorAnswer := do
  let e ← inSession (Session.overSteps 2)
  let answer ← tryWays e frame d context wanted (ways e.program) []
  return { answer with core := (List.range d.conjuncts.length).filter answer.core.contains }

/-! ## Generalizing -/

/-- Keeps to the literals in cores until the cores cover all that is left. Each
round but the last drops a literal, so `rounds` above their number suffice. -/
def keepToCores (frame : Formula) (context : String) :
    Nat → Diagram → WorkM Generalizer Diagram
  | 0, d => return d
  | rounds + 1, d => do
    let answer ← predecessor frame d context ⟨false, true⟩
    if answer.predecessor.isSome then throw (.hasPredecessor context d)
    let reduced := d.restrictTo answer.core
    let dropped := d.enabled.length - reduced.enabled.length
    count fun s => { s with coreDrops := s.coreDrops + dropped }
    logging fun log => log.entry .generalization fun _ =>
      "Unsat cores of " ++ context ++ " cover " ++ toString answer.core.length ++
        " conjuncts, dropped " ++ toString dropped ++ "\n"
    if dropped = 0 then return d else keepToCores frame context rounds reduced

/-- Drops a literal if the diagram has no predecessor without it. Later literals
outside of the cores then go at once. -/
def dropLiteral (frame : Formula) (context : String) (d : Diagram) (position : Nat) :
    WorkM Generalizer Diagram := do
  if !d.isEnabled position then return d
  let useCores := (← own).useCores
  let fewer := d.switch position false
  let answer ← predecessor frame fewer context ⟨false, useCores⟩
  if answer.predecessor.isSome then return d
  count fun s => { s with bruteDrops := s.bruteDrops + 1 }
  logging fun log => log.entry .generalization fun _ =>
    "Dropped " ++ ((d.conjuncts[position]?.map fun c => c.formula.render).getD "") ++ " from " ++
      context ++ "\n"
  if useCores then
    let reduced := fewer.restrictAfter position answer.core
    count fun s =>
      { s with coreDrops := s.coreDrops + (fewer.enabled.length - reduced.enabled.length) }
    return reduced
  else return fewer

/-- Drops literals of a diagram that has no predecessor in a frame, as long as
it has none. -/
def generalize (d : Diagram) (frame : Formula) (context : String) :
    WorkM Generalizer Diagram := do
  count fun s => { s with
    generalizations := s.generalizations + 1
    literalsIn := s.literalsIn + d.enabled.length }
  let useCores := (← own).useCores
  let kept ← if useCores then keepToCores frame context (d.enabled.length + 1) d else pure d
  let small ← (List.range kept.conjuncts.length).foldlM (dropLiteral frame context) kept
  count fun s => { s with literalsOut := s.literalsOut + small.enabled.length }
  logging fun log => log.framedEntry .generalization fun _ =>
    "Generalized " ++ context ++ " from " ++ toString d.enabled.length ++ " to " ++
      toString small.enabled.length ++ " conjuncts:\n" ++ small.toPredicate.render ++ "\n"
  return small

end Generalizer

end InvariantSearch
