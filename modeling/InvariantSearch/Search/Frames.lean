import InvariantSearch.Search.State
import InvariantSearch.Search.Subsumption

/-!
# Frames and obligations

The part of a search that needs no solver: what learning, pushing and pruning
do to the frames, and how obligations hang together.

* Frames shrink: what a frame has, every frame before it has too.
* Obligations form chains by their parents. The chain from the top of the stack
  down to a root is a path that leads into a violation of safety.
-/

namespace InvariantSearch

/-- A list with one more member at the end, unless it is there already. -/
def insertNew (f : Formula) (fs : List Formula) : List Formula :=
  if fs.contains f then fs else fs ++ [f]

/-- The members of a list, each once, where it occurs first. -/
def distinctFormulas (fs : List Formula) : List Formula :=
  fs.foldl (fun kept f => insertNew f kept) []

namespace SearchState

/-! ## Frames -/

/-- Adds an empty frame after all others. -/
def addFrame (s : SearchState) : SearchState := { s with frames := s.frames ++ [[]] }

def addToFrame (s : SearchState) (f : Formula) (index : Nat) : SearchState :=
  { s with frames := s.frames.modify index (insertNew f) }

/-- Adds a predicate to the frames up to one, and to the log. -/
def learn (s : SearchState) (f : Formula) (index : Nat) : SearchState :=
  { s with
    frames := s.frames.mapIdx fun i frame => if i ≤ index then insertNew f frame else frame
    log := insertNew f s.log
    learned := s.learned + 1
    distinct := if s.log.contains f then s.distinct else s.distinct + 1 }

def frameHas (s : SearchState) (index : Nat) (f : Formula) : Bool :=
  ((s.frames[index]?).getD []).contains f

/-- Whether two frames have the same predicates. Frames list each predicate
once, so it is enough to count them and look for those of the one in the
other. -/
def sameFrame (a b : List Formula) : Bool := a.length == b.length && a.all b.contains

/-- The position of the first frame that equals the next one. Frame 0 carries the
initial condition besides, so it takes no part. -/
def fixpoint? (s : SearchState) : Option Nat :=
  (List.range' 1 (s.frames.length - 2)).find? fun i =>
    sameFrame ((s.frames[i]?).getD []) ((s.frames[i + 1]?).getD [])

def simplify (s : SearchState) : SearchState := { s with frames := siftFrames s.frames }

/-- How many predicates the frames have, repetitions included. -/
def predicateCount (s : SearchState) : Nat := s.frames.flatten.length

def renderFrame (index : Nat) (frame : List Formula) : String :=
  "Frame " ++ toString index ++ " (" ++ toString frame.length ++ " predicates" ++
    (if index = 0 then ", and the initial condition" else "") ++ "):\n" ++
    String.join (frame.map fun f => "    " ++ f.render ++ "\n")

def renderFrames (s : SearchState) : String := String.join (s.frames.mapIdx renderFrame)

/-- The same state with frames and log that list nothing twice. -/
def normalize (s : SearchState) : SearchState :=
  { s with frames := s.frames.map distinctFormulas, log := distinctFormulas s.log }

/-! ## Obligations -/

def pushObligation (s : SearchState) (o : Obligation) : SearchState :=
  { s with obligations := s.obligations ++ [o] }

def popObligation (s : SearchState) : SearchState :=
  { s with obligations := s.obligations.dropLast }

/-- The positions from one obligation to its root, following parents. Parents
stand lower on the stack, so `steps` up to the position suffice. -/
def lineage (stack : List Obligation) : (steps position : Nat) → List Nat
  | 0, position => [position]
  | steps + 1, position =>
    match (stack[position]?).bind Obligation.parent? with
    | some parent => position :: lineage stack steps parent
    | none => [position]

def topLineage (s : SearchState) : List Nat :=
  match s.obligations.length with
  | 0 => []
  | top + 1 => lineage s.obligations top top

/-- The obligations from the top of the stack to its root. -/
def chain (s : SearchState) : List Obligation :=
  s.topLineage.filterMap fun position => s.obligations[position]?

/-- Drops the root of the top, and all above it. -/
def discardChain (s : SearchState) : SearchState :=
  { s with obligations := s.obligations.take ((s.topLineage.getLast?).getD 0) }

end SearchState

/-- Conditions on the states of a run along a chain of obligations, and its
transitions. A stutter joins the conditions on two states that are equal. The
last state violates safety. -/
def chainSteps (safety : Formula) : List Formula → List Obligation → List Formula × List String
  | _, [] => ([], [])
  | pending, [o] => ([Formula.conj (pending ++ [o.diagram.toFormula, .not safety])], [])
  | pending, o :: rest =>
    let condition := pending ++ [o.diagram.toFormula]
    if o.transition = stutterName then chainSteps safety condition rest
    else
      let (states, transitions) := chainSteps safety [] rest
      (Formula.conj condition :: states, o.transition :: transitions)

end InvariantSearch
