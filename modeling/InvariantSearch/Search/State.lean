import InvariantSearch.Diagram.Basic

/-!
# Search states

What a search knows, and all it needs to go on later.

* Frame `i` holds predicates that are meant to hold in every state reachable
  in at most `i` steps. Frame 0 has the initial condition besides.
* An obligation is a bad state that has to be shown unreachable within the
  steps of its frame. A predecessor of it becomes an obligation one frame
  lower, with the first one as its parent.
-/

namespace InvariantSearch

/-- The name that stands for a step in which nothing changes. -/
def stutterName : String := "<stutter>"

/-- A bad state to be shown unreachable within `frame` steps. -/
structure Obligation where
  frame : Nat
  diagram : Diagram
  /-- The transition from this state to the parent's; empty for a root. -/
  transition : String
  /-- The position of the parent on the stack; negative for a root. -/
  parent : Int
  /-- Whether it comes from a predicate that could not be pushed, and not from
  a violation of safety: reaching frame 0 then disproves nothing. -/
  may : Bool
  deriving DecidableEq

/-- The position of the parent, if the obligation is not a root. -/
def Obligation.parent? (o : Obligation) : Option Nat := o.parent.toNat?

def Obligation.root : Int := -1

def Obligation.kindWord (may : Bool) : String := if may then "may" else "must"

/-- Frames, learned predicates, counters and pending obligations. -/
structure SearchState where
  /-- The predicates of each frame, frame 0 first. -/
  frames : List (List Formula)
  /-- The different predicates in the order they were learned. -/
  log : List Formula
  /-- How many states were blocked, repetitions included. -/
  learned : UInt64
  /-- How many different predicates were learned. -/
  distinct : UInt64
  iterations : UInt64
  /-- The stack of obligations, bottom first. -/
  obligations : List Obligation
  deriving DecidableEq

def SearchState.empty : SearchState := ⟨[], [], 0, 0, 0, []⟩

end InvariantSearch
