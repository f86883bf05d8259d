import InvariantSearch.Formula.Basic

/-!
# Subsumption

Learned predicates are clauses: disjunctions under universal quantifiers. A
clause whose variables and disjuncts all occur in another one implies it, so a
frame can do without the other one.
-/

namespace InvariantSearch

/-- Variables, and disjuncts over them. -/
structure Clause where
  vars : List Var
  disjuncts : List Formula
  deriving DecidableEq

namespace Clause

/-- The disjuncts of a formula; one that is no disjunction is its own. -/
def disjunctsOf : Formula → List Formula
  | .or parts => parts
  | f => [f]

def ofFormula : Formula → Clause
  | .all vars body => ⟨vars, disjunctsOf body⟩
  | f => ⟨[], disjunctsOf f⟩

end Clause

/-- Whether all of the first clause occurs in the second. -/
def subsumes (first second : Formula) : Bool :=
  let c := Clause.ofFormula first
  let d := Clause.ofFormula second
  c.vars.all d.vars.contains && c.disjuncts.all d.disjuncts.contains

/-- The predicates of a frame without those that another one of it subsumes.
What the next frame has stays. Of the predicates before, only those that were
kept count. -/
def siftFrame (next : List Formula) : List Formula → List Formula → List Formula
  | kept, [] => kept
  | kept, f :: rest =>
    if !next.contains f && (kept ++ rest).any fun g => subsumes g f then siftFrame next kept rest
    else siftFrame next (kept ++ [f]) rest

/-- All frames without subsumed predicates; the last frame is done first. -/
def siftFrames : List (List Formula) → List (List Formula)
  | [] => []
  | frame :: frames =>
    let later := siftFrames frames
    siftFrame (later.head?.getD []) [] frame :: later

end InvariantSearch
