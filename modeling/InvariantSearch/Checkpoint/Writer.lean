import InvariantSearch.Program.Notation
import InvariantSearch.Search.State

/-!
# Writing checkpoints

A checkpoint is the text of a search state, tied to a program by its
fingerprint:

    (HEADER
      (version 1)
      (fingerprint NUMBER)
      (counters LEARNED DISTINCT ITERATIONS)
      (log PREDICATES)
      (frame PREDICATES) ...
      (obligation FRAME PARENT KIND TRANSITION (VARS) (CONJUNCTS)) ...
    )

A root obligation has the parent -1, and the transition `-`.
-/

namespace InvariantSearch

namespace Checkpoint

def formatVersion : Nat := 1

def header : String := "fopdr-checkpoint"

def noTransition : String := "-"

/-- An entry that lists predicates, one a line. -/
def renderPredicates (keyword : String) (predicates : List Formula) : String :=
  "  (" ++ keyword ++ String.join (predicates.map fun f => "\n    " ++ f.render) ++ ")\n"

def renderConjunct (c : Conjunct) : String :=
  "(" ++ c.kind.word ++ " " ++ (if c.enabled then "on" else "off") ++ " " ++
    c.formula.render ++ ")"

def renderObligation (o : Obligation) : String :=
  "  (obligation " ++ toString o.frame ++ " " ++ toString o.parent ++ " " ++
    Obligation.kindWord o.may ++ " " ++
    (if o.transition = "" then noTransition else o.transition) ++ "\n    (" ++
    " ".intercalate (o.diagram.vars.map fun v => "(" ++ v.name ++ " " ++ v.sort ++ ")") ++
    ")\n    (" ++
    "\n     ".intercalate (o.diagram.conjuncts.map renderConjunct) ++ "))\n"

def render (p : Program) (s : SearchState) : String :=
  "(" ++ header ++ "\n" ++
  "  (version " ++ toString formatVersion ++ ")\n" ++
  "  (fingerprint " ++ toString p.fingerprint.toNat ++ ")\n" ++
  "  (counters " ++ toString s.learned.toNat ++ " " ++ toString s.distinct.toNat ++ " " ++
    toString s.iterations.toNat ++ ")\n" ++
  renderPredicates "log" s.log ++
  String.join (s.frames.map (renderPredicates "frame")) ++
  String.join (s.obligations.map renderObligation) ++
  ")\n"

end Checkpoint

end InvariantSearch
